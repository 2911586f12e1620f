import Treewalk.Eval.Cell
import Treewalk.Proofs.SafeBody

/-!
Reading and writing cells. What a write stores has passed the checks of its cell, and a constant cell is
never written.
-/

namespace Treewalk

open Scoping Plan

theorem bind_eq_ok {ε α β : Type} {x : Except ε α} {f : α → Except ε β} {b : β} :
    x >>= f = .ok b ↔ ∃ a, x = .ok a ∧ f a = .ok b := by
  cases x with
  | ok a => simp [Bind.bind, Except.bind]
  | error e => simp [Bind.bind, Except.bind]

namespace Heap

theorem admits_of_checkRange {m : Modifiers} {name : String} {value : Value}
    (checked : checkRange m name value = .ok ()) : m.Admits value := by
  rintro n rfl
  unfold checkRange at checked
  simp only at checked
  split at checked
  · cases checked
  · rename_i signed
    split at checked
    · cases checked
    · rename_i ranged
      simp only [Bool.and_eq_true, decide_eq_true_eq, not_and] at signed
      simp only [Bool.and_eq_true, Bool.not_eq_true', Bool.and_eq_false_imp, decide_eq_true_eq,
        decide_eq_false_iff_not, not_and, Classical.not_imp, Classical.not_not] at ranged
      exact ⟨signed, fun byte => by simpa using ranged byte⟩

theorem conforms_of_checkType {h : Heap} {declared : Option TypeDesc} {name : String} {value : Value}
    (checked : h.checkType declared name value = .ok ()) : ∀ t ∈ declared, h.conforms value t = true := by
  rintro t rfl
  unfold checkType at checked
  dsimp only at checked
  split at checked
  · assumption
  · cases checked

theorem admits_of_checks {h : Heap} {modifiers : Modifiers} {declared : Option TypeDesc} {name : String}
    {value : Value} (typed : h.checkType declared name value = .ok ())
    (ranged : checkRange modifiers name value = .ok ()) :
    h.Admits { content := .plain value, modifiers := modifiers, declared := declared } := by
  intro held same
  cases same
  exact ⟨fun t member => .inr (conforms_of_checkType typed t member), admits_of_checkRange ranged⟩

theorem admits_nil (h : Heap) (modifiers : Modifiers) (declared : Option TypeDesc) :
    h.Admits { content := .plain .nil, modifiers := modifiers, declared := declared } := by
  intro value same
  cases same
  exact ⟨fun _ _ => .inl rfl, fun n same => by cases same⟩

theorem admits_untyped (h : Heap) {cell : Cell} (untyped : cell.declared = none)
    (range : ∀ value, cell.content = .plain value → cell.modifiers.Admits value) : h.Admits cell :=
  fun value held => ⟨by simp [untyped], range value held⟩

theorem admits_free (h : Heap) {cell : Cell} (untyped : cell.declared = none)
    (signed : cell.modifiers.unsigned = false) (wide : cell.modifiers.byte = false) : h.Admits cell :=
  admits_untyped h untyped fun _ _ _ _ => ⟨by simp [signed], by simp [wide]⟩

theorem writeCell_stored {h : Heap} {cell written : Cell} {name : String} {value : Value}
    (done : h.writeCell cell name value = .ok (.stored written)) :
    cell.modifiers.const = false ∧ written = { cell with content := .plain value } ∧
      h.Admits written := by
  unfold writeCell at done
  split at done
  · cases done
  · rename_i variable'
    split at done
    · cases done
    · obtain ⟨_, typed, done⟩ := bind_eq_ok.mp done
      obtain ⟨_, checked, done⟩ := bind_eq_ok.mp done
      cases done
      exact ⟨by simpa using variable', rfl, admits_of_checks typed checked⟩

theorem writeCell_computed {h : Heap} {cell : Cell} {name : String} {value : Value} {p : Ref .property}
    (done : h.writeCell cell name value = .ok (.computed p)) :
    cell.content = .computed p ∧ cell.modifiers.const = false := by
  unfold writeCell at done
  split at done
  · cases done
  · rename_i open'
    split at done
    · rename_i found
      cases done
      exact ⟨found, Bool.eq_false_iff.mpr open'⟩
    · obtain ⟨_, -, done⟩ := bind_eq_ok.mp done
      obtain ⟨_, -, done⟩ := bind_eq_ok.mp done
      cases done

theorem slotFor_conforms {h : Heap} {r : Ref .array} {index : Float} {value : Value} {slot : Nat}
    (free : h.slotFor r index value = .ok slot) : h.conforms value (h.array r).elementType = true := by
  obtain ⟨_, -, checked⟩ := bind_eq_ok.mp free
  split at checked
  · assumption
  · cases checked

/-- What is found by walking outward, or at a distance, stands in some scope. -/
theorem found_here {h : Heap} {r : Option (Ref .scope)} {name : String} {cell : Cell}
    (found : (match r.bind fun s => h.here? s name with
      | some cell => Except.ok cell
      | none => .error (Fault.undefinedVariable name)) = .ok cell) :
    ∃ s, r = some s ∧ h.here? s name = some cell := by
  cases r with
  | none => cases found
  | some r =>
    simp only [Option.bind_some] at found
    split at found
    · rename_i held there
      cases found
      exact ⟨r, rfl, there⟩
    · cases found

theorem lookup_here {h : Heap} {r : Ref .scope} {name : String} {cell : Cell}
    (found : h.lookup r name = .ok cell) : ∃ s, h.binder? r name = some s ∧ h.here? s name = some cell :=
  found_here found

theorem lookupAt_here {h : Heap} {r : Ref .scope} {distance : Nat} {name : String} {cell : Cell}
    (found : h.lookupAt r distance name = .ok cell) :
    ∃ s, h.ancestor? distance r = some s ∧ h.here? s name = some cell :=
  found_here found

end Heap

namespace World

variable {view : View} {w : World}

theorem CellKnown.imp {ready ready' : Function → Prop} {cell : Cell} (known : w.CellKnown view ready cell)
    (still : ∀ f, ready f → ready' f) : w.CellKnown view ready' cell :=
  known.mono (.refl .any w) still

/-- A cell can be used: what it holds is known, or its accessors can be called. -/
abbrev Usable (view : View) (w : World) (cell : Cell) : Prop :=
  w.CellKnown view (w.Callable view) cell

theorem Sound.usable (sound : w.Sound view) {r : Ref .scope} {name : String} {cell : Cell}
    (found : w.heap.here? r name = some cell) : w.Usable view cell :=
  (sound.cells r name cell found).1.imp fun _ => .inl

/-- Where types are followed, a type is meant in every scope as one that a program can come by. -/
theorem Sound.resolveType_denotable (sound : w.Sound view) (typed : view.typed) {t : TypeDesc}
    (denotable : t.Denotable) (r : Ref .scope) : (w.heap.resolveType t r).Denotable := by
  unfold Heap.resolveType
  split
  · exact denotable
  · split
    · rename_i bound _ _ found
      obtain ⟨s, -, here⟩ := Heap.lookup_here found
      have known : w.Known view (.type bound) := (sound.cells s _ _ here).1
      exact (known typed).arrayOfAt _
    · exact denotable

end World

namespace Evaluator

variable {view : View} {k : Permit} {w : World} {m : Machine}

theorem readCell_safe {cell : Cell} (stage : Stage view k w m) (usable : w.Usable view cell)
    (line : Line) : Safe view k m.scope (World.Known view) w (readCell cell line m) := by
  unfold World.Usable World.CellKnown at usable
  unfold readCell
  cases content : cell.content with
  | plain value =>
    rw [content] at usable
    exact .pure stage usable
  | computed p =>
    rw [content] at usable
    obtain ⟨inside, -, getter, -⟩ := usable
    have cache := stage.sound.caches p inside
    rw [stage.heap] at cache
    refine .reading (.reading (.bind stage (.call stage.calm ?_ (by simpa using cache) (by simp) line) ?_))
    · rw [← stage.heap]
      exact getter.2
    · intro w₁ m₁ value stage₁ _ _ yielded
      exact .heap (.orRaise stage₁ line fun _ _ => .pure stage₁ yielded.known)

theorem writeProperty_safe {cell : Cell} {p : Ref .property} {value : Value}
    (stage : Stage view k w m) (usable : w.Usable view cell) (computed : cell.content = .computed p)
    (open' : cell.modifiers.const = false) (known : w.Known view value) (line : Line) :
    Safe view k m.scope (fun _ _ => True) w (writeProperty p value line m) := by
  unfold World.Usable World.CellKnown at usable
  rw [computed] at usable
  obtain ⟨inside, modifiers, -, setter⟩ := usable
  rw [stage.heap] at setter
  refine .reading ?_
  cases found : (m.heap.property p).setter with
  | none => exact .raise stage line _
  | some f =>
    refine .heap (.orRaise stage line fun _ _ => .orRaise stage line fun _ _ => .reading (.bind stage
      (.call stage.calm ?_ (by simpa using known) (by simp) line) ?_))
    · have callable := (setter f found).2
      rwa [stage.heap] at callable
    · intro w₁ m₁ result stage₁ leads₁ _ yielded
      have cached : w₁.Known view (if result.isNil then value else result) := by
        split
        · exact known.mono leads₁
        · exact yielded.known
      have still : (w₁.heap.property p).modifiers.const = false := by
        rw [(leads₁.grows.properties p inside).2.modifiers, modifiers, open']
      refine .updated (.set (.setCache _ still _) rfl) (stage₁.sound.setCache still cached) ?_ trivial
      rw [stage₁.heap]
      rfl

theorem variableCell_here {ref : Reference} {cell : Cell} (found : variableCell ref m = .ok cell) :
    ∃ r, m.heap.here? r ref.name.text = some cell := by
  unfold variableCell at found
  split at found
  · obtain ⟨r, -, there⟩ := Heap.lookupAt_here found
    exact ⟨r, there⟩
  · obtain ⟨r, -, there⟩ := Heap.lookup_here found
    exact ⟨r, there⟩

theorem readVariable_safe (stage : Stage view k w m) (ref : Reference) :
    Safe view k m.scope (World.Known view) w (readVariable ref m) := by
  refine .get (.orRaise stage ref.name.line fun cell found => ?_)
  obtain ⟨r, there⟩ := variableCell_here found
  rw [← stage.heap] at there
  exact readCell_safe stage (stage.sound.usable there) _

theorem assignHere_cases {h : Heap} {r : Ref .scope} {name : String} {value : Value}
    {assigned : Heap.Assigned} (done : h.assignHere r name value = .ok assigned) :
    ∃ cell, h.here? r name = some cell ∧
      ((∃ written, assigned = .stored r written ∧ h.writeCell cell name value = .ok (.stored written)) ∨
        ∃ p, assigned = .computed p ∧ h.writeCell cell name value = .ok (.computed p)) := by
  unfold Heap.assignHere at done
  split at done
  · cases done
  · rename_i cell found
    refine ⟨cell, found, ?_⟩
    split at done
    · cases done
    · split at done
      · cases done
      · rename_i written wrote
        cases done
        exact .inl ⟨written, rfl, wrote⟩
      · rename_i p wrote
        cases done
        exact .inr ⟨p, rfl, wrote⟩

theorem variableWrite_cases {ref : Reference} {value : Value} {assigned : Heap.Assigned}
    (done : variableWrite ref value m = .ok assigned) :
    ∃ r, m.heap.assignHere r ref.name.text value = .ok assigned := by
  unfold variableWrite at done
  split at done
  · unfold Heap.assignAt at done
    split at done
    · exact ⟨_, done⟩
    · cases done
  · unfold Heap.assign at done
    split at done
    · exact ⟨_, done⟩
    · cases done

theorem writeVariable_safe {value : Value} (stage : Stage view k w m) {ref : Reference}
    (proper : ref.name.Proper) (known : w.Known view value) :
    Safe view k m.scope (fun _ _ => True) w (writeVariable ref value m) := by
  refine .get (.orRaise stage ref.name.line fun assigned done => ?_)
  obtain ⟨r, written⟩ := variableWrite_cases done
  rw [← stage.heap] at written
  obtain ⟨cell, found, ⟨stored, rfl, wrote⟩ | ⟨p, rfl, wrote⟩⟩ := assignHere_cases written
  · obtain ⟨variable', rfl, admits⟩ := Heap.writeCell_stored wrote
    have grows : w.heap.Grows k.Allows
        (w.heap.define r ref.name.text { cell with content := .plain value }) := by
      refine .define proper.ordinary.1 (.inr ⟨cell, found, rfl⟩) fun old there constant => ?_
      rw [found] at there
      cases there
      rw [variable'] at constant
      cases constant
    have dynamic (global : r = .globals) : cell.modifiers.static = false :=
      stage.sound.dynamic _ cell (global ▸ found)
    refine .updated (.set grows rfl) (stage.sound.define grows known admits proper.ordinary dynamic ?_) ?_ trivial
    · exact .inl (by rw [found]; rfl)
    · rw [stage.heap]
      rfl
  · obtain ⟨computed, open'⟩ := Heap.writeCell_computed wrote
    exact writeProperty_safe stage (stage.sound.usable found) computed open' known _

end Evaluator

end Treewalk
