import Treewalk.Eval.Cell
import Treewalk.Proofs.Tie

/-!
Where code runs on two machines that are tied together. Code that does not run inside the scopes which the
machines have for themselves is the same on both. Code that does is free of functions, and a reference to
the variable in focus leads one scope further out on the second machine than on the first. Either way both
machines find the same, whether they go by depth or by name.
-/

namespace Treewalk

/-- Where code runs: outside of the scopes in question or inside. In the latter case it may be so many scopes
inside the copy of a variable. -/
inductive Seat where
  | free
  | inside (mark : Option (String × Nat))

namespace Seat

def inner : Seat → Seat
  | .inside (some (name, depth)) => .inside (some (name, depth + 1))
  | seat => seat

def Open : Seat → Prop
  | .inside (some (_, 0)) => False
  | _ => True

theorem inner_open (seat : Seat) : seat.inner.Open := by
  match seat with
  | .free | .inside none | .inside (some _) => trivial

end Seat

/-- A reference in the code of the one machine and in that of the other. -/
inductive Reference.Paired : Seat → Reference → Reference → Prop where
  | same {seat : Seat} {ref : Reference}
      (near : ∀ name depth, seat = .inside (some (name, depth)) → ref.name.text = name →
        ∃ d < depth, ref.depth = some d) : Paired seat ref ref
  | moved {name : Name} {depth id : Nat} :
      Paired (.inside (some (name.text, depth))) ⟨name, some depth, id⟩ ⟨name, some (depth + 1), id⟩

namespace Heap

def boundAt? (h : Heap) (r : Ref .scope) (distance : Nat) (name : String) : Option Cell :=
  (h.ancestor? distance r).bind fun s => h.here? s name

theorem boundAt?_succ {h : Heap} {r p : Ref .scope} (around : (h.scope r).enclosing = some p)
    (distance : Nat) (name : String) : h.boundAt? r (distance + 1) name = h.boundAt? p distance name := by
  simp [boundAt?, ancestor?, around]

/-- What is found at a distance depends on nothing but what is bound there. -/
theorem lookupAt_congr {h h' : Heap} {r r' : Ref .scope} {distance distance' : Nat} {name : String}
    (same : h'.boundAt? r' distance' name = h.boundAt? r distance name) :
    h'.lookupAt r' distance' name = h.lookupAt r distance name := by
  unfold boundAt? at same
  rw [lookupAt, lookupAt, same]

def firstBound? (h : Heap) (name : String) (scopes : List (Ref .scope)) : Option Cell :=
  scopes.findSome? fun s => h.here? s name

theorem lookup_eq (h : Heap) (r : Ref .scope) (name : String) :
    h.lookup r name =
      match h.firstBound? name (h.outward r) with
      | some cell => .ok cell
      | none => .error (.undefinedVariable name) := by
  unfold lookup binder? firstBound?
  have found (scopes : List (Ref .scope)) :
      (scopes.find? fun s => (h.scope s).names.contains name).bind (fun s => h.here? s name) =
        scopes.findSome? fun s => h.here? s name := by
    induction scopes with
    | nil => rfl
    | cons s rest ih =>
      rw [List.find?_cons, List.findSome?_cons]
      cases here : h.here? s name with
      | none =>
        have absent : (h.scope s).names.contains name = false := by
          rw [NameMap.contains, ← Heap.here?, here]
          rfl
        simpa [absent] using ih
      | some cell =>
        have present : (h.scope s).names.contains name = true := by
          rw [NameMap.contains, ← Heap.here?, here]
          rfl
        simp [present, here]
  cases first : (h.outward r).findSome? fun s => h.here? s name <;> simp only [found, first]

end Heap

namespace Tie

variable {T : Tie} {h h' : Heap} {r p : Ref .scope} {seat : Seat} {name : String}

inductive Seated (T : Tie) (h : Heap) : Seat → Ref .scope → Prop where
  | free {r : Ref .scope} (clear : T.Clear h r) : Seated T h .free r
  | home {r p : Ref .scope} (still : T.focus = none) (inside : r.index < h.scopes.size)
      (alive : ¬T.dead r) (around : (h.scope r).enclosing = some p) (clear : T.Clear h p) :
      Seated T h (.inside none) r
  | nested {r p : Ref .scope} (still : T.focus = none) (inside : r.index < h.scopes.size)
      (away : ¬T.own r) (around : (h.scope r).enclosing = some p) (outer : Seated T h (.inside none) p) :
      Seated T h (.inside none) r
  | copy {f : Focus} {p : Ref .scope} (focus : T.focus = some f) (inside : f.copy.index < h.scopes.size)
      (around : (h.scope f.copy).enclosing = some f.home)
      (further : (h.scope f.home).enclosing = some p) (clear : T.Clear h p) :
      Seated T h (.inside (some (f.name, 0))) f.copy
  | deeper {r p : Ref .scope} {name : String} {depth : Nat} (inside : r.index < h.scopes.size)
      (away : ¬T.own r) (around : (h.scope r).enclosing = some p)
      (outer : Seated T h (.inside (some (name, depth))) p) :
      Seated T h (.inside (some (name, depth + 1))) r

namespace Seated

theorem mono (seated : T.Seated h seat r) (later : h.Extends h') : T.Seated h' seat r := by
  have inside' {s : Ref .scope} (inside : s.index < h.scopes.size) : s.index < h'.scopes.size :=
    Nat.lt_of_lt_of_le inside later.scopes
  have around' {s p : Ref .scope} (around : (h.scope s).enclosing = some p) :
      (h'.scope s).enclosing = some p := by
    rw [later.enclosing s (Heap.lt_of_enclosing (by rw [around]; rfl)), around]
  induction seated with
  | free clear => exact .free (clear.mono later)
  | home still inside alive around clear =>
    exact .home still (inside' inside) alive (around' around) (clear.mono later)
  | nested still inside away around _ ih => exact .nested still (inside' inside) away (around' around) ih
  | copy focus inside around further clear =>
    exact .copy focus (inside' inside) (around' around) (around' further) (clear.mono later)
  | deeper inside away around _ ih => exact .deeper (inside' inside) away (around' around) ih

theorem inside (seated : T.Seated h seat r) : r.index < h.scopes.size := by
  cases seated with
  | free clear => exact clear.inside
  | home _ inside | nested _ inside | copy _ inside | deeper inside => exact inside

theorem child {s : Scope} (seated : T.Seated h seat r) (guarded : T.Guarded h)
    (around : s.enclosing = some r) : T.Seated (h.addScope s).2 seat.inner ⟨h.scopes.size⟩ := by
  have later := Heap.Extends.addScope h s
  have new : (⟨h.scopes.size⟩ : Ref .scope).index < (h.addScope s).2.scopes.size := by
    simp [Heap.addScope]
  have away : ¬T.own ⟨h.scopes.size⟩ := fun mine => Nat.lt_irrefl _ (guarded.own _ mine)
  have enclosing : ((h.addScope s).2.scope ⟨h.scopes.size⟩).enclosing = some r := by
    rw [Heap.scope_addScope, if_pos rfl, around]
  have outer := seated.mono later
  cases seated with
  | free clear =>
    refine .free (.child guarded fun p member => ?_)
    rw [around] at member
    cases member
    exact clear
  | home still => exact .nested still new away enclosing outer
  | nested still => exact .nested still new away enclosing outer
  | copy focus => exact .deeper new away enclosing outer
  | deeper => exact .deeper new away enclosing outer

end Seated

/-- Outside of the scopes in question both machines find the same at any distance. -/
theorem Clear.boundAt? (clear : T.Clear h r) (alike : T.Alike h h') (distance : Nat) (name : String) :
    h'.boundAt? r distance name = h.boundAt? r distance name := by
  induction distance generalizing r with
  | zero => exact alike.of_own clear.away name
  | succ distance ih =>
    unfold Heap.boundAt?
    simp only [Heap.ancestor?, alike.enclosing]
    cases around : (h.scope r).enclosing with
    | none => rfl
    | some p => exact ih (clear.outer around)

theorem Clear.firstBound? (clear : T.Clear h r) (alike : T.Alike h h') (fuel : Nat) (name : String) :
    h'.firstBound? name (h.outwardFrom fuel r) = h.firstBound? name (h.outwardFrom fuel r) := by
  induction fuel generalizing r with
  | zero => rfl
  | succ fuel ih =>
    unfold Heap.firstBound?
    simp only [Heap.outwardFrom, List.findSome?_cons, alike.of_own clear.away]
    split
    · rfl
    · cases around : (h.scope r).enclosing with
      | none => rfl
      | some p => exact ih (clear.outer around)

theorem Alike.here_of_ne (alike : T.Alike h h') (alive : ¬T.dead r) (other : ∀ f ∈ T.focus, name ≠ f.name) :
    h'.here? r name = h.here? r name :=
  alike.here r name alive fun f focus same => absurd same (other f focus)

theorem Alike.boundAt?_step (alike : T.Alike h h') (around : (h.scope r).enclosing = some p) {distance : Nat}
    (here : h'.here? r name = h.here? r name)
    (outer : ∀ d, distance = d + 1 → h'.boundAt? p d name = h.boundAt? p d name) :
    h'.boundAt? r distance name = h.boundAt? r distance name := by
  cases distance with
  | zero => exact here
  | succ d =>
    have around' : (h'.scope r).enclosing = some p := by rw [alike.enclosing, around]
    rw [Heap.boundAt?_succ around, Heap.boundAt?_succ around', outer d rfl]

theorem firstBound?_step (around : (h.scope r).enclosing = some p) {fuel : Nat}
    (here : h'.here? r name = h.here? r name)
    (outer : h'.firstBound? name (h.outwardFrom fuel p) = h.firstBound? name (h.outwardFrom fuel p)) :
    h'.firstBound? name (h.outwardFrom (fuel + 1) r) = h.firstBound? name (h.outwardFrom (fuel + 1) r) := by
  unfold Heap.firstBound? at outer ⊢
  simp only [Heap.outwardFrom, around, List.findSome?_cons, here, outer]

namespace Seated

theorem boundAt?_same (seated : T.Seated h seat r) (alike : T.Alike h h') {distance : Nat}
    (near : ∀ depth, seat = .inside (some (name, depth)) → distance < depth) :
    h'.boundAt? r distance name = h.boundAt? r distance name := by
  induction seated generalizing distance with
  | free clear => exact clear.boundAt? alike distance name
  | home still _ alive around clear =>
    exact alike.boundAt?_step around (alike.here_of_ne alive (by simp [still])) fun d _ =>
      clear.boundAt? alike d name
  | nested still _ away around _ ih =>
    exact alike.boundAt?_step around (alike.of_own away name) fun d _ => ih fun _ same => by cases same
  | @copy f p focus _ around further clear =>
    have other (g : Focus) (found : g ∈ T.focus) : name ≠ g.name := by
      obtain rfl : f = g := Option.some.inj (focus.symm.trans found)
      rintro rfl
      exact Nat.not_lt_zero _ (near 0 rfl)
    obtain ⟨home, copy⟩ := T.focus_alive f focus
    refine alike.boundAt?_step around (alike.here_of_ne copy other) fun d _ => ?_
    exact alike.boundAt?_step further (alike.here_of_ne home other) fun d _ => clear.boundAt? alike d name
  | deeper _ away around _ ih =>
    refine alike.boundAt?_step around (alike.of_own away name) fun d last => ih fun depth same => ?_
    cases same
    have := near _ rfl
    omega

/-- What the first machine finds in the copy, the second one finds one scope further out. -/
theorem boundAt?_moved {depth : Nat} (seated : T.Seated h (.inside (some (name, depth))) r)
    (alike : T.Alike h h') : h'.boundAt? r (depth + 1) name = h.boundAt? r depth name := by
  generalize found : Seat.inside (some (name, depth)) = seat at seated
  induction seated generalizing depth with
  | @copy f _ focus _ around =>
    cases found
    have around' : (h'.scope f.copy).enclosing = some f.home := by rw [alike.enclosing, around]
    rw [Heap.boundAt?_succ around']
    exact (alike.moved f focus).1
  | @deeper r p _ _ _ _ around _ ih =>
    cases found
    have around' : (h'.scope r).enclosing = some p := by rw [alike.enclosing, around]
    rw [Heap.boundAt?_succ around, Heap.boundAt?_succ around']
    exact ih rfl
  | _ => cases found

theorem firstBound? (seated : T.Seated h seat r) (alike : T.Alike h h') (guarded : T.Guarded h) {fuel : Nat}
    (enough : r.index < fuel) :
    h'.firstBound? name (h.outwardFrom fuel r) = h.firstBound? name (h.outwardFrom fuel r) := by
  induction seated generalizing fuel with
  | free clear => exact clear.firstBound? alike fuel name
  | home still _ alive around clear =>
    obtain ⟨fuel, rfl⟩ := Nat.exists_eq_succ_of_ne_zero (Nat.ne_of_gt (Nat.zero_lt_of_lt enough))
    exact firstBound?_step around (alike.here_of_ne alive (by simp [still]))
      (clear.firstBound? alike fuel name)
  | nested still _ away around _ ih =>
    obtain ⟨fuel, rfl⟩ := Nat.exists_eq_succ_of_ne_zero (Nat.ne_of_gt (Nat.zero_lt_of_lt enough))
    have older := guarded.older _ _ around
    exact firstBound?_step around (alike.of_own away name) (ih (by omega))
  | @copy f p focus _ around further clear =>
    have older := guarded.older _ _ around
    obtain ⟨fuel, rfl⟩ : ∃ k, fuel = k + 2 := ⟨fuel - 2, by omega⟩
    obtain ⟨home, copy⟩ := T.focus_alive f focus
    by_cases same : name = f.name
    · -- The first machine finds the variable in the copy, and the second one at home.
      subst same
      obtain ⟨held, some, none⟩ := alike.moved f focus
      obtain ⟨cell, found⟩ := Option.isSome_iff_exists.mp some
      rw [found] at held
      simp [Heap.firstBound?, Heap.outwardFrom, around, found, none, held]
    · have other (g : Focus) (found : g ∈ T.focus) : name ≠ g.name := by
        obtain rfl : f = g := Option.some.inj (focus.symm.trans found)
        exact same
      refine firstBound?_step around (alike.here_of_ne copy other) ?_
      exact firstBound?_step further (alike.here_of_ne home other) (clear.firstBound? alike fuel name)
  | deeper _ away around _ ih =>
    obtain ⟨fuel, rfl⟩ := Nat.exists_eq_succ_of_ne_zero (Nat.ne_of_gt (Nat.zero_lt_of_lt enough))
    have older := guarded.older _ _ around
    exact firstBound?_step around (alike.of_own away name) (ih (by omega))

theorem lookup (seated : T.Seated h seat r) (alike : T.Alike h h') (guarded : T.Guarded h) (name : String) :
    h'.lookup r name = h.lookup r name := by
  rw [Heap.lookup_eq, Heap.lookup_eq, Heap.outward, Heap.outward, alike.outwardFrom,
    seated.firstBound? alike guarded (Nat.lt_succ_self _)]

theorem resolveType (seated : T.Seated h seat r) (alike : T.Alike h h') (guarded : T.Guarded h)
    (t : TypeDesc) : h'.resolveType t r = h.resolveType t r := by
  unfold Heap.resolveType
  rw [seated.lookup alike guarded]

end Seated

inductive Writes (T : Tie) (name : String) :
    Except Fault Heap.Assigned → Except Fault Heap.Assigned → Prop where
  | failed (fault : Fault) : Writes T name (.error fault) (.error fault)
  | computed (property : Ref .property) : Writes T name (.ok (.computed property)) (.ok (.computed property))
  | stored {target target' : Ref .scope} (stores : T.Stores name target target') (cell : Cell) :
      Writes T name (.ok (.stored target cell)) (.ok (.stored target' cell))

theorem Writes.assignHere {S : Array Scope} {target target' : Ref .scope} (stores : T.Stores name target target')
    (here : (h.rescoped S).here? target' name = h.here? target name)
    (global : (h.rescoped S).isGlobal target' = h.isGlobal target) (value : Value) :
    T.Writes name (h.assignHere target name value) ((h.rescoped S).assignHere target' name value) := by
  unfold Heap.assignHere
  rw [here]
  cases h.here? target name with
  | none => exact .failed _
  | some cell =>
    simp only [global, Heap.rescoped_writeCell]
    split
    · exact .failed _
    · cases h.writeCell cell name value with
      | error fault => exact .failed fault
      | ok written =>
        cases written with
        | stored cell => exact .stored stores cell
        | computed property => exact .computed property

/-- Outside of the scopes in question the machines store a name in the same scope. -/
theorem stores_of_away (away : ¬T.own r) (name : String) : T.Stores name r r := by
  refine .inl ⟨rfl, fun f focus _ => ?_⟩
  obtain ⟨home, copy⟩ := T.focus_own f focus
  exact ⟨fun same => away (same ▸ home), fun same => away (same ▸ copy)⟩

theorem Clear.ancestor {s : Ref .scope} {distance : Nat} (clear : T.Clear h r)
    (found : h.ancestor? distance r = some s) : T.Clear h s := by
  induction distance generalizing r with
  | zero =>
    cases found
    exact clear
  | succ distance ih =>
    obtain ⟨p, around, found⟩ := Option.bind_eq_some_iff.mp found
    exact ih (clear.outer around) found

namespace Seated

/-- A name that is not found in the copy is stored in the same scope. -/
theorem stores_same {s : Ref .scope} {distance : Nat} (seated : T.Seated h seat r)
    (near : ∀ depth, seat = .inside (some (name, depth)) → distance < depth)
    (found : h.ancestor? distance r = some s) : T.Stores name s s := by
  induction seated generalizing distance with
  | free clear => exact stores_of_away (clear.ancestor found).away name
  | home still => exact .inl ⟨rfl, by simp [still]⟩
  | nested still => exact .inl ⟨rfl, by simp [still]⟩
  | @copy f _ focus =>
    refine .inl ⟨rfl, fun g member same => ?_⟩
    obtain rfl : f = g := Option.some.inj (focus.symm.trans member)
    subst same
    exact absurd (near 0 rfl) (Nat.not_lt_zero _)
  | deeper _ away around _ ih =>
    cases distance with
    | zero =>
      cases found
      exact stores_of_away away name
    | succ distance =>
      simp only [Heap.ancestor?, around, Option.bind_some] at found
      refine ih (fun depth same => ?_) found
      cases same
      exact Nat.lt_of_succ_lt_succ (near _ rfl)

theorem stores_open (seated : T.Seated h seat r) (declares : seat.Open) (name : String) : T.Stores name r r := by
  cases seated with
  | free clear => exact stores_of_away clear.away name
  | home still => exact .inl ⟨rfl, by simp [still]⟩
  | nested still => exact .inl ⟨rfl, by simp [still]⟩
  | copy => exact declares.elim
  | deeper _ away => exact stores_of_away away name

/-- Where names can be declared both machines have the same bindings. -/
theorem here_open (seated : T.Seated h seat r) (declares : seat.Open) (alike : T.Alike h h') (name : String) :
    h'.here? r name = h.here? r name := by
  cases seated with
  | free clear => exact alike.of_own clear.away name
  | home still _ alive => exact alike.here_of_ne alive (by simp [still])
  | nested _ _ away => exact alike.of_own away name
  | copy => exact declares.elim
  | deeper _ away => exact alike.of_own away name

/-- The variable in focus is stored in the copy and at home, neither of which is the global scope. -/
theorem copy_found {depth : Nat} (seated : T.Seated h (.inside (some (name, depth))) r) :
    ∃ f ∈ T.focus, f.name = name ∧ h.ancestor? depth r = some f.copy ∧
      h.ancestor? (depth + 1) r = some f.home ∧ h.isGlobal f.copy = false ∧ h.isGlobal f.home = false := by
  generalize found : Seat.inside (some (name, depth)) = seat at seated
  induction seated generalizing depth with
  | @copy f _ focus _ around further =>
    cases found
    refine ⟨f, focus, rfl, rfl, ?_, ?_, ?_⟩
    · simp [Heap.ancestor?, around]
    · simp [Heap.isGlobal, around]
    · simp [Heap.isGlobal, further]
  | deeper _ _ around _ ih =>
    cases found
    obtain ⟨f, focus, named, copy, home, inner⟩ := ih rfl
    refine ⟨f, focus, named, ?_, ?_, inner⟩
    · simpa [Heap.ancestor?, around] using copy
    · rw [Heap.ancestor?, around]
      exact home
  | _ => cases found

end Seated

theorem Alike.isGlobal (alike : T.Alike h h') (r : Ref .scope) : h'.isGlobal r = h.isGlobal r := by
  rw [Heap.isGlobal, Heap.isGlobal, alike.enclosing]

namespace Holds

variable {m : Machine} {S : Array Scope} {e : String} {ref ref' : Reference}

open Evaluator

theorem lookupAt_same (held : T.Holds m S e) (seated : T.Seated m.heap seat m.scope) (distance : Nat)
    (near : ∀ depth, seat = .inside (some (name, depth)) → distance < depth) :
    (m.beside S e).heap.lookupAt m.scope distance name = m.heap.lookupAt m.scope distance name :=
  Heap.lookupAt_congr (seated.boundAt?_same held.alike near)

theorem variableCell (held : T.Holds m S e) (seated : T.Seated m.heap seat m.scope)
    (paired : ref.Paired seat ref') : variableCell ref' (m.beside S e) = variableCell ref m := by
  cases paired with
  | same near =>
    unfold Evaluator.variableCell
    cases found : ref.depth with
    | none => exact (Seated.free held.guarded.globals).lookup held.alike held.guarded _
    | some d =>
      refine held.lookupAt_same seated d fun depth same => ?_
      obtain ⟨_, less, located⟩ := near _ depth same rfl
      rw [found] at located
      cases located
      exact less
  | moved => exact Heap.lookupAt_congr (seated.boundAt?_moved held.alike)

theorem assignGlobal (held : T.Holds m S e) (value : Value) :
    T.Writes name (m.heap.assign .globals name value)
      ((m.beside S e).heap.assign .globals name value) := by
  have away := held.guarded.globals.away
  have alone (g : Heap) (outermost : (g.scope .globals).enclosing = none) :
      g.outward .globals = [.globals] := by
    simp [Heap.outward, Ref.globals, Heap.outwardFrom, show (g.scope ⟨0⟩).enclosing = none from outermost]
  have binder (g : Heap) (outermost : (g.scope .globals).enclosing = none) :
      g.binder? .globals name = if (g.scope .globals).names.contains name then some .globals else none := by
    simp [Heap.binder?, alone g outermost, List.find?_cons]
    split <;> simp_all
  have outermost' : ((m.heap.rescoped S).scope .globals).enclosing = none := by
    rw [held.alike.enclosing, held.guarded.outermost]
  change T.Writes name (m.heap.assign .globals name value) ((m.heap.rescoped S).assign .globals name value)
  unfold Heap.assign
  rw [binder _ held.guarded.outermost, binder _ outermost', held.alike.same _ away]
  cases (m.heap.scope .globals).names.contains name with
  | true =>
    exact .assignHere (stores_of_away away name) (held.alike.of_own away name) (held.alike.isGlobal _) value
  | false => exact .failed _

theorem variableWrite (held : T.Holds m S e) (seated : T.Seated m.heap seat m.scope)
    (paired : ref.Paired seat ref') (value : Value) :
    T.Writes ref.name.text (variableWrite ref value m) (variableWrite ref' value (m.beside S e)) := by
  cases paired with
  | same near =>
    unfold Evaluator.variableWrite
    cases located : ref.depth with
    | none => exact held.assignGlobal value
    | some d =>
      have near' (depth : Nat) (same : seat = .inside (some (ref.name.text, depth))) : d < depth := by
        obtain ⟨_, less, found⟩ := near _ depth same rfl
        rw [located] at found
        cases found
        exact less
      have bound := seated.boundAt?_same held.alike near'
      change T.Writes _ (m.heap.assignAt m.scope d _ value) ((m.heap.rescoped S).assignAt m.scope d _ value)
      simp only [Heap.assignAt, Heap.boundAt?] at bound ⊢
      rw [held.alike.ancestor?] at bound ⊢
      cases found : m.heap.ancestor? d m.scope with
      | none => exact .failed _
      | some s =>
        rw [found] at bound
        exact .assignHere (seated.stores_same near' found) bound (held.alike.isGlobal s) value
  | @moved name depth _ =>
    obtain ⟨f, focus, named, copy, home, notCopy, notHome⟩ := seated.copy_found
    have home' : (m.heap.rescoped S).ancestor? (depth + 1) m.scope = some f.home := by
      rw [held.alike.ancestor?, home]
    unfold Evaluator.variableWrite
    change T.Writes _ (m.heap.assignAt m.scope depth _ value) ((m.heap.rescoped S).assignAt m.scope (depth + 1) _ value)
    simp only [Heap.assignAt, copy, home']
    refine .assignHere (.inr ⟨f, focus, named.symm, rfl, rfl⟩) ?_ ?_ value
    · rw [← named]
      exact (held.alike.moved f focus).1
    · rw [held.alike.isGlobal, notHome, notCopy]

end Holds

end Tie

end Treewalk
