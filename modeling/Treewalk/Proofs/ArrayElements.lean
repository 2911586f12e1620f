import Treewalk.Proofs.Trail

/-!
Elements of arrays. An array has its length and its element type for good, and at every moment of a run it holds
nil and values that conform to the element type: they have been checked when they were put there, and a value that
conforms once conforms for good. A position denotes a slot if it is a number that rounds to an index of the array.
Then the element can be read, and any other value than the array itself can be written over it that conforms; all
other reads and writes leave the machine as it is. To store an array in itself is no fault but brings the machine
down.
-/

namespace Treewalk

open Plan

/-- A position denotes the slot with a number: it rounds to this number, which may be a negative zero. -/
def ArrayObject.HasSlot (o : ArrayObject) (position : Value) (k : Nat) : Prop :=
  ∃ index negative, position = .num index ∧ Number.rounded index = .whole negative k ∧
    (negative = true → k = 0) ∧ k < o.elements.size

theorem Number.Rounded.natural?_eq_some {r : Number.Rounded} {k : Nat} :
    r.natural? = some k ↔ ∃ negative, r = .whole negative k ∧ (negative = true → k = 0) := by
  cases r with
  | nan | infinite negative => simp [natural?]
  | whole negative magnitude =>
    simp only [natural?, whole.injEq]
    constructor
    · intro found
      split at found
      · cases found
      · rename_i kept
        cases found
        exact ⟨negative, ⟨rfl, rfl⟩, fun below => by simpa [below] using kept⟩
    · rintro ⟨_, ⟨rfl, rfl⟩, zero⟩
      rw [if_neg fun below => below.2 (zero below.1)]

namespace ArrayObject

variable {o : ArrayObject} {index : Float} {k : Nat}

theorem hasSlot_num :
    o.HasSlot (.num index) k ↔ (Number.rounded index).natural? = some k ∧ k < o.elements.size := by
  rw [Number.Rounded.natural?_eq_some]
  constructor
  · rintro ⟨_, negative, same, whole, zero, inside⟩
    cases same
    exact ⟨⟨negative, whole, zero⟩, inside⟩
  · rintro ⟨⟨negative, whole, zero⟩, inside⟩
    exact ⟨index, negative, rfl, whole, zero, inside⟩

theorem slot_eq_ok : o.slot index = .ok k ↔ o.HasSlot (.num index) k := by
  rw [hasSlot_num, slot]
  split
  · rename_i found
    rw [found, Option.some.injEq]
    split
    · rename_i inside
      exact ⟨fun same => ⟨Except.ok.inj same, Except.ok.inj same ▸ inside⟩, fun same => congrArg _ same.1⟩
    · rename_i outside
      exact ⟨fun same => (by cases same), fun same => absurd (same.1 ▸ same.2) outside⟩
  · rename_i none
    exact ⟨fun same => (by cases same), fun same => absurd same.1 (by simp [none])⟩

theorem slot_error (none : ∀ k, ¬o.HasSlot (.num index) k) : ∃ fault, o.slot index = .error fault := by
  cases found : o.slot index with
  | ok k => exact absurd (slot_eq_ok.mp found) (none k)
  | error fault => exact ⟨fault, rfl⟩

end ArrayObject

namespace Heap

variable {h : Heap} {a : Ref .array} {index : Float} {value : Value}

theorem slotFor_eq_ok {k : Nat} (has : (h.array a).HasSlot (.num index) k)
    (conforms : h.conforms value (h.array a).elementType = true) : h.slotFor a index value = .ok k := by
  rw [slotFor, ArrayObject.slot_eq_ok.mpr has]
  exact if_pos conforms

theorem slotFor_error (why : (∀ k, ¬(h.array a).HasSlot (.num index) k) ∨
    h.conforms value (h.array a).elementType = false) : ∃ fault, h.slotFor a index value = .error fault := by
  cases free : h.slotFor a index value with
  | error fault => exact ⟨fault, rfl⟩
  | ok k =>
    obtain ⟨i, slot, -⟩ := bind_eq_ok.mp free
    rcases why with none | unfit
    · exact absurd (ArrayObject.slot_eq_ok.mp slot) (none i)
    · rw [slotFor_conforms free] at unfit
      cases unfit

end Heap

structure Machine.ReadsElements (n : Machine) (a : Ref .array) : Prop where
  found : ∀ position line k, (n.heap.array a).HasSlot position k →
    ∃ value, (n.heap.array a).elements[k]? = some value ∧
      Evaluator.getIndex (.array a) position line n = .done (.ok value n)
  missed : ∀ position line, (∀ k, ¬(n.heap.array a).HasSlot position k) →
    ∃ fault, Evaluator.getIndex (.array a) position line n = .done (.error (.fault ⟨fault, line⟩) n)

/-- One element of an array is replaced, and nothing else. -/
structure Machine.Replaces (n after : Machine) (a : Ref .array) (k : Nat) (value : Value) : Prop where
  only : after = { n with heap := n.heap.setElement a k value }
  stays : (n.heap.array a).Stays (after.heap.array a)
  element : (after.heap.array a).elements[k]? = some value
  others : ∀ j, j ≠ k → (after.heap.array a).elements[j]? = (n.heap.array a).elements[j]?
  arrays : ∀ b, b ≠ a → after.heap.array b = n.heap.array b

structure Machine.WritesElements (n : Machine) (a : Ref .array) : Prop where
  stored : ∀ position value line k, (n.heap.array a).HasSlot position k →
    n.heap.conforms value (n.heap.array a).elementType = true → value ≠ .array a →
    ∃ after, Evaluator.setIndex (.array a) position value line n = .done (.ok () after) ∧ n.Replaces after a k value
  refused : ∀ position value line, (∀ k, ¬(n.heap.array a).HasSlot position k) ∨
      n.heap.conforms value (n.heap.array a).elementType = false ∧ value ≠ .array a →
    ∃ fault, Evaluator.setIndex (.array a) position value line n = .done (.error (.fault ⟨fault, line⟩) n)
  crashes : ∀ position line k, (n.heap.array a).HasSlot position k →
    Evaluator.setIndex (.array a) position (.array a) line n = .done (.error .crash n)

theorem Machine.replaces_setElement {n : Machine} {a : Ref .array} {k : Nat} (inside : k < (n.heap.array a).elements.size)
    (value : Value) : n.Replaces { n with heap := n.heap.setElement a k value } a k value := by
  have there : a.index < n.heap.arrays.size := by
    refine Nat.lt_of_not_le fun outside => ?_
    have none : n.heap.array a = default := by
      simp [Heap.array, Array.getD_eq_getD_getElem?, Array.getElem?_eq_none outside]
    rw [none] at inside
    exact absurd inside (Nat.not_lt_zero k)
  have array (b : Ref .array) := Heap.array_setElement n.heap a b k value
  have own := array a
  rw [if_pos ⟨rfl, there⟩] at own
  refine ⟨rfl, ?_, ?_, fun j other => ?_, fun b other => ?_⟩
  · exact (Heap.Grows.setElement (fun _ _ => True) n.heap a k value).arrays a there |>.2
  · rw [own]
    simp [inside]
  · rw [own]
    exact Array.getElem?_setIfInBounds_ne (Ne.symm other)
  · change (n.heap.setElement a k value).array b = _
    rw [array b, if_neg fun same => other (Ref.ext_index same.1.symm)]

namespace Evaluator

variable {n : Machine} {a : Ref .array} {value : Value}

theorem isArrayAt_iff : value.isArrayAt a = true ↔ value = .array a := by
  cases value <;> simp [Value.isArrayAt]

theorem reads_elements (n : Machine) (a : Ref .array) : n.ReadsElements a where
  found position line k has := by
    obtain ⟨index, -, rfl, -, -, inside⟩ := id has
    have value := Array.getElem?_eq_getElem inside
    refine ⟨_, value, ?_⟩
    change Run.orRaise line (n.heap.getElement a index) n = _
    rw [Heap.getElement, ArrayObject.slot_eq_ok.mpr has]
    change Run.orRaise line (.ok _) n = _
    rw [Array.getD_eq_getD_getElem?, value]
    rfl
  missed position line none := by
    cases position with
    | num index =>
      obtain ⟨fault, failed⟩ := ArrayObject.slot_error none
      refine ⟨fault, ?_⟩
      change Run.orRaise line (n.heap.getElement a index) n = _
      rw [Heap.getElement, failed]
      rfl
    | _ => exact ⟨_, rfl⟩

theorem setIndex_num (index : Float) (value : Value) (line : Line) :
    setIndex (.array a) (.num index) value line n =
      if value.isArrayAt a then (Run.orRaise line ((n.heap.array a).slot index) >>= fun _ => Run.stop .crash) n
      else (Run.orRaise line (n.heap.slotFor a index value) >>= fun slot =>
        Run.update (·.setElement a slot value)) n := by
  change (if value.isArrayAt a then _ else _ : Run Unit) n = _
  split <;> rfl

theorem writes_elements (n : Machine) (a : Ref .array) : n.WritesElements a where
  stored position value line k has conforms other := by
    obtain ⟨index, -, rfl, -, -, inside⟩ := id has
    refine ⟨_, ?_, Machine.replaces_setElement inside value⟩
    rw [setIndex_num, if_neg fun same => other (isArrayAt_iff.mp same), Heap.slotFor_eq_ok has conforms]
    rfl
  refused position value line why := by
    cases position with
    | num index =>
      rw [setIndex_num]
      split
      · rename_i self
        have none := why.resolve_right fun unfit => unfit.2 (isArrayAt_iff.mp self)
        obtain ⟨fault, failed⟩ := ArrayObject.slot_error none
        exact ⟨fault, by rw [failed]; rfl⟩
      · obtain ⟨fault, failed⟩ := Heap.slotFor_error (why.imp_right And.left)
        exact ⟨fault, by rw [failed]; rfl⟩
    | _ => exact ⟨_, rfl⟩
  crashes position line k has := by
    obtain ⟨index, -, rfl, -, -, -⟩ := id has
    rw [setIndex_num, if_pos (isArrayAt_iff.mpr rfl), ArrayObject.slot_eq_ok.mpr has]
    rfl

theorem setIndex_cases (n : Machine) (a : Ref .array) (position value : Value) (line : Line) :
    (∃ k after, (n.heap.array a).HasSlot position k ∧
      setIndex (.array a) position value line n = .done (.ok () after) ∧ n.Replaces after a k value) ∨
    ∃ stop, setIndex (.array a) position value line n = .done (.error stop n) := by
  have writes := writes_elements n a
  by_cases some : ∃ k, (n.heap.array a).HasSlot position k
  · obtain ⟨k, has⟩ := some
    by_cases self : value = .array a
    · exact .inr ⟨.crash, self ▸ writes.crashes position line k has⟩
    · cases conforms : n.heap.conforms value (n.heap.array a).elementType with
      | true =>
        obtain ⟨after, done, replaces⟩ := writes.stored position value line k has conforms self
        exact .inl ⟨k, after, has, done, replaces⟩
      | false =>
        obtain ⟨fault, failed⟩ := writes.refused position value line (.inr ⟨conforms, self⟩)
        exact .inr ⟨_, failed⟩
  · obtain ⟨fault, failed⟩ := writes.refused position value line (.inl (not_exists.mp some))
    exact .inr ⟨_, failed⟩

theorem setIndexed_array {object position : Expr} {line : Line} {site : AssignSite} {value : Option Expr} {fuel : Nat}
    {start ready : Machine} {a : Ref .array} {index result : Value}
    (given : (indexedValue object line position site value start).outcome (perform fuel) =
      .ok (.array a, index, result) ready) :
    (∃ k after, (ready.heap.array a).HasSlot index k ∧ ready.Replaces after a k result ∧
      (setIndexed object line position site value start).outcome (perform fuel) = .ok result after) ∨
    ∃ stop, (setIndexed object line position site value start).outcome (perform fuel) = .error stop ready := by
  have stores : (setIndexed object line position site value start).outcome (perform fuel) =
      ((setIndex (.array a) index result line >>= fun _ => pure result) ready).outcome (perform fuel) := by
    rw [setIndexed, Run.outcome_bind, given]
  rw [stores, Run.outcome_bind]
  rcases setIndex_cases ready a index result line with ⟨k, after, has, done, replaces⟩ | ⟨stop, failed⟩
  · rw [done]
    exact .inl ⟨k, after, has, replaces, rfl⟩
  · rw [failed]
    exact .inr ⟨stop, rfl⟩

end Evaluator

/-- At any two moments of a run, an array that is there at the first is there at the second, with the same length and
element type, and at each moment its elements are nil or conform to this type. An element can be read if and only
if the position rounds to an index of the array. It can be written if and only if moreover the value conforms to the
element type and is not the array itself, and then it is replaced and nothing else. Every other read or write is a
fault and leaves the machine as it is, but for a write of the array itself, which brings the machine down. An
assignment, with an operator or without, that stops once the new value is known leaves the machine as it was then. -/
theorem arrays_keep_shape {H : List Event} {m : Machine} (reached : Reached H m) :
    (moments H m).Pairwise (fun n n' => ∀ a : Ref .array, a.index < n.heap.arrays.size →
      a.index < n'.heap.arrays.size ∧ (n.heap.array a).Stays (n'.heap.array a)) ∧
    (∀ n ∈ moments H m, ∀ a : Ref .array, a.index < n.heap.arrays.size → ∀ value ∈ (n.heap.array a).elements,
      value = .nil ∨ n.heap.conforms value (n.heap.array a).elementType = true) ∧
    (∀ (n : Machine) (a : Ref .array), n.ReadsElements a ∧ n.WritesElements a) ∧
    ∀ object line position site operand fuel start ready a index result,
      (Evaluator.indexedValue object line position site operand start).outcome (perform fuel) =
        .ok (.array a, index, result) ready →
      (∃ k after, (ready.heap.array a).HasSlot index k ∧ ready.Replaces after a k result ∧
        (Evaluator.setIndexed object line position site operand start).outcome (perform fuel) = .ok result after) ∨
      ∃ stop, (Evaluator.setIndexed object line position site operand start).outcome (perform fuel) =
        .error stop ready := by
  obtain ⟨w, trail, arrived⟩ := reached.typing
  refine ⟨?_, ?_, fun n a => ⟨Evaluator.reads_elements n a, Evaluator.writes_elements n a⟩, ?_⟩
  · refine trail.pairwise_moments arrived.sound arrived.heap fun v v' n n' _ heap heap' leads a inside => ?_
    rw [← heap] at inside ⊢
    rw [← heap']
    exact leads.grows.arrays a inside
  · refine trail.forall_moments arrived.sound arrived.heap fun v n sound heap a inside => ?_
    rw [← heap] at inside ⊢
    exact (sound.arrays a inside).admits trivial
  · exact fun _ _ _ _ _ _ _ _ _ _ _ given => Evaluator.setIndexed_array given

def pairSource : String :=
  "var a = [true, false];"

set_option maxRecDepth 100000 in
/-- Its elements conform, the second one can be read and replaced, and to store the array in itself brings the machine
down. -/
theorem arrays_keep_shape_pair :
    ∃ H m, Reached H m ∧ (m.heap.array ⟨0⟩).elements.size = 2 ∧
      (∀ value ∈ (m.heap.array ⟨0⟩).elements,
        value = .nil ∨ m.heap.conforms value (m.heap.array ⟨0⟩).elementType = true) ∧
      (∃ value, (m.heap.array ⟨0⟩).elements[1]? = some value ∧
        Evaluator.getIndex (.array ⟨0⟩) (.num 0.6) 1 m = .done (.ok value m)) ∧
      (∃ after, Evaluator.setIndex (.array ⟨0⟩) (.num 0.6) (.bool true) 1 m = .done (.ok () after) ∧
        m.Replaces after ⟨0⟩ 1 (.bool true)) ∧
      Evaluator.setIndex (.array ⟨0⟩) (.num 0.6) (.array ⟨0⟩) 1 m = .done (.error .crash m) := by
  have reached := Reached.text 20 pairSource
  have facts : let m := ((Session.start {}).run 20 pairSource).machine
      m.heap.arrays.size = 1 ∧ (m.heap.array ⟨0⟩).elements.size = 2 ∧
        m.heap.conforms (.bool true) (m.heap.array ⟨0⟩).elementType = true := by decide +kernel
  generalize ((Session.start {}).run 20 pairSource).machine = m at reached facts
  obtain ⟨arrays, size, conforms⟩ := facts
  have has : (m.heap.array ⟨0⟩).HasSlot (.num 0.6) 1 :=
    ⟨0.6, false, rfl, by decide +kernel, by simp, by rw [size]; decide⟩
  obtain ⟨-, elements, indexing, -⟩ := arrays_keep_shape reached
  obtain ⟨reads, writes⟩ := indexing m ⟨0⟩
  exact ⟨_, m, reached, size, elements m (last_mem_moments _ m) ⟨0⟩ (by rw [arrays]; decide), reads.found _ 1 1 has,
    writes.stored _ _ 1 1 has conforms (by simp), writes.crashes _ 1 1 has⟩

end Treewalk
