import Mathlib.Data.Finset.Card
import Mathlib.Data.Finset.Range
import Mathlib.Logic.Relation
import Treewalk.Proofs.Trail

/-!
Texts of values. A value has a text of its own, which goes through nested arrays and which messages show; and a program
is asked for texts where it prints and joins values, for which instances run their `toString`. Where no array contains
itself and all instances come by the `toString` of Object, the two are the same text, and to ask for it changes nothing.
-/

namespace Treewalk

namespace Heap

/-- The elements of an array. Other values have no parts. -/
def parts (h : Heap) : Value → List Value
  | .array a => (h.array a).elements.toList
  | _ => []

def IsPart (h : Heap) (whole part : Value) : Prop :=
  part ∈ h.parts whole

/-- A value stands in another one, at whatever depth, or is that one. -/
def Nests (h : Heap) : Value → Value → Prop :=
  Relation.ReflTransGen h.IsPart

/-- No array in a value contains itself, at whatever depth. -/
def Unlooped (h : Heap) (value : Value) : Prop :=
  ∀ a, h.Nests value (.array a) → ¬Relation.TransGen h.IsPart (.array a) (.array a)

/-- A condition holds of a value and of all that stands in it, and arrays are nested in it no deeper than that. -/
def Within (h : Heap) (P : Value → Prop) : Nat → Value → Prop
  | 0, value => P value ∧ h.parts value = []
  | depth + 1, value => P value ∧ ∀ part ∈ h.parts value, h.Within P depth part

instance decidableWithin (h : Heap) (P : Value → Prop) [DecidablePred P] :
    ∀ depth value, Decidable (h.Within P depth value)
  | 0, value => inferInstanceAs (Decidable (P value ∧ h.parts value = []))
  | depth + 1, value =>
    have : DecidablePred (h.Within P depth) := decidableWithin h P depth
    inferInstanceAs (Decidable (P value ∧ ∀ part ∈ h.parts value, h.Within P depth part))

variable {h : Heap} {P : Value → Prop} {depth : Nat} {value whole part : Value}

/-! Values in which no array contains itself are nested no deeper than there are arrays. -/

theorem IsPart.array (member : h.IsPart whole part) : ∃ a, whole = .array a ∧ a.index < h.arrays.size := by
  cases whole with
  | array a =>
    have inside : a.index < h.arrays.size := by
      by_contra outside
      have absent : h.array a = default := by simp [Heap.array, Array.getD_eq_getD_getElem?, outside]
      simp only [IsPart, parts, absent] at member
      cases member
    exact ⟨a, rfl, inside⟩
  | _ => cases member

theorem Unlooped.nested (unlooped : h.Unlooped whole) (nested : h.Nests whole part) : h.Unlooped part :=
  fun a below => unlooped a (nested.trans below)

open scoped Classical in
noncomputable def arraysIn (h : Heap) (value : Value) : Finset Nat :=
  (Finset.range h.arrays.size).filter fun i => h.Nests value (.array ⟨i⟩)

theorem mem_arraysIn {i : Nat} : i ∈ h.arraysIn value ↔ i < h.arrays.size ∧ h.Nests value (.array ⟨i⟩) := by
  simp [arraysIn]

theorem card_arraysIn_le (h : Heap) (value : Value) : (h.arraysIn value).card ≤ h.arrays.size := by
  have among : h.arraysIn value ⊆ Finset.range h.arrays.size := by
    intro i nested
    exact Finset.mem_range.mpr (mem_arraysIn.mp nested).1
  calc (h.arraysIn value).card ≤ (Finset.range h.arrays.size).card := Finset.card_le_card among
    _ = h.arrays.size := Finset.card_range _

/-- An array does not stand in its parts, in which all other arrays of theirs stand. -/
theorem Unlooped.fewer (unlooped : h.Unlooped whole) (member : h.IsPart whole part) :
    (h.arraysIn part).card < (h.arraysIn whole).card := by
  obtain ⟨a, rfl, inside⟩ := member.array
  have here : a.index ∈ h.arraysIn (.array a) := mem_arraysIn.mpr ⟨inside, .refl⟩
  have away : a.index ∉ h.arraysIn part := by
    intro again
    have below : h.Nests part (.array a) := (mem_arraysIn.mp again).2
    exact unlooped a .refl (.head' member below)
  have among : h.arraysIn part ⊆ h.arraysIn (.array a) := by
    intro i nested
    obtain ⟨there, below⟩ := mem_arraysIn.mp nested
    exact mem_arraysIn.mpr ⟨there, .head member below⟩
  apply Finset.card_lt_card
  exact (Finset.ssubset_iff_of_subset among).mpr ⟨a.index, here, away⟩

/-- By induction on the depth: with each array that is entered, there is one less in what is left. -/
theorem Unlooped.within (unlooped : h.Unlooped value) (each : ∀ part, h.Nests value part → P part)
    (few : (h.arraysIn value).card ≤ depth) : h.Within P depth value := by
  induction depth generalizing value with
  | zero =>
    have none : h.parts value = [] := by
      apply List.eq_nil_iff_forall_not_mem.mpr
      intro part member
      have fewer := unlooped.fewer member
      omega
    exact ⟨each value .refl, none⟩
  | succ depth ih =>
    have inner (part : Value) (member : h.IsPart value part) : h.Within P depth part := by
      have fewer := unlooped.fewer member
      apply ih (unlooped.nested (.single member))
      · intro inmost nested
        exact each inmost (.head member nested)
      · omega
    exact ⟨each value .refl, inner⟩

theorem Within.here (within : h.Within P depth value) : P value := by
  cases depth <;> exact within.1

theorem Within.inside (within : h.Within P depth whole) (member : h.IsPart whole part) :
    ∃ less, less < depth ∧ h.Within P less part := by
  cases depth with
  | zero =>
    rw [IsPart, within.2] at member
    cases member
  | succ depth => exact ⟨depth, Nat.lt_succ_self depth, within.2 part member⟩

theorem Within.below (within : h.Within P depth whole) (below : Relation.TransGen h.IsPart whole part) :
    ∃ less, less < depth ∧ h.Within P less part := by
  induction below with
  | single member => exact within.inside member
  | tail _ member ih =>
    obtain ⟨less, deeper, inner⟩ := ih
    obtain ⟨least, deepest, inmost⟩ := inner.inside member
    exact ⟨least, deepest.trans deeper, inmost⟩

theorem Within.nested (within : h.Within P depth whole) (nested : h.Nests whole part) :
    ∃ less, h.Within P less part := by
  rcases Relation.reflTransGen_iff_eq_or_transGen.mp nested with rfl | below
  · exact ⟨depth, within⟩
  · obtain ⟨less, -, inner⟩ := within.below below
    exact ⟨less, inner⟩

theorem Within.not_below (within : h.Within P depth value) : ¬Relation.TransGen h.IsPart value value := by
  induction depth using Nat.strong_induction_on with
  | h depth ih =>
    intro again
    obtain ⟨less, deeper, inner⟩ := within.below again
    exact ih less deeper inner again

theorem within_iff :
    h.Within P h.arrays.size value ↔ h.Unlooped value ∧ ∀ part, h.Nests value part → P part := by
  constructor
  · intro within
    have inner (part : Value) (nested : h.Nests value part) : ∃ less, h.Within P less part := within.nested nested
    constructor
    · intro a nested
      obtain ⟨less, there⟩ := inner _ nested
      exact there.not_below
    · intro part nested
      obtain ⟨less, there⟩ := inner part nested
      exact there.here
  · rintro ⟨unlooped, each⟩
    exact unlooped.within each (h.card_arraysIn_le value)

/-! The text that a value has of its own. -/

theorem textWithin_array (h : Heap) (depth : Nat) (a : Ref .array) :
    h.textWithin (depth + 1) (.array a) =
      "[" ++ ", ".intercalate ((h.array a).elements.toList.map (h.textWithin depth)) ++ "]" :=
  rfl

theorem textWithin_flat (flat : h.parts value = []) (depth : Nat) :
    h.textWithin depth value = h.textWithin 0 value := by
  cases depth with
  | zero => rfl
  | succ depth =>
    cases value with
    | array a =>
      have none : (h.array a).elements.toList = [] := flat
      rw [textWithin_array, none]
      rfl
    | _ => rfl

/-- By induction on the depth: to go deeper than arrays are nested makes no difference. -/
theorem Within.textWithin_eq (within : h.Within P depth value) {more : Nat} (enough : depth ≤ more) :
    h.textWithin more value = h.textWithin depth value := by
  induction depth generalizing value more with
  | zero => exact textWithin_flat within.2 more
  | succ depth ih =>
    cases value with
    | array a =>
      obtain ⟨more, rfl⟩ := Nat.exists_eq_add_of_le' (Nat.lt_of_lt_of_le (Nat.zero_lt_succ depth) enough)
      have same : (h.array a).elements.toList.map (h.textWithin more) =
          (h.array a).elements.toList.map (h.textWithin depth) := by
        apply List.map_congr_left
        intro part member
        exact ih (within.2 part member) (Nat.le_of_succ_le_succ enough)
      rw [textWithin_array, textWithin_array, same]
    | _ => exact (textWithin_flat rfl more).trans (textWithin_flat rfl (depth + 1)).symm

/-- The text of an array is made up of the texts of its elements, however deep these are nested. -/
theorem Unlooped.text_array {a : Ref .array} (unlooped : h.Unlooped (.array a)) :
    h.text (.array a) = "[" ++ ", ".intercalate ((h.array a).elements.toList.map h.text) ++ "]" := by
  have within : h.Within (fun _ => True) h.arrays.size (.array a) :=
    within_iff.mpr ⟨unlooped, fun _ _ => trivial⟩
  calc h.text (.array a) = h.textWithin (h.arrays.size + 1) (.array a) :=
        (within.textWithin_eq (Nat.le_succ _)).symm
    _ = "[" ++ ", ".intercalate ((h.array a).elements.toList.map h.text) ++ "]" := rfl

/-! Where `toString` comes from. -/

/-- If a value is an instance, the nearest `toString` of its class is the native one that Object starts out with. -/
def HasNativeText (h : Heap) : Value → Prop
  | .object o =>
    ∃ f, h.findMethod? (h.object o).cls "toString" = some f ∧ h.function f = .ofNative "toString" .objectText
  | _ => True

/-- If a value is an instance, no class below Object gives it a `toString`. -/
def inheritsText (h : Heap) : Value → Bool
  | .object o => h.findMethod? (h.object o).cls "toString" = (h.cls .objectClass).methods.find? "toString"
  | _ => true

end Heap

/-! The text that a program is asked for. -/

variable {act : (a : Activity) → Machine → Outcome a.Result} {m : Machine}

theorem Run.outcome_spell (value : Value) : (Run.spell value m).outcome act = act (.text value) m :=
  rfl

namespace Evaluator

/-- By induction on the values: each of them finds the machine as the first one did. -/
theorem texts_outcome {values : List Value} {f : Value → String}
    (each : ∀ value ∈ values, act (.text value) m = .ok (f value) m) :
    (texts values m).outcome act = .ok (values.map f) m := by
  induction values with
  | nil => rfl
  | cons value rest ih =>
    have first : act (.text value) m = .ok (f value) m := each value List.mem_cons_self
    have others := ih fun other member => each other (List.mem_cons_of_mem value member)
    rw [texts, Run.outcome_bind, Run.outcome_spell, first]
    simp only
    rw [Run.outcome_bind, others]
    rfl

theorem textOf_array {a : Ref .array} {f : Value → String}
    (each : ∀ part ∈ (m.heap.array a).elements.toList, act (.text part) m = .ok (f part) m) :
    (textOf (.array a) m).outcome act =
      .ok ("[" ++ ", ".intercalate ((m.heap.array a).elements.toList.map f) ++ "]") m := by
  rw [textOf, Run.reading_bind, Run.outcome_bind, texts_outcome each]
  rfl

/-- The native `toString` is handed the instance that it is bound to, and looks at nothing else. -/
theorem callMethod_native {f : Ref .function} (native : m.heap.function f = .ofNative "toString" .objectText)
    (value : Value) (fuel : Nat) :
    (callMethod f value [] 0 m).outcome (perform (fuel + 1)) = .ok (.str (m.heap.text value)) m := by
  rw [callMethod, Run.reading_bind, native]
  rfl

theorem textOf_object {o : Ref .object} (native : m.heap.HasNativeText (.object o)) (fuel : Nat) :
    (textOf (.object o) m).outcome (perform (fuel + 1)) = .ok (m.heap.text (.object o)) m := by
  obtain ⟨f, found, native⟩ := native
  have itself : m.heap.text (.str (m.heap.text (.object o))) = m.heap.text (.object o) :=
    Heap.textWithin_flat rfl m.heap.arrays.size
  rw [textOf, Run.heap_bind, found]
  simp only
  rw [Run.outcome_bind, callMethod_native native]
  simp only
  rw [Run.heap_bind, itself]
  rfl

theorem textOf_flat {value : Value} (flat : m.heap.parts value = []) (native : m.heap.HasNativeText value)
    (depth fuel : Nat) :
    (textOf value m).outcome (perform (fuel + 1)) = .ok (m.heap.textWithin depth value) m := by
  have own : m.heap.text value = m.heap.textWithin depth value :=
    (Heap.textWithin_flat flat m.heap.arrays.size).trans (Heap.textWithin_flat flat depth).symm
  cases value with
  | object o =>
    rw [← own]
    exact textOf_object native fuel
  | array a =>
    have none : (m.heap.array a).elements.toList = [] := flat
    rw [Heap.textWithin_flat flat depth, textOf_array (f := m.heap.text) (by simp [none]), none]
    rfl
  | _ =>
    rw [← own]
    rfl

end Evaluator

/-- By induction on the depth: a program says what the value says by itself, as far down as arrays are nested. -/
theorem Heap.Within.perform_text {depth fuel : Nat} {value : Value}
    (within : m.heap.Within m.heap.HasNativeText depth value) (ample : depth + 2 ≤ fuel) :
    perform fuel (.text value) m = .ok (m.heap.textWithin depth value) m := by
  obtain ⟨fuel, rfl⟩ := Nat.exists_eq_add_of_le' ample
  induction depth generalizing value with
  | zero => exact Evaluator.textOf_flat within.2 within.1 0 fuel
  | succ depth ih =>
    cases value with
    | array a =>
      apply Evaluator.textOf_array
      intro part member
      exact ih (within.2 part member) (by omega)
    | _ => exact Evaluator.textOf_flat rfl within.1 (depth + 1) (fuel + (depth + 1))

/-- Object keeps its `toString` in every run, also when a program declares a class of this name. -/
theorem Reached.hasNativeText {H : List Event} {m : Machine} (reached : Reached H m) :
    ∀ n ∈ moments H m, ∀ value, n.heap.inheritsText value = true → n.heap.HasNativeText value := by
  obtain ⟨w, trail, arrived⟩ := reached.trail
  refine trail.forall_later arrived.sound arrived.heap fun v n leads _ heap value inherits => ?_
  rw [← heap] at inherits ⊢
  have native : v.heap.function ⟨0⟩ = .ofNative "toString" .objectText := (leads.grows.functions ⟨0⟩ (by decide)).2
  have methods : (v.heap.cls .objectClass).methods = objectClass.methods :=
    (leads.grows.classes .objectClass (by decide)).2.methods
  cases value with
  | object o =>
    have inherited : v.heap.findMethod? (v.heap.object o).cls "toString" =
        (v.heap.cls .objectClass).methods.find? "toString" := of_decide_eq_true inherits
    rw [methods] at inherited
    exact ⟨⟨0⟩, inherited, native⟩
  | _ => trivial

/-- The two texts of a value agree. If no array in it contains itself and no class of an instance in it has a nearer
`toString` than the native one, then asking for its text succeeds, yields the text that the value has of its own, and
leaves the machine as it was. It takes no more activities inside each other than there are arrays, and two for what
stands innermost. At every array in the value this text is made up of the texts of its elements, so that nothing is
left out at any depth. -/
theorem renderings_agree (m : Machine) (value : Value) (unlooped : m.heap.Unlooped value)
    (native : ∀ part, m.heap.Nests value part → m.heap.HasNativeText part) (fuel : Nat)
    (ample : m.heap.arrays.size + 2 ≤ fuel) :
    perform fuel (.text value) m = .ok (m.heap.text value) m ∧
      ∀ a, m.heap.Nests value (.array a) → m.heap.text (.array a) =
        "[" ++ ", ".intercalate ((m.heap.array a).elements.toList.map m.heap.text) ++ "]" := by
  have within : m.heap.Within m.heap.HasNativeText m.heap.arrays.size value :=
    Heap.within_iff.mpr ⟨unlooped, native⟩
  constructor
  · exact within.perform_text ample
  · intro a nested
    exact (unlooped.nested nested).text_array

/-- An array that stands twice in another one, and instances of a class and of one below it. -/
def kitesSource : String :=
  "class Kite \x7b \x7d class Glider <- Kite \x7b \x7d var pair = [Kite(), Glider()]; var both = [pair, pair];"

set_option maxRecDepth 100000 in
theorem renderings_agree_kites :
    ∃ H m, Reached H m ∧ m.heap.Unlooped (.array ⟨1⟩) ∧
      (∀ part, m.heap.Nests (.array ⟨1⟩) part → m.heap.HasNativeText part) ∧
      perform 20 (.text (.array ⟨1⟩)) m =
        .ok "[[Kite instance, Glider instance], [Kite instance, Glider instance]]" m := by
  have reached := Reached.text 20 kitesSource
  have facts : let m := ((Session.start {}).run 20 kitesSource).machine
      m.heap.arrays.size = 2 ∧
        m.heap.text (.array ⟨1⟩) = "[[Kite instance, Glider instance], [Kite instance, Glider instance]]" ∧
        m.heap.Within (m.heap.inheritsText · = true) m.heap.arrays.size (.array ⟨1⟩) := by decide +kernel
  generalize ((Session.start {}).run 20 kitesSource).machine = m at reached facts
  obtain ⟨size, text, within⟩ := facts
  obtain ⟨unlooped, inherits⟩ := Heap.within_iff.mp within
  have native (part : Value) (nested : m.heap.Nests (.array ⟨1⟩) part) : m.heap.HasNativeText part :=
    reached.hasNativeText m (last_mem_moments _ m) part (inherits part nested)
  have agree := renderings_agree m (.array ⟨1⟩) unlooped native 20 (by rw [size]; decide)
  rw [text] at agree
  exact ⟨_, m, reached, unlooped, native, agree.1⟩

end Treewalk
