import Treewalk.Proofs.TypeNames

/-!
Agreement of types as a relation. It is a tolerance: every type agrees with itself, two types agree in
either order or in neither, but a type may agree with two others that do not agree, since the unrestricted
type and the type of nil agree with types of many kinds. The dimensions that both types have play no part.
Without them at least one of the two is no array, and these can be told to agree by a look at their kinds
and names.
-/

namespace Treewalk

namespace TypeDesc

theorem dimensions_element {t : TypeDesc} (array : t.isArray = true) : t.dimensions = t.element.dimensions + 1 := by
  have made := dimensions_arrayOf t.element
  rwa [arrayOf_element array] at made

theorem isArray_elementAt_dimensions (t : TypeDesc) : (t.elementAt t.dimensions).isArray = false := by
  induction found : t.dimensions generalizing t with
  | zero =>
    rw [elementAt, Bool.eq_false_iff]
    intro array
    have positive := dimensions_element array
    omega
  | succ count ih =>
    cases array : t.isArray with
    | false =>
      have none := dimensions_flat array
      omega
    | true =>
      have fewer := dimensions_element array
      apply ih
      omega

/-- How two types agree that are not both arrays. -/
inductive Meets (a b : TypeDesc) : Prop where
  | any (either : a.isPlainAny = true ∨ b.isPlainAny = true)
  | nilForArray (either : a.isArray = true ∧ b = null ∨ a = null ∧ b.isArray = true)
  | objects (flat : a.isArray = false ∧ b.isArray = false) (kinds : a.kind = .object ∧ b.kind = .object)
      (names : a.name = b.name ∨ a = null ∨ b = null)
  | nilForVoid (flat : a.isArray = false ∧ b.isArray = false)
      (either : a.kind = .void ∧ b = null ∨ a = null ∧ b.kind = .void)
  | same (flat : a.isArray = false ∧ b.isArray = false) (kind : a.kind = b.kind) (name : a.name = b.name)

theorem Meets.symm {a b : TypeDesc} (meets : Meets a b) : Meets b a := by
  cases meets with
  | any either => exact .any either.symm
  | nilForArray either => exact .nilForArray (either.symm.imp And.symm And.symm)
  | objects flat kinds names => exact .objects flat.symm kinds.symm (names.imp Eq.symm Or.symm)
  | nilForVoid flat either => exact .nilForVoid flat.symm (either.symm.imp And.symm And.symm)
  | same flat kind name => exact .same flat.symm kind.symm name.symm

theorem isArray_null : null.isArray = false := by decide

/-- Without regard to elements, an array agrees with the type of nil only, -/
theorem agreesFlat_mixed {a b : TypeDesc} (mixed : (a.isArray || b.isArray) = true) :
    agreesFlat a b = true ↔ a.isArray = true ∧ b = null ∨ a = null ∧ b.isArray = true := by
  rw [agreesFlat, if_pos mixed, Bool.or_eq_true, isNull_iff, isNull_iff]
  constructor
  · rintro (same | same)
    · rw [same, isArray_null] at mixed
      exact .inr ⟨same, mixed⟩
    · rw [same, isArray_null, Bool.or_false] at mixed
      exact .inl ⟨mixed, same⟩
  · rintro (⟨-, same⟩ | ⟨same, -⟩)
    · exact .inr same
    · exact .inl same

/-- and of two types that are no arrays, one is the type of nil and the other one is void or an object type, or
both are the same. -/
theorem agreesFlat_flat {a b : TypeDesc} (flat : a.isArray = false) (flat' : b.isArray = false) :
    agreesFlat a b = true ↔ (a.kind = .object ∧ b.kind = .object) ∧ (a.name = b.name ∨ a = null ∨ b = null) ∨
      (a.kind = .void ∧ b = null ∨ a = null ∧ b.kind = .void) ∨ a.kind = b.kind ∧ a.name = b.name := by
  obtain ⟨kind, name⟩ := a
  obtain ⟨kind', name'⟩ := b
  simp only [agreesFlat, flat, flat', isNull, null, object, mk.injEq]
  -- Which of the comparisons is made depends on the two kinds only.
  cases kind <;> cases kind' <;> simp <;> grind

theorem meets_iff (a b : TypeDesc) :
    (a.isPlainAny || b.isPlainAny || agreesFlat a b) = true ↔ Meets a b := by
  rw [Bool.or_eq_true, Bool.or_eq_true]
  cases mixed : a.isArray || b.isArray with
  | true =>
    rw [agreesFlat_mixed mixed]
    constructor
    · rintro (either | either)
      · exact .any either
      · exact .nilForArray either
    · rintro (either | either | ⟨flat, -⟩ | ⟨flat, -⟩ | ⟨flat, -⟩)
      · exact .inl either
      · exact .inr either
      all_goals simp [flat] at mixed
  | false =>
    have flat : a.isArray = false ∧ b.isArray = false := Bool.or_eq_false_iff.mp mixed
    rw [agreesFlat_flat flat.1 flat.2]
    constructor
    · rintro (either | ⟨kinds, names⟩ | either | ⟨kind, name⟩)
      · exact .any either
      · exact .objects flat kinds names
      · exact .nilForVoid flat either
      · exact .same flat kind name
    · rintro (either | either | ⟨-, kinds, names⟩ | ⟨-, either⟩ | ⟨-, kind, name⟩)
      · exact .inl either
      · simp [flat] at either
      · exact .inr (.inl ⟨kinds, names⟩)
      · exact .inr (.inr (.inl either))
      · exact .inr (.inr (.inr ⟨kind, name⟩))

/-- As long as both types have dimensions, these are removed in step. -/
theorem agreesWithin_iff {a b : TypeDesc} {depth : Nat} (enough : min a.dimensions b.dimensions ≤ depth) :
    agreesWithin depth a b = true ↔
      Meets (a.elementAt (min a.dimensions b.dimensions)) (b.elementAt (min a.dimensions b.dimensions)) := by
  induction depth generalizing a b with
  | zero =>
    rw [Nat.le_zero.mp enough, elementAt, elementAt, ← meets_iff]
    rfl
  | succ depth ih =>
    cases arrays : a.isArray && b.isArray with
    | true =>
      obtain ⟨array, array'⟩ := Bool.and_eq_true_iff.mp arrays
      have fewer : min a.dimensions b.dimensions = min a.element.dimensions b.element.dimensions + 1 := by
        rw [dimensions_element array, dimensions_element array', Nat.add_min_add_right]
      have removed := ih (a := a.element) (b := b.element) (by omega)
      rw [fewer, elementAt, elementAt, ← removed]
      simp [agreesWithin, isPlainAny, array, array']
    | false =>
      have none : min a.dimensions b.dimensions = 0 := by
        rcases Bool.and_eq_false_iff.mp arrays with flat | flat
        · rw [dimensions_flat flat, Nat.zero_min]
        · rw [dimensions_flat flat, Nat.min_zero]
      rw [none, elementAt, elementAt, ← meets_iff]
      simp [agreesWithin, arrays]

theorem agrees_iff (a b : TypeDesc) : a.agrees b = true ↔
    Meets (a.elementAt (min a.dimensions b.dimensions)) (b.elementAt (min a.dimensions b.dimensions)) :=
  agreesWithin_iff (Nat.min_le_left _ _)

theorem agrees_self (t : TypeDesc) : t.agrees t = true := by
  have flat := isArray_elementAt_dimensions t
  rw [agrees_iff, Nat.min_self]
  exact .same ⟨flat, flat⟩ rfl rfl

theorem agrees_comm (a b : TypeDesc) : a.agrees b = b.agrees a := by
  rw [Bool.eq_iff_iff, agrees_iff, agrees_iff, Nat.min_comm b.dimensions]
  exact ⟨Meets.symm, Meets.symm⟩

end TypeDesc

/-- Agreement is reflexive and symmetric, and no dimension that both types have matters. Without these dimensions
the types agree in one of five ways: one is the unrestricted type; one is still an array and the other one the
type of nil; both are object types of one name or one of them is the type of nil; one is void and the other one
the type of nil; or they are the same. -/
theorem agreement_tolerance (a b : TypeDesc) :
    a.agrees a = true ∧ a.agrees b = b.agrees a ∧ a.arrayOf.agrees b.arrayOf = a.agrees b ∧
      (a.agrees b = true ↔ (a.elementAt (min a.dimensions b.dimensions)).Meets
        (b.elementAt (min a.dimensions b.dimensions))) :=
  ⟨a.agrees_self, a.agrees_comm b, a.agrees_arrayOf b, a.agrees_iff b⟩

/-- Two types that agree with a third one need not agree. -/
example : TypeDesc.number.agrees .any = true ∧ TypeDesc.any.agrees .string = true ∧
    TypeDesc.number.agrees .string = false := by decide

end Treewalk
