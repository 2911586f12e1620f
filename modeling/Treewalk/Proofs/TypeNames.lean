import Treewalk.Type.Descriptor

/-!
Names of types. An array type has the name of its element type with a pair of brackets behind it. A name by
itself may be anything, but the types that a program can come by are made up from the few that have a name of
their own and from object types, and for them the kind and the dimensions decide the name.
-/

namespace Treewalk

namespace TypeDesc

theorem ending_arrayOf (t : TypeDesc) : t.arrayOf.name.toList.reverse = ']' :: '[' :: t.name.toList.reverse := by
  simp [arrayOf]

@[simp]
theorem isArray_arrayOf (t : TypeDesc) : t.arrayOf.isArray = true := by
  simp [isArray, ending_arrayOf, dropBrackets?]

@[simp]
theorem element_arrayOf (t : TypeDesc) : t.arrayOf.element = t := by
  simp only [element, ending_arrayOf, dropBrackets?, List.reverse_reverse, String.ofList_toList]
  rfl

theorem dimensions_arrayOf (t : TypeDesc) : t.arrayOf.dimensions = t.dimensions + 1 := by
  simp only [dimensions, ending_arrayOf, countBrackets]

theorem arrayOf_element {t : TypeDesc} (array : t.isArray = true) : t.element.arrayOf = t := by
  obtain ⟨kind, name⟩ := t
  obtain ⟨rest, found⟩ := Option.isSome_iff_exists.mp array
  have ending : name.toList.reverse = ']' :: '[' :: rest := by
    unfold dropBrackets? at found
    split at found
    · rename_i same
      rw [same, Option.some.inj found]
    · cases found
  have letters : name.toList = rest.reverse ++ ['[', ']'] := by
    simpa using congrArg List.reverse ending
  simp only [element, found, arrayOf, mk.injEq, true_and]
  rw [← String.toList_inj, letters]
  simp

theorem dimensions_flat {t : TypeDesc} (flat : t.isArray = false) : t.dimensions = 0 := by
  unfold isArray dropBrackets? at flat
  unfold dimensions countBrackets
  split
  · rename_i ending
    simp [ending] at flat
  · rfl

/-! More dimensions than one at a time. -/

theorem arrayOfAt_arrayOf (t : TypeDesc) (count : Nat) : t.arrayOf.arrayOfAt count = (t.arrayOfAt count).arrayOf := by
  induction count generalizing t with
  | zero => rfl
  | succ count ih => exact ih t.arrayOf

theorem dimensions_arrayOfAt (t : TypeDesc) (count : Nat) : (t.arrayOfAt count).dimensions = t.dimensions + count := by
  induction count generalizing t with
  | zero => rfl
  | succ count ih =>
    rw [arrayOfAt, ih, dimensions_arrayOf]
    omega

theorem elementAt_arrayOfAt (t : TypeDesc) (count : Nat) : (t.arrayOfAt count).elementAt count = t := by
  induction count with
  | zero => rfl
  | succ count ih =>
    rw [arrayOfAt, arrayOfAt_arrayOf, elementAt, element_arrayOf]
    exact ih

/-- A type that is no array type is found again under any number of dimensions. -/
theorem base_arrayOfAt {t : TypeDesc} (flat : t.isArray = false) (count : Nat) : (t.arrayOfAt count).base = t := by
  rw [base, dimensions_arrayOfAt, dimensions_flat flat, Nat.zero_add, elementAt_arrayOfAt]

theorem kind_arrayOfAt (t : TypeDesc) (count : Nat) : (t.arrayOfAt count).kind = t.kind := by
  induction count generalizing t with
  | zero => rfl
  | succ count ih => exact ih t.arrayOf

theorem mem_name_arrayOfAt {t : TypeDesc} {count : Nat} {c : Char} (member : c ∈ (t.arrayOfAt count).name.toList) :
    c ∈ t.name.toList ∨ c = '[' ∨ c = ']' := by
  induction count generalizing t with
  | zero => exact .inl member
  | succ count ih =>
    rcases ih member with inner | bracket
    · simpa [arrayOf, or_assoc] using inner
    · exact .inr bracket

theorem isNull_iff (t : TypeDesc) : t.isNull = true ↔ t = null := by
  obtain ⟨kind, name⟩ := t
  simp [isNull, null, object]

theorem arrayOf_ne_null (t : TypeDesc) : t.arrayOf ≠ null := fun same => by
  have array := isArray_arrayOf t
  rw [same] at array
  exact absurd array (by decide)

theorem isPlainAny_arrayOf (t : TypeDesc) : t.arrayOf.isPlainAny = false := by
  simp [isPlainAny]

/-- Array types agree by their elements, -/
theorem agrees_arrayOf (a b : TypeDesc) : a.arrayOf.agrees b.arrayOf = a.agrees b := by
  simp [agrees, dimensions_arrayOf, agreesWithin, isPlainAny_arrayOf]

/-- and no other type agrees with one of them, but for the unrestricted type and the type of nil. -/
theorem agrees_flat {a : TypeDesc} (flat : a.isArray = false) (b : TypeDesc) :
    a.agrees b.arrayOf = true ↔ a.kind = .any ∨ a = null := by
  have other : b.arrayOf.isNull = false :=
    Bool.eq_false_iff.mpr fun same => arrayOf_ne_null b ((isNull_iff _).mp same)
  rw [← isNull_iff]
  simp [agrees, dimensions_flat flat, agreesWithin, agreesFlat, other, isPlainAny, flat]

/-- The types that a program can write, read off a value or put together: object types of any name, the types
with a name of their own, and array types of these. -/
inductive Denotable : TypeDesc → Prop where
  | object (name : String) : Denotable (.object name)
  | number : Denotable .number
  | string : Denotable .string
  | boolean : Denotable .boolean
  | void : Denotable .void
  | typeValue : Denotable .typeValue
  | any : Denotable .any
  | arrayOf {t : TypeDesc} (element : Denotable t) : Denotable t.arrayOf

namespace Denotable

theorem function (params : List TypeDesc) (returns : TypeDesc) : Denotable (.function params returns) :=
  .object _

theorem arrayOfAt {t : TypeDesc} (denotable : t.Denotable) (count : Nat) : (t.arrayOfAt count).Denotable := by
  induction count generalizing t with
  | zero => exact denotable
  | succ count ih => exact ih denotable.arrayOf

def named? : TypeKind → Option TypeDesc
  | .object => none
  | .string => some .string
  | .number => some .number
  | .boolean => some .boolean
  | .void => some .void
  | .typeValue => some .typeValue
  | .any => some .any

/-- A type that is neither an object type nor an array type is known by its kind. -/
theorem flat {t : TypeDesc} (denotable : t.Denotable) (flat : t.isArray = false) :
    t.kind = .object ∨ named? t.kind = some t := by
  cases denotable with
  | object name => exact .inl rfl
  | arrayOf element =>
    rw [isArray_arrayOf] at flat
    cases flat
  | _ => exact .inr rfl

/-- It is the one that has this kind. -/
theorem eq_of_kind {t own : TypeDesc} (denotable : t.Denotable) (flat : t.isArray = false)
    (kind : named? t.kind = some own) : t = own := by
  rcases denotable.flat flat with object | named
  · rw [object] at kind
    cases kind
  · exact Option.some.inj (named.symm.trans kind)

end Denotable

end TypeDesc

end Treewalk
