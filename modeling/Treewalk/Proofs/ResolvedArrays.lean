import Treewalk.Proofs.Agreement
import Treewalk.Proofs.Detour
import Treewalk.Proofs.FieldStretch

/-!
Arrays of what a name stands for. Taking a type apart into its base and its dimensions and putting these together again
gives the type back, whatever its name. So a name with brackets behind it means what the name means, with the brackets
behind that.
-/

namespace Treewalk

namespace TypeDesc

theorem base_arrayOf (t : TypeDesc) : t.arrayOf.base = t.base := by
  rw [base, dimensions_arrayOf, elementAt, element_arrayOf, base]

theorem base_arrayOfAt_base (t : TypeDesc) (count : Nat) : (t.arrayOfAt count).base = t.base := by
  induction count generalizing t with
  | zero => rfl
  | succ count ih => rw [arrayOfAt, ih, base_arrayOf]

theorem arrayOfAt_add (t : TypeDesc) (first second : Nat) :
    t.arrayOfAt (first + second) = (t.arrayOfAt first).arrayOfAt second := by
  induction first generalizing t with
  | zero => rw [Nat.zero_add, arrayOfAt]
  | succ first ih => rw [Nat.succ_add, arrayOfAt, arrayOfAt, ih]

/-- By induction on the dimensions: what has been taken off is put back. -/
theorem arrayOfAt_base (t : TypeDesc) : t.base.arrayOfAt t.dimensions = t := by
  induction counted : t.dimensions generalizing t with
  | zero => rw [base, counted, elementAt, arrayOfAt]
  | succ count ih =>
    cases array : t.isArray with
    | false =>
      rw [dimensions_flat array] at counted
      cases counted
    | true =>
      have inner : t.element.dimensions = count := Nat.succ.inj ((dimensions_element array).symm.trans counted)
      have same : t.base = t.element.base := by rw [← base_arrayOf t.element, arrayOf_element array]
      rw [same, arrayOfAt, arrayOfAt_arrayOf, ih t.element inner, arrayOf_element array]

/-- A name with brackets behind it does not start like a signature, unless it did without them. -/
theorem isFunction_arrayOf (t : TypeDesc) : t.arrayOf.isFunction = t.isFunction := by
  have starts : "func(".toList <+: t.name.toList ++ ['[', ']'] ↔ "func(".toList <+: t.name.toList := by
    refine ⟨fun ⟨rest, same⟩ => ?_, fun starts => starts.trans (List.prefix_append _ _)⟩
    rcases List.append_eq_append_iff.mp same with ⟨more, name, -⟩ | ⟨more, begun, ends⟩
    · exact ⟨more, name.symm⟩
    · cases more with
      | nil => exact ⟨[], by simpa using begun⟩
      | cons c more =>
        -- The rest of the five characters would have to begin with a bracket.
        have bracket : '[' = c := (List.cons.inj ends).1
        have inside : c ∈ "func(".toList := by simp [begun]
        rw [← bracket] at inside
        exact absurd inside (by decide)
  rw [Bool.eq_iff_iff]
  simpa [isFunction, arrayOf] using fun _ => starts

theorem isName_arrayOf {t : TypeDesc} (named : t.isName = true) : t.arrayOf.isName = true := by
  have other : t.arrayOf.isNull = false := Bool.eq_false_iff.mpr fun same => arrayOf_ne_null t ((isNull_iff _).mp same)
  simp only [isName, Bool.and_eq_true] at named ⊢
  exact ⟨⟨named.1.1, by simp [other]⟩, by rw [isFunction_arrayOf, named.2]⟩

theorem isName_arrayOfAt {t : TypeDesc} (named : t.isName = true) (count : Nat) :
    (t.arrayOfAt count).isName = true := by
  induction count generalizing t with
  | zero => exact named
  | succ count ih => exact ih (isName_arrayOf named)

end TypeDesc

namespace Heap

variable (h : Heap) (r : Ref .scope) {t : TypeDesc}

/-- A name means what its base is bound to, with the dimensions of the name. -/
theorem resolveType_name (named : t.isName = true) :
    h.resolveType t r = ((h.typeNamed? t.base.name (h.outward r)).getD t.base).arrayOfAt t.dimensions := by
  have plain : ¬(t.kind ≠ .object ∨ t.isNull ∨ t.isFunction) := by simpa [TypeDesc.isName, and_assoc] using named
  rw [resolveType_eq, if_neg plain]
  cases h.typeNamed? t.base.name (h.outward r) with
  | none => exact t.arrayOfAt_base.symm
  | some bound => rfl

/-- Types are resolved dimension by dimension. -/
theorem resolveType_arrayOfAt (named : t.isName = true) (count : Nat) :
    h.resolveType (t.arrayOfAt count) r = (h.resolveType t r).arrayOfAt count := by
  rw [resolveType_name h r (TypeDesc.isName_arrayOfAt named count), resolveType_name h r named,
    TypeDesc.base_arrayOfAt_base, TypeDesc.dimensions_arrayOfAt, TypeDesc.arrayOfAt_add]

end Heap

/-- Substitution for names commutes with arrays. Let a type be an object type, neither that of nil nor a function type.
In whatever chain of scopes it is resolved, its array types resolve to the array types of what it resolves to itself. If
the nearest binding of its base name holds a type, it resolves to that one with its own dimensions added, and otherwise
to itself. And whatever a type is called, its base with as many dimensions as it has is the type again. -/
theorem arrays_resolve (h : Heap) (r : Ref .scope) :
    (∀ t : TypeDesc, t.kind = .object → t ≠ .null → t.isFunction = false →
      (∀ count, h.resolveType (t.arrayOfAt count) r = (h.resolveType t r).arrayOfAt count) ∧
      (∀ bound, h.typeNamed? t.base.name (h.outward r) = some bound →
        h.resolveType t r = bound.arrayOfAt t.dimensions ∧
          (h.resolveType t r).dimensions = bound.dimensions + t.dimensions) ∧
      (h.typeNamed? t.base.name (h.outward r) = none → h.resolveType t r = t)) ∧
    ∀ t : TypeDesc, t.base.arrayOfAt t.dimensions = t := by
  refine ⟨fun t object other plain => ?_, TypeDesc.arrayOfAt_base⟩
  have notNull : t.isNull = false := Bool.eq_false_iff.mpr fun same => other ((TypeDesc.isNull_iff t).mp same)
  have named : t.isName = true := by simp [TypeDesc.isName, object, notNull, plain]
  have resolved := h.resolveType_name r named
  refine ⟨h.resolveType_arrayOfAt r named, fun bound found => ?_, fun unbound => ?_⟩
  · rw [found] at resolved
    exact ⟨resolved, resolved ▸ bound.dimensions_arrayOfAt t.dimensions⟩
  · rw [unbound] at resolved
    exact resolved.trans t.arrayOfAt_base

/-- A scope that binds a template to an array type, inside the outermost one and around another. -/
def boundTemplate : Heap :=
  let outermost := (Heap.addScope {} {}).2
  ((outermost.child ⟨0⟩).2.define ⟨1⟩ "T" (.ofValue (.type (.arrayOf .number))) |>.child ⟨1⟩).2

/-- An array of arrays of the template, seen from the innermost scope and from the outermost one. -/
theorem arrays_resolve_bound :
    boundTemplate.typeNamed? "T" (boundTemplate.outward ⟨2⟩) = some (.arrayOf .number) ∧
      boundTemplate.resolveType (.object "T[][]") ⟨2⟩ = ⟨.number, "num[][][]"⟩ ∧
      boundTemplate.resolveType ((TypeDesc.object "T[][]").arrayOfAt 2) ⟨2⟩ = ⟨.number, "num[][][][][]"⟩ ∧
      boundTemplate.resolveType (.object "T[][]") ⟨0⟩ = .object "T[][]" := by
  have plain : (TypeDesc.object "T[][]").isFunction = false := by decide +kernel
  have base : (TypeDesc.object "T[][]").base.name = "T" := by decide +kernel
  have inner : boundTemplate.typeNamed? "T" (boundTemplate.outward ⟨2⟩) = some (.arrayOf .number) := by decide +kernel
  have outer : boundTemplate.typeNamed? "T" (boundTemplate.outward ⟨0⟩) = none := by decide +kernel
  obtain ⟨lifts, found, -⟩ := (arrays_resolve boundTemplate ⟨2⟩).1 (.object "T[][]") rfl (by decide) plain
  obtain ⟨-, -, unbound⟩ := (arrays_resolve boundTemplate ⟨0⟩).1 (.object "T[][]") rfl (by decide) plain
  rw [base] at found unbound
  have resolved : boundTemplate.resolveType (.object "T[][]") ⟨2⟩ = ⟨.number, "num[][][]"⟩ :=
    (found _ inner).1.trans (by decide +kernel)
  refine ⟨inner, resolved, ?_, unbound outer⟩
  rw [lifts, resolved]
  decide +kernel

end Treewalk
