import Treewalk.Proofs.Bindings
import Treewalk.Proofs.Seat

/-!
A detour among the scopes. The way out from a scope leads through one that binds `this` alone, and it could go
straight to the next one. References that are resolved inside the detour lead to the same scope either way, and
types are the same by name; so a heap with the detour and one without it can only be told apart by a reference
that passes the detour.
-/

namespace Treewalk

/-- The scopes from one outward are in the heap, each older than what it encloses. -/
inductive Heap.Grounded (h : Heap) : Ref .scope → Prop where
  | intro {r : Ref .scope} (inside : r.index < h.scopes.size)
      (older : ∀ p, (h.scope r).enclosing = some p → p.index < r.index)
      (outer : ∀ p, (h.scope r).enclosing = some p → Grounded h p) : Grounded h r

namespace Heap.Grounded

variable {h h' : Heap} {r p : Ref .scope}

theorem inside : h.Grounded r → r.index < h.scopes.size
  | .intro inside _ _ => inside

theorem older : h.Grounded r → (h.scope r).enclosing = some p → p.index < r.index
  | .intro _ older _, around => older p around

theorem outer : h.Grounded r → (h.scope r).enclosing = some p → h.Grounded p
  | .intro _ _ outer, around => outer p around

theorem mono (grounded : h.Grounded r) (later : h.Extends h') : h'.Grounded r := by
  induction grounded with
  | @intro r inside older _ ih =>
    have same := later.enclosing r inside
    refine .intro (Nat.lt_of_lt_of_le inside later.scopes) (fun p around => ?_) fun p around => ?_
    · exact older p (same.symm.trans around)
    · exact ih p (same.symm.trans around)

theorem of_older (older : ∀ r p, (h.scope r).enclosing = some p → p.index < r.index)
    (inside : r.index < h.scopes.size) : h.Grounded r := by
  obtain ⟨i⟩ := r
  induction i using Nat.strongRecOn with
  | _ i ih =>
    refine .intro inside (older _) fun p around => ?_
    have before := older _ p around
    exact ih p.index before (Nat.lt_trans before inside)

theorem addScope {s : Scope} (around : ∀ p, s.enclosing = some p → h.Grounded p) :
    (h.addScope s).2.Grounded ⟨h.scopes.size⟩ := by
  have held : (h.addScope s).2.scope ⟨h.scopes.size⟩ = s := by rw [scope_addScope, if_pos rfl]
  refine .intro (by simp [Heap.addScope]) (fun p enclosing => ?_) fun p enclosing => ?_
  · rw [held] at enclosing
    exact (around p enclosing).inside
  · rw [held] at enclosing
    exact (around p enclosing).mono (.addScope h s)

/-- More fuel than there are older scopes does not matter. -/
theorem outwardFrom (grounded : h.Grounded r) {fuel fuel' : Nat} (enough : r.index < fuel)
    (enough' : r.index < fuel') : h.outwardFrom fuel r = h.outwardFrom fuel' r := by
  induction grounded generalizing fuel fuel' with
  | @intro r inside older _ ih =>
    obtain ⟨fuel, rfl⟩ := Nat.exists_eq_succ_of_ne_zero (Nat.ne_of_gt (Nat.zero_lt_of_lt enough))
    obtain ⟨fuel', rfl⟩ := Nat.exists_eq_succ_of_ne_zero (Nat.ne_of_gt (Nat.zero_lt_of_lt enough'))
    unfold Heap.outwardFrom
    cases around : (h.scope r).enclosing with
    | none => rfl
    | some p =>
      have before := older p around
      simp only [ih p around (show p.index < fuel by omega) (show p.index < fuel' by omega)]

end Heap.Grounded

def Cell.type? (cell : Cell) : Option TypeDesc :=
  match cell.content with
  | .plain (.type t) => some t
  | _ => none

/-- The type that a name stands for in the first of some scopes that binds the name. -/
def Heap.typeNamed? (h : Heap) (name : String) (scopes : List (Ref .scope)) : Option TypeDesc :=
  (h.firstBound? name scopes).bind Cell.type?

namespace Heap

theorem typeNamed?_cons (h : Heap) (name : String) (r : Ref .scope) (rest : List (Ref .scope)) :
    h.typeNamed? name (r :: rest) =
      match h.here? r name with
      | some cell => cell.type?
      | none => h.typeNamed? name rest := by
  unfold typeNamed? firstBound?
  rw [List.findSome?_cons]
  cases h.here? r name <;> rfl

theorem resolveType_eq (h : Heap) (t : TypeDesc) (r : Ref .scope) :
    h.resolveType t r =
      if t.kind ≠ .object ∨ t.isNull ∨ t.isFunction then t
      else match h.typeNamed? t.base.name (h.outward r) with
        | some bound => .arrayOfAt t.dimensions bound
        | none => t := by
  unfold resolveType typeNamed?
  rw [lookup_eq]
  cases h.firstBound? t.base.name (h.outward r) with
  | none => rfl
  | some cell =>
    obtain ⟨content, modifiers, declared⟩ := cell
    cases content with
    | computed p => rfl
    | plain value => cases value <;> rfl

end Heap

/-- A scope that could be left aside on the way out: it binds `this` alone, and from there outward `this` stands
for no type. -/
structure Heap.Aside (h : Heap) (between outer : Ref .scope) : Prop where
  leaves : (h.scope between).enclosing = some outer
  grounded : h.Grounded between
  bare : ∀ name, name ≠ "this" → h.here? between name = none
  untyped : ∀ r cell, r.index ≤ between.index → h.here? r "this" = some cell → cell.type? = none

namespace Heap.Aside

variable {h : Heap} {between outer r : Ref .scope} (aside : h.Aside between outer)

include aside

theorem outer_lt : outer.index < between.index :=
  aside.grounded.older aside.leaves

theorem outer_grounded : h.Grounded outer :=
  aside.grounded.outer aside.leaves

theorem typeNamed?_this (grounded : h.Grounded r) (older : r.index ≤ between.index) (fuel : Nat) :
    h.typeNamed? "this" (h.outwardFrom fuel r) = none := by
  induction grounded generalizing fuel with
  | @intro r inside before _ ih =>
    cases fuel with
    | zero => rfl
    | succ fuel =>
      rw [Heap.outwardFrom, Heap.typeNamed?_cons]
      cases found : h.here? r "this" with
      | some cell => exact aside.untyped r cell older found
      | none =>
        cases around : (h.scope r).enclosing with
        | none => rfl
        | some p => exact ih p around (Nat.le_trans (Nat.le_of_lt (before p around)) older) fuel

theorem typeNamed? (name : String) {fuel fuel' : Nat} (enough : outer.index < fuel) (enough' : between.index < fuel') :
    h.typeNamed? name (h.outwardFrom fuel outer) = h.typeNamed? name (h.outwardFrom fuel' between) := by
  have older := aside.outer_lt
  by_cases this : name = "this"
  · subst this
    rw [aside.typeNamed?_this aside.grounded (Nat.le_refl _),
      aside.typeNamed?_this aside.outer_grounded (Nat.le_of_lt older)]
  · obtain ⟨fuel', rfl⟩ : ∃ less, fuel' = less + 1 := ⟨fuel' - 1, by omega⟩
    rw [Heap.outwardFrom.eq_def _ _ between]
    simp only [Heap.typeNamed?_cons, aside.bare name this, aside.leaves]
    rw [aside.outer_grounded.outwardFrom enough (show outer.index < fuel' by omega)]

theorem resolveType (t : TypeDesc) : h.resolveType t outer = h.resolveType t between := by
  rw [Heap.resolveType_eq, Heap.resolveType_eq, Heap.outward, Heap.outward,
    aside.typeNamed? _ (Nat.lt_succ_self _) (Nat.lt_succ_self _)]

theorem later {h' : Heap} (further : h.Extends h') (bare : ∀ name, name ≠ "this" → h'.here? between name = none)
    (untyped : ∀ r cell, r.index ≤ between.index → h'.here? r "this" = some cell → cell.type? = none) :
    h'.Aside between outer where
  leaves := by rw [further.enclosing _ aside.grounded.inside, aside.leaves]
  grounded := aside.grounded.mono further
  bare := bare
  untyped := untyped

theorem addScope (s : Scope) : (h.addScope s).2.Aside between outer := by
  have here {r : Ref .scope} (older : r.index ≤ between.index) (name : String) :
      (h.addScope s).2.here? r name = h.here? r name := by
    have := aside.grounded.inside
    rw [Heap.here?_addScope, if_neg (by omega)]
  refine aside.later (.addScope h s) (fun name other => ?_) fun r cell older found => ?_
  · rw [here (Nat.le_refl _), aside.bare name other]
  · rw [here older] at found
    exact aside.untyped r cell older found

end Heap.Aside

/-- The way out from `inner` leads through `between` to `outer`. -/
structure Detour where
  inner : Ref .scope
  between : Ref .scope
  outer : Ref .scope

namespace Detour

def straight (D : Detour) (h : Heap) : Heap :=
  h.rescoped (h.scopes.modify D.inner.index fun s => { s with enclosing := some D.outer })

/-- In a heap there is the detour, and no class has its scope where the detour begins. -/
structure Lies (D : Detour) (h : Heap) : Prop where
  enters : (h.scope D.inner).enclosing = some D.between
  grounded : h.Grounded D.inner
  aside : h.Aside D.between D.outer
  classes : ∀ c, h.Grounded (h.cls c).scope ∧ (h.cls c).scope ≠ D.inner

variable {D : Detour} {h h' : Heap} {r : Ref .scope}

theorem scope_straight (D : Detour) (h : Heap) (r : Ref .scope) :
    (D.straight h).scope r =
      if D.inner.index = r.index ∧ r.index < h.scopes.size then { h.scope r with enclosing := some D.outer }
      else h.scope r :=
  getD_modify h.scopes _ default D.inner.index r.index

@[simp]
theorem here?_straight (D : Detour) (h : Heap) (r : Ref .scope) (name : String) :
    (D.straight h).here? r name = h.here? r name := by
  rw [Heap.here?, Heap.here?, scope_straight]
  split <;> rfl

theorem scope_straight_other (other : r ≠ D.inner) : (D.straight h).scope r = h.scope r := by
  rw [scope_straight, if_neg fun both => other (Ref.ext_index both.1.symm)]

theorem typeNamed?_straight (D : Detour) (h : Heap) (name : String) (scopes : List (Ref .scope)) :
    (D.straight h).typeNamed? name scopes = h.typeNamed? name scopes := by
  simp [Heap.typeNamed?, Heap.firstBound?]

theorem straight_addScope (inside : D.inner.index < h.scopes.size) (s : Scope) :
    (D.straight h).addScope s = ((h.addScope s).1, D.straight (h.addScope s).2) := by
  have pushed : (h.scopes.modify D.inner.index fun s => { s with enclosing := some D.outer }).push s =
      (h.scopes.push s).modify D.inner.index fun s => { s with enclosing := some D.outer } := by
    refine Array.ext (by simp) fun i before after => ?_
    simp only [Array.getElem_push, Array.getElem_modify, Array.size_modify]
    split
    · rfl
    · rename_i last
      rw [if_neg (by omega)]
  simp only [straight, Heap.addScope, Heap.rescoped, Array.size_modify, pushed]

theorem straight_define (D : Detour) (h : Heap) (r : Ref .scope) (name : String) (cell : Cell) :
    (D.straight h).define r name cell = D.straight (h.define r name cell) := by
  have both : (h.scopes.modify D.inner.index fun s => { s with enclosing := some D.outer }).modify r.index
        (fun s => { s with names := s.names.insert name cell }) =
      (h.scopes.modify r.index fun s => { s with names := s.names.insert name cell }).modify D.inner.index
        fun s => { s with enclosing := some D.outer } := by
    refine Array.ext (by simp) fun i before after => ?_
    simp only [Array.getElem_modify]
    split <;> split <;> rfl
  simp only [straight, Heap.define, Heap.rescoped, both]

theorem ancestor?_straight {distance : Nat} (short : ∀ j < distance, h.ancestor? j r ≠ some D.inner) :
    (D.straight h).ancestor? distance r = h.ancestor? distance r := by
  induction distance generalizing r with
  | zero => rfl
  | succ distance ih =>
    have other : r ≠ D.inner := fun same => short 0 (Nat.succ_pos _) (by rw [same]; rfl)
    unfold Heap.ancestor?
    rw [scope_straight_other other]
    cases around : (h.scope r).enclosing with
    | none => rfl
    | some p =>
      refine ih fun j below reached => short (j + 1) (Nat.succ_lt_succ below) ?_
      rw [Heap.ancestor?, around]
      exact reached

theorem outwardFrom_straight (grounded : h.Grounded r) (older : r.index < D.inner.index) (fuel : Nat) :
    (D.straight h).outwardFrom fuel r = h.outwardFrom fuel r := by
  induction grounded generalizing fuel with
  | @intro r inside before _ ih =>
    cases fuel with
    | zero => rfl
    | succ fuel =>
      rw [Heap.outwardFrom, Heap.outwardFrom, scope_straight_other fun same => by simp [same] at older]
      cases around : (h.scope r).enclosing with
      | none => rfl
      | some p => simp only [ih p around (Nat.lt_trans (before p around) older) fuel]

namespace Lies

variable (lies : D.Lies h)

include lies

theorem inside : D.inner.index < h.scopes.size :=
  lies.grounded.inside

theorem between_lt : D.between.index < D.inner.index :=
  lies.grounded.older lies.enters

theorem isGlobal (r : Ref .scope) : (D.straight h).isGlobal r = h.isGlobal r := by
  unfold Heap.isGlobal
  rw [scope_straight]
  split
  · rename_i here
    obtain rfl : D.inner = r := Ref.ext_index here.1
    rw [lies.enters]
    rfl
  · rfl

theorem later (further : h.Extends h') (aside : h'.Aside D.between D.outer)
    (classes : ∀ c, (h'.cls c).scope = (h.cls c).scope ∨ h'.Grounded (h'.cls c).scope ∧ (h'.cls c).scope ≠ D.inner) :
    D.Lies h' where
  enters := by rw [further.enclosing _ lies.inside, lies.enters]
  grounded := lies.grounded.mono further
  aside := aside
  classes c := by
    rcases classes c with same | new
    · rw [same]
      exact ⟨(lies.classes c).1.mono further, (lies.classes c).2⟩
    · exact new

theorem sameScopes (same : h'.scopes = h.scopes)
    (classes : ∀ c, (h'.cls c).scope = (h.cls c).scope ∨ h.Grounded (h'.cls c).scope ∧ (h'.cls c).scope ≠ D.inner) :
    D.Lies h' := by
  have here (r : Ref .scope) (name : String) : h'.here? r name = h.here? r name := by
    rw [Heap.here?, Heap.here?, Heap.scope, Heap.scope, same]
  have further : h.Extends h' := .of_scopes same
  refine lies.later further (lies.aside.later further (fun name other => ?_) fun r cell older found => ?_) fun c => ?_
  · rw [here, lies.aside.bare name other]
  · rw [here] at found
    exact lies.aside.untyped r cell older found
  · exact (classes c).imp_right fun new => ⟨new.1.mono further, new.2⟩

theorem addScope (s : Scope) : D.Lies (h.addScope s).2 :=
  lies.later (.addScope h s) (lies.aside.addScope s) fun _ => .inl rfl

/-- Names are bound further inside, or again where they were. -/
theorem define {target : Ref .scope} {name : String} {cell : Cell}
    (allowed : D.inner.index ≤ target.index ∨ name ≠ "this" ∧ (h.here? target name).isSome = true) :
    D.Lies (h.define target name cell) := by
  have before := lies.between_lt
  have further := Heap.Extends.define h target name cell
  refine lies.later further (lies.aside.later further (fun other proper => ?_) fun r found older bound => ?_)
    fun c => .inl rfl
  · rw [Heap.here?_define, if_neg, lies.aside.bare other proper]
    rintro ⟨rfl, rfl, -⟩
    rcases allowed with inner | ⟨-, there⟩
    · omega
    · rw [lies.aside.bare other proper] at there
      cases there
  · rw [Heap.here?_define, if_neg] at bound
    · exact lies.aside.untyped r found older bound
    · rintro ⟨rfl, rfl, -⟩
      rcases allowed with inner | ⟨proper, -⟩
      · omega
      · exact proper rfl

theorem typeNamed? (grounded : h.Grounded r) (name : String) {fuel : Nat} (enough : r.index < fuel) :
    h.typeNamed? name ((D.straight h).outwardFrom fuel r) = h.typeNamed? name (h.outwardFrom fuel r) := by
  induction grounded generalizing fuel with
  | @intro r inside before outer ih =>
    obtain ⟨fuel, rfl⟩ := Nat.exists_eq_succ_of_ne_zero (Nat.ne_of_gt (Nat.zero_lt_of_lt enough))
    rw [Heap.outwardFrom, Heap.outwardFrom, Heap.typeNamed?_cons, Heap.typeNamed?_cons]
    cases h.here? r name with
    | some cell => rfl
    | none =>
      by_cases here : r = D.inner
      · subst here
        have straight : ((D.straight h).scope D.inner).enclosing = some D.outer := by
          rw [scope_straight, if_pos ⟨rfl, inside⟩]
        simp only [straight, lies.enters]
        have := lies.aside.outer_lt
        have := lies.between_lt
        rw [outwardFrom_straight lies.aside.outer_grounded (by omega)]
        exact lies.aside.typeNamed? name (by omega) (by omega)
      · rw [scope_straight_other here]
        cases around : (h.scope r).enclosing with
        | none => rfl
        | some p =>
          have := before p around
          exact ih p around (by omega)

theorem resolveType (grounded : h.Grounded r) (t : TypeDesc) :
    (D.straight h).resolveType t r = h.resolveType t r := by
  rw [Heap.resolveType_eq, Heap.resolveType_eq, typeNamed?_straight]
  rw [Heap.outward, lies.typeNamed? grounded _ (Nat.lt_succ_self _)]
  rfl

end Lies

end Detour

end Treewalk
