import Treewalk.Machine
import Treewalk.Proofs.Growth

/-!
Two machines side by side. They differ in the bindings of some scopes and in what has been written to the
error text, and in nothing else. Functions do not close over the scopes in question, so that only code that
runs inside these scopes could tell the machines apart. A loop that copies its variable for each time round
is compared in this way with one that does not: the copy of the one is the variable of the other.
-/

namespace Treewalk

def Heap.rescoped (h : Heap) (scopes : Array Scope) : Heap :=
  { h with scopes := scopes }

namespace Heap

section

variable (h : Heap) (scopes : Array Scope)

@[simp]
theorem rescoped_function (f : Ref .function) : (h.rescoped scopes).function f = h.function f :=
  rfl

@[simp]
theorem rescoped_cls (c : Ref .cls) : (h.rescoped scopes).cls c = h.cls c :=
  rfl

@[simp]
theorem rescoped_object (o : Ref .object) : (h.rescoped scopes).object o = h.object o :=
  rfl

@[simp]
theorem rescoped_array (a : Ref .array) : (h.rescoped scopes).array a = h.array a :=
  rfl

@[simp]
theorem rescoped_property (p : Ref .property) : (h.rescoped scopes).property p = h.property p :=
  rfl

@[simp]
theorem rescoped_interface (i : Ref .interface) : (h.rescoped scopes).interface i = h.interface i :=
  rfl

@[simp]
theorem rescoped_enumeration (e : Ref .enumeration) :
    (h.rescoped scopes).enumeration e = h.enumeration e :=
  rfl

theorem rescoped_lineageFrom (fuel : Nat) (c : Ref .cls) :
    (h.rescoped scopes).lineageFrom fuel c = h.lineageFrom fuel c := by
  induction fuel generalizing c with
  | zero => rfl
  | succ fuel ih => simp [lineageFrom, ih]

@[simp]
theorem rescoped_lineage (c : Ref .cls) : (h.rescoped scopes).lineage c = h.lineage c :=
  h.rescoped_lineageFrom scopes _ c

@[simp]
theorem rescoped_findMethod? (c : Ref .cls) (name : String) :
    (h.rescoped scopes).findMethod? c name = h.findMethod? c name := by
  simp [findMethod?]

@[simp]
theorem rescoped_findField? (c : Ref .cls) (name : String) :
    (h.rescoped scopes).findField? c name = h.findField? c name := by
  simp [findField?]

@[simp]
theorem rescoped_fieldOwner? (c : Ref .cls) (name : String) :
    (h.rescoped scopes).fieldOwner? c name = h.fieldOwner? c name := by
  simp [fieldOwner?]

@[simp]
theorem rescoped_constructor? (c : Ref .cls) : (h.rescoped scopes).constructor? c = h.constructor? c := by
  simp [constructor?]

@[simp]
theorem rescoped_instanceFields (c : Ref .cls) :
    (h.rescoped scopes).instanceFields c = h.instanceFields c := by
  simp [instanceFields]

@[simp]
theorem rescoped_scopeWithin (receiver : Value) (closure : Ref .scope) :
    (h.rescoped scopes).scopeWithin receiver closure = h.scopeWithin receiver closure := by
  cases receiver <;> rfl

@[simp]
theorem rescoped_typeOf (value : Value) : (h.rescoped scopes).typeOf value = h.typeOf value := by
  cases value <;> rfl

@[simp]
theorem rescoped_conforms (value : Value) (t : TypeDesc) :
    (h.rescoped scopes).conforms value t = h.conforms value t := by
  have isNamed (name : String) (c : Ref .cls) : (h.rescoped scopes).isNamed name c = h.isNamed name c := rfl
  have isA (c : Ref .cls) (name : String) : (h.rescoped scopes).isA c name = h.isA c name := by
    simp [Heap.isA, funext (isNamed name)]
  simp [conforms, isA]

@[simp]
theorem rescoped_text (value : Value) : (h.rescoped scopes).text value = h.text value := by
  have within (fuel : Nat) (value : Value) :
      (h.rescoped scopes).textWithin fuel value = h.textWithin fuel value := by
    induction fuel generalizing value with
    | zero => cases value <;> simp [textWithin]
    | succ fuel ih => cases value <;> simp [textWithin, funext ih]
  exact within _ value

@[simp]
theorem rescoped_checkType (declared : Option TypeDesc) (name : String) (value : Value) :
    (h.rescoped scopes).checkType declared name value = h.checkType declared name value := by
  cases declared <;> simp [checkType]

@[simp]
theorem rescoped_writeCell (cell : Cell) (name : String) (value : Value) :
    (h.rescoped scopes).writeCell cell name value = h.writeCell cell name value := by
  simp [writeCell]

@[simp]
theorem rescoped_getElement (a : Ref .array) (index : Float) :
    (h.rescoped scopes).getElement a index = h.getElement a index :=
  rfl

@[simp]
theorem rescoped_slotFor (a : Ref .array) (index : Float) (value : Value) :
    (h.rescoped scopes).slotFor a index value = h.slotFor a index value := by
  simp [slotFor]

@[simp]
theorem rescoped_defaultFor? (f : Function) (i : Ref .interface) :
    (h.rescoped scopes).defaultFor? f i = h.defaultFor? f i :=
  rfl

@[simp]
theorem rescoped_defaults (i : Ref .interface) : (h.rescoped scopes).defaults i = h.defaults i :=
  rfl

@[simp]
theorem rescoped_checkConformance (c : Class) (i : Interface) :
    (h.rescoped scopes).checkConformance c i = h.checkConformance c i := by
  have method (className : String) (found : Option (Ref .function)) (name : String) :
      (h.rescoped scopes).checkMethod className found i name = h.checkMethod className found i name := rfl
  simp [checkConformance, method, methodOf?, fieldOf?]

end

end Heap

def Machine.beside (m : Machine) (scopes : Array Scope) (err : String) : Machine :=
  { m with heap := m.heap.rescoped scopes, err := err }

/-- A variable that the first machine has in a copy and the second one at home. -/
structure Focus where
  home : Ref .scope
  copy : Ref .scope
  name : String
  apart : copy ≠ home

/-- Which of two runs may run out of fuel before the other does. -/
inductive Pace where
  | even
  | first
  | second

structure Tie where
  /-- The scopes over which no function closes. -/
  own : Ref .scope → Prop
  /-- The scopes that nothing reaches any more. -/
  dead : Ref .scope → Prop
  focus : Option Focus
  /-- What the error texts begin with. -/
  before : String × String
  pace : Pace
  dead_own : ∀ r, dead r → own r
  focus_own : ∀ f ∈ focus, own f.home ∧ own f.copy
  focus_alive : ∀ f ∈ focus, ¬dead f.home ∧ ¬dead f.copy

/-- A later heap has the scopes of an earlier one inside each other as they were, and all that was bound in
them is bound. -/
structure Heap.Extends (h later : Heap) : Prop where
  scopes : h.scopes.size ≤ later.scopes.size
  enclosing : ∀ r : Ref .scope, r.index < h.scopes.size →
    (later.scope r).enclosing = (h.scope r).enclosing
  bound : ∀ r name, (h.here? r name).isSome = true → (later.here? r name).isSome = true

namespace Heap.Extends

variable {h h' h'' : Heap}

theorem refl (h : Heap) : h.Extends h :=
  ⟨Nat.le_refl _, fun _ _ => rfl, fun _ _ bound => bound⟩

theorem trans (first : h.Extends h') (second : h'.Extends h'') : h.Extends h'' where
  scopes := Nat.le_trans first.scopes second.scopes
  enclosing r inside := by
    rw [second.enclosing r (Nat.lt_of_lt_of_le inside first.scopes), first.enclosing r inside]
  bound r name bound := second.bound r name (first.bound r name bound)

theorem of_scopes (same : h'.scopes = h.scopes) : h.Extends h' where
  scopes := Nat.le_of_eq (by rw [same])
  enclosing r _ := by rw [Heap.scope, Heap.scope, same]
  bound r name bound := by
    rw [Heap.here?, Heap.scope] at bound ⊢
    rw [same]
    exact bound

theorem addScope (h : Heap) (s : Scope) : h.Extends (h.addScope s).2 where
  scopes := by simp [Heap.addScope]
  enclosing r inside := by rw [scope_addScope, if_neg (Nat.ne_of_lt inside)]
  bound r name bound := by rwa [here?_addScope, if_neg (Nat.ne_of_lt (lt_of_here? bound))]

theorem define (h : Heap) (r : Ref .scope) (name : String) (cell : Cell) :
    h.Extends (h.define r name cell) where
  scopes := by simp [Heap.define]
  enclosing s _ := by
    rw [scope_define]
    split <;> rfl
  bound s other bound := by
    rw [here?_define]
    split
    · rfl
    · exact bound

end Heap.Extends

namespace Tie

variable {T : Tie} {h h' : Heap} {r : Ref .scope}

/-- No scope from this one outward is one of those that the machines have for themselves. -/
inductive Clear (T : Tie) (h : Heap) : Ref .scope → Prop where
  | intro {r : Ref .scope} (inside : r.index < h.scopes.size) (away : ¬T.own r)
      (outer : ∀ p ∈ (h.scope r).enclosing, Clear T h p) : Clear T h r

theorem Clear.inside : T.Clear h r → r.index < h.scopes.size
  | .intro inside _ _ => inside

theorem Clear.away : T.Clear h r → ¬T.own r
  | .intro _ away _ => away

theorem Clear.outer {p : Ref .scope} : T.Clear h r → (h.scope r).enclosing = some p → T.Clear h p
  | .intro _ _ outer, around => outer p around

theorem Clear.transfer {T' : Tie} (clear : T.Clear h r) (later : h.Extends h')
    (fewer : ∀ s, s.index < h.scopes.size → T'.own s → T.own s) : T'.Clear h' r := by
  induction clear with
  | @intro r inside away _ ih =>
    refine .intro (Nat.lt_of_lt_of_le inside later.scopes) (fun mine => away (fewer r inside mine)) ?_
    intro p around
    rw [later.enclosing r inside] at around
    exact ih p around

theorem Clear.mono (clear : T.Clear h r) (later : h.Extends h') : T.Clear h' r :=
  clear.transfer later fun _ _ mine => mine

def Bears (T : Tie) (h : Heap) (f : Function) : Prop :=
  ∀ body closure, f.body = .user body closure → T.Clear h closure

theorem Bears.mono {f : Function} (bears : T.Bears h f) (later : h.Extends h') : T.Bears h' f :=
  fun body closure user => (bears body closure user).mono later

theorem Clear.bears (clear : T.Clear h r) (decl : FunctionDecl) (constructs : Bool) :
    T.Bears h (.ofDecl decl r constructs) := by
  intro body closure user
  unfold Function.ofDecl at user
  cases written : decl.body with
  | none => simp [written] at user
  | some statements =>
    simp only [written, Body.user.injEq] at user
    exact user.2 ▸ clear

/-- All that is in the heap keeps away from the scopes that the machines have for themselves. -/
structure Guarded (T : Tie) (h : Heap) : Prop where
  globals : T.Clear h .globals
  outermost : (h.scope .globals).enclosing = none
  older : ∀ r p, (h.scope r).enclosing = some p → p.index < r.index
  own : ∀ r, T.own r → r.index < h.scopes.size
  functions : ∀ f, T.Bears h (h.function f)
  classes : ∀ c, T.Clear h (h.cls c).scope
  objects : ∀ o, ∀ s ∈ (h.object o).templateScope, T.Clear h s

/-- Another tie, and a heap with the same records apart from its scopes. -/
theorem Guarded.transfer {T' : Tie} (guarded : T.Guarded h) (later : h.Extends h')
    (older : ∀ r p, (h'.scope r).enclosing = some p → p.index < r.index)
    (own : ∀ r, T'.own r → r.index < h'.scopes.size)
    (fewer : ∀ r, r.index < h.scopes.size → T'.own r → T.own r)
    (records : h' = h.rescoped h'.scopes) : T'.Guarded h' where
  globals := guarded.globals.transfer later fewer
  outermost := by rw [later.enclosing _ guarded.globals.inside, guarded.outermost]
  older := older
  own := own
  functions f body closure user := by
    rw [records] at user
    exact (guarded.functions f body closure user).transfer later fewer
  classes c := by
    have same : h'.cls c = h.cls c := by rw [records, Heap.rescoped_cls]
    rw [same]
    exact (guarded.classes c).transfer later fewer
  objects o s member := by
    have same : h'.object o = h.object o := by rw [records, Heap.rescoped_object]
    rw [same] at member
    exact (guarded.objects o s member).transfer later fewer

theorem Guarded.next (guarded : T.Guarded h) (later : h.Extends h')
    (older : ∀ r p, (h'.scope r).enclosing = some p → p.index < r.index)
    (functions : ∀ f, h'.function f = h.function f ∨ T.Bears h' (h'.function f) := by
      exact fun _ => .inl rfl)
    (classes : ∀ c, (h'.cls c).scope = (h.cls c).scope ∨ T.Clear h' (h'.cls c).scope := by
      exact fun _ => .inl rfl)
    (objects : ∀ o, (h'.object o).templateScope = (h.object o).templateScope ∨
      ∀ s ∈ (h'.object o).templateScope, T.Clear h' s := by exact fun _ => .inl rfl) :
    T.Guarded h' where
  globals := guarded.globals.mono later
  outermost := by rw [later.enclosing _ guarded.globals.inside, guarded.outermost]
  older := older
  own s mine := Nat.lt_of_lt_of_le (guarded.own s mine) later.scopes
  functions f := by
    rcases functions f with same | bears
    · rw [same]
      exact (guarded.functions f).mono later
    · exact bears
  classes c := by
    rcases classes c with same | clear
    · rw [same]
      exact (guarded.classes c).mono later
    · exact clear
  objects o := by
    rcases objects o with same | clear
    · rw [same]
      exact fun s member => (guarded.objects o s member).mono later
    · exact clear

theorem Guarded.sameScopes (guarded : T.Guarded h) (same : h'.scopes = h.scopes)
    (functions : ∀ f, h'.function f = h.function f ∨ T.Bears h' (h'.function f) := by
      exact fun _ => .inl rfl)
    (classes : ∀ c, (h'.cls c).scope = (h.cls c).scope ∨ T.Clear h' (h'.cls c).scope := by
      exact fun _ => .inl rfl)
    (objects : ∀ o, (h'.object o).templateScope = (h.object o).templateScope ∨
      ∀ s ∈ (h'.object o).templateScope, T.Clear h' s := by exact fun _ => .inl rfl) :
    T.Guarded h' := by
  refine guarded.next (.of_scopes same) (fun r p around => ?_) functions classes objects
  rw [Heap.scope, same] at around
  exact guarded.older r p around

theorem Guarded.addFunction (guarded : T.Guarded h) {f : Function} (bears : T.Bears h f) :
    T.Guarded (h.addFunction f).2 := by
  refine guarded.sameScopes rfl fun g => ?_
  rw [Heap.function_addFunction]
  split
  · exact .inr (bears.mono (.of_scopes rfl))
  · exact .inl rfl

theorem Guarded.addClass (guarded : T.Guarded h) {c : Class} (clear : T.Clear h c.scope) :
    T.Guarded (h.addClass c).2 := by
  refine guarded.sameScopes rfl (fun _ => .inl rfl) fun d => ?_
  rw [Heap.cls_addClass]
  split
  · exact .inr (clear.mono (.of_scopes rfl))
  · exact .inl rfl

theorem Guarded.addObject (guarded : T.Guarded h) {o : Object}
    (clear : ∀ s ∈ o.templateScope, T.Clear h s) : T.Guarded (h.addObject o).2 := by
  refine guarded.sameScopes rfl (fun _ => .inl rfl) (fun _ => .inl rfl) fun d => ?_
  rw [Heap.object_addObject]
  split
  · exact .inr fun s member => (clear s member).mono (.of_scopes rfl)
  · exact .inl rfl

theorem Guarded.setFields (guarded : T.Guarded h) (o : Ref .object) (fields : NameMap Cell) :
    T.Guarded (h.setFields o fields) := by
  refine guarded.sameScopes rfl (fun _ => .inl rfl) (fun _ => .inl rfl) fun d => ?_
  rw [Heap.object_setFields]
  split <;> exact .inl rfl

theorem Guarded.setField (guarded : T.Guarded h) (o : Ref .object) (name : String) (cell : Cell) :
    T.Guarded (h.setField o name cell) := by
  refine guarded.sameScopes rfl (fun _ => .inl rfl) (fun _ => .inl rfl) fun d => ?_
  rw [Heap.object_setField]
  split <;> exact .inl rfl

theorem Guarded.setClassFields (guarded : T.Guarded h) (c : Ref .cls) (fields : NameMap Cell) :
    T.Guarded (h.setClassFields c fields) := by
  refine guarded.sameScopes rfl (fun _ => .inl rfl) fun d => ?_
  rw [Heap.cls_setClassFields]
  split <;> exact .inl rfl

theorem Guarded.setClassField (guarded : T.Guarded h) (c : Ref .cls) (name : String) (cell : Cell) :
    T.Guarded (h.setClassField c name cell) := by
  refine guarded.sameScopes rfl (fun _ => .inl rfl) fun d => ?_
  rw [Heap.cls_setClassField]
  split <;> exact .inl rfl

theorem Guarded.addScope (guarded : T.Guarded h) {s : Scope}
    (around : ∀ p ∈ s.enclosing, p.index < h.scopes.size) : T.Guarded (h.addScope s).2 := by
  refine guarded.next (.addScope h s) fun r p enclosing => ?_
  rw [Heap.scope_addScope] at enclosing
  split at enclosing
  · rename_i last
    rw [last]
    exact around p enclosing
  · exact guarded.older r p enclosing

theorem Guarded.define (guarded : T.Guarded h) (r : Ref .scope) (name : String) (cell : Cell) :
    T.Guarded (h.define r name cell) := by
  refine guarded.next (.define h r name cell) fun s p enclosing => ?_
  rw [Heap.scope_define] at enclosing
  split at enclosing <;> exact guarded.older s p enclosing

theorem Clear.child {s : Scope} (guarded : T.Guarded h) (around : ∀ p ∈ s.enclosing, T.Clear h p) :
    T.Clear (h.addScope s).2 ⟨h.scopes.size⟩ := by
  refine .intro (by simp [Heap.addScope]) (fun mine => Nat.lt_irrefl _ (guarded.own _ mine)) ?_
  rw [Heap.scope_addScope, if_pos rfl]
  exact fun p member => (around p member).mono (.addScope h s)

/-- The scopes of two machines, side by side. -/
structure Alike (T : Tie) (h h' : Heap) : Prop where
  size : h'.scopes.size = h.scopes.size
  enclosing : ∀ r, (h'.scope r).enclosing = (h.scope r).enclosing
  same : ∀ r, ¬T.own r → h'.scope r = h.scope r
  here : ∀ r name, ¬T.dead r → (∀ f ∈ T.focus, name = f.name → r ≠ f.home ∧ r ≠ f.copy) →
    h'.here? r name = h.here? r name
  moved : ∀ f ∈ T.focus, h'.here? f.home f.name = h.here? f.copy f.name ∧
    (h.here? f.copy f.name).isSome = true ∧ h'.here? f.copy f.name = none

namespace Alike

variable {S : Array Scope}

/-- Any two machines with the same scopes, as long as no variable is in focus. -/
theorem refl (h : Heap) (still : T.focus = none) : T.Alike h h :=
  ⟨rfl, fun _ => rfl, fun _ _ => rfl, fun _ _ _ _ => rfl, by simp [still]⟩

theorem of_own (alike : T.Alike h h') (away : ¬T.own r) (name : String) :
    h'.here? r name = h.here? r name := by
  rw [Heap.here?, Heap.here?, alike.same r away]

theorem outwardFrom (alike : T.Alike h h') (fuel : Nat) (r : Ref .scope) :
    h'.outwardFrom fuel r = h.outwardFrom fuel r := by
  induction fuel generalizing r with
  | zero => rfl
  | succ fuel ih =>
    simp only [Heap.outwardFrom, alike.enclosing]
    split
    · rw [ih]
    · rfl

theorem ancestor? (alike : T.Alike h h') (distance : Nat) (r : Ref .scope) :
    h'.ancestor? distance r = h.ancestor? distance r := by
  induction distance generalizing r with
  | zero => rfl
  | succ distance ih =>
    simp only [Heap.ancestor?, alike.enclosing]
    cases (h.scope r).enclosing with
    | none => rfl
    | some p => exact ih p

theorem of_scopes {k : Heap} (alike : T.Alike h (h.rescoped S)) (same : k.scopes = h.scopes) :
    T.Alike k (k.rescoped S) := by
  have scope (r : Ref .scope) : k.scope r = h.scope r := by rw [Heap.scope, Heap.scope, same]
  have here (r : Ref .scope) (name : String) : k.here? r name = h.here? r name := by
    rw [Heap.here?, Heap.here?, scope]
  refine ⟨?_, fun r => ?_, fun r away => ?_, fun r name alive apart => ?_, fun f focus => ?_⟩
  · rw [same]
    exact alike.size
  · rw [scope]
    exact alike.enclosing r
  · rw [scope]
    exact alike.same r away
  · rw [here]
    exact alike.here r name alive apart
  · rw [here]
    exact alike.moved f focus

theorem addScope (alike : T.Alike h (h.rescoped S)) (guarded : T.Guarded h) (s : Scope) :
    T.Alike (h.addScope s).2 ((h.rescoped S).addScope s).2 := by
  have size : S.size = h.scopes.size := alike.size
  have scope (r : Ref .scope) : ((h.rescoped S).addScope s).2.scope r =
      if r.index = h.scopes.size then s else (h.rescoped S).scope r := by
    rw [Heap.scope_addScope, alike.size]
  have new {r : Ref .scope} (mine : T.own r) : r.index ≠ h.scopes.size :=
    Nat.ne_of_lt (guarded.own r mine)
  refine ⟨by simp [Heap.addScope, Heap.rescoped, size], fun r => ?_, fun r away => ?_,
    fun r name alive apart => ?_, fun f focus => ?_⟩
  · rw [scope, Heap.scope_addScope]
    split
    · rfl
    · exact alike.enclosing r
  · rw [scope, Heap.scope_addScope, alike.same r away]
  · rw [Heap.here?, scope, Heap.here?, Heap.scope_addScope]
    split
    · rfl
    · exact alike.here r name alive apart
  · obtain ⟨home, copy⟩ := T.focus_own f focus
    obtain ⟨held, some, none⟩ := alike.moved f focus
    simp only [Heap.here?, scope, Heap.scope_addScope, if_neg (new home), if_neg (new copy)]
    exact ⟨held, some, none⟩

end Alike

/-- Where the two machines store a name: in the same scope, or in the copy and at home. -/
def Stores (T : Tie) (name : String) (target target' : Ref .scope) : Prop :=
  (target' = target ∧ ∀ f ∈ T.focus, name = f.name → target ≠ f.home ∧ target ≠ f.copy) ∨
    ∃ f ∈ T.focus, name = f.name ∧ target = f.copy ∧ target' = f.home

/-- Two machines that are tied together: the second one has scopes and an error text of its own. -/
structure Holds (T : Tie) (m : Machine) (scopes : Array Scope) (err : String) : Prop where
  err : ∃ text, m.err = T.before.1 ++ text ∧ err = T.before.2 ++ text
  alike : T.Alike m.heap (m.heap.rescoped scopes)
  guarded : T.Guarded m.heap
  scope : m.scope.index < m.heap.scopes.size

theorem Alike.define {S : Array Scope} {name : String} {target target' : Ref .scope}
    (alike : T.Alike h (h.rescoped S)) (guarded : T.Guarded h) (stores : T.Stores name target target')
    (cell : Cell) :
    T.Alike (h.define target name cell) ((h.rescoped S).define target' name cell) := by
  have size : S.size = h.scopes.size := alike.size
  have sizes : (h.rescoped S).scopes.size = h.scopes.size := alike.size
  refine ⟨by simp [Heap.define, Heap.rescoped, size], fun r => ?_, fun r away => ?_,
    fun r other alive apart => ?_, fun f focus => ?_⟩
  · have kept (g : Heap) (s : Ref .scope) :
        ((g.define s name cell).scope r).enclosing = (g.scope r).enclosing := by
      rw [Heap.scope_define]
      split <;> rfl
    rw [kept, kept, alike.enclosing]
  · rw [Heap.scope_define, Heap.scope_define, sizes, alike.same r away]
    rcases stores with ⟨rfl, -⟩ | ⟨f, focus, -, rfl, rfl⟩
    · rfl
    · obtain ⟨home, copy⟩ := T.focus_own f focus
      have notHome : ¬f.home.index = r.index := fun same => away (Ref.ext_index same ▸ home)
      have notCopy : ¬f.copy.index = r.index := fun same => away (Ref.ext_index same ▸ copy)
      simp [notHome, notCopy]
  · have old := alike.here r other alive apart
    rw [Heap.here?_define, Heap.here?_define, sizes, old]
    rcases stores with ⟨rfl, -⟩ | ⟨f, focus, named, rfl, rfl⟩
    · rfl
    · have away (same : other = name) := apart f focus (same.trans named)
      rw [if_neg fun hit => (away hit.2.1).1 hit.1.symm, if_neg fun hit => (away hit.2.1).2 hit.1.symm]
  · obtain ⟨home, copy⟩ := T.focus_own f focus
    obtain ⟨held, some, none⟩ := alike.moved f focus
    rw [Heap.here?_define, Heap.here?_define, Heap.here?_define, sizes]
    rcases stores with ⟨rfl, apart⟩ | ⟨g, focus', named, rfl, rfl⟩
    · have away (same : f.name = name) := apart f focus same.symm
      rw [if_neg fun hit => (away hit.2.1).1 hit.1, if_neg fun hit => (away hit.2.1).2 hit.1,
        if_neg fun hit => (away hit.2.1).2 hit.1]
      exact ⟨held, some, none⟩
    · obtain rfl : g = f := Option.mem_unique focus' focus
      rw [if_pos ⟨rfl, named.symm, guarded.own _ home⟩, if_pos ⟨rfl, named.symm, guarded.own _ copy⟩,
        if_neg fun hit => g.apart hit.1.symm]
      exact ⟨rfl, rfl, none⟩

end Tie

end Treewalk
