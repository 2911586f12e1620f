import Treewalk.Proofs.Inside
import Treewalk.Proofs.LoopRefinement

/-!
What declarations make. The methods of a class and the accessors of its properties close over the scope that is opened
for the class, right inside the scope of the declaration; those of interfaces and of single properties close over the
scope of the declaration itself. The fields of instances stand in their class as they are declared.
-/

namespace Treewalk

open Evaluator

/-! Functions within a scope. -/

def Heap.Confines (h : Heap) (s : Ref .scope) (f : Ref .function) : Prop :=
  f.index < h.functions.size ∧ (h.function f).Confined h s

structure Property.Confined (p : Property) (h : Heap) (s : Ref .scope) : Prop where
  getter : h.Confines s p.getter
  setter : ∀ f ∈ p.setter, h.Confines s f

def Cell.Confined (cell : Cell) (h : Heap) (s : Ref .scope) : Prop :=
  ∀ p, cell.content = .computed p → p.index < h.properties.size ∧ (h.property p).Confined h s

variable {h h' : Heap} {r s t : Ref .scope}

namespace Heap

theorem Nested.trans (inner : h.Nested r s) (outer : h.Nested s t) : h.Nested r t := by
  obtain ⟨near, found⟩ := inner
  obtain ⟨far, further⟩ := outer
  refine ⟨near + far, ?_⟩
  rw [ancestor?_add, found]
  exact further

theorem Nested.later (within : h.Nested r s) (later : h.Extends h') : h'.Nested r s := by
  obtain ⟨distance, found⟩ := within
  exact ⟨distance, later.ancestor? found⟩

theorem Nested.of_enclosing (around : (h.scope r).enclosing = some s) : h.Nested r s :=
  ⟨1, by rw [ancestor?, around]; rfl⟩

theorem Confines.later {f : Ref .function} (confined : h.Confines s f) (later : h.Shelves h') : h'.Confines s f := by
  obtain ⟨inside, closes⟩ := confined
  obtain ⟨there, same⟩ := later.functions f inside
  refine ⟨there, fun body closure user => ?_⟩
  rw [same] at user
  exact (closes body closure user).later later.toExtends

theorem Confines.outer {f : Ref .function} (confined : h.Confines r f) (within : h.Nested r s) : h.Confines s f :=
  ⟨confined.1, fun body closure user => (confined.2 body closure user).trans within⟩

theorem Supplies.later {f : Ref .function} (supplied : h.Supplies f) (later : h.Shelves h') : h'.Supplies f := by
  obtain ⟨i, inside, name, member⟩ := supplied
  obtain ⟨there, same⟩ := later.interfaces i inside
  exact ⟨i, there, name, by rwa [same]⟩

theorem supplies_of_mem {i : Ref .interface} {x : String × Ref .function}
    (member : x ∈ (h.interface i).methods.entries) : h.Supplies x.2 := by
  refine ⟨i, Nat.lt_of_not_le fun outside => ?_, x.1, member⟩
  have absent : h.interface i = default := by simp [interface, Array.getD_eq_getD_getElem?, outside]
  rw [absent] at member
  cases member

end Heap

theorem Property.Confined.later {p : Property} (confined : p.Confined h s) (later : h.Shelves h') : p.Confined h' s :=
  ⟨confined.getter.later later, fun f member => (confined.setter f member).later later⟩

theorem Property.Confined.outer {p : Property} (confined : p.Confined h r) (within : h.Nested r s) :
    p.Confined h s :=
  ⟨confined.getter.outer within, fun f member => (confined.setter f member).outer within⟩

theorem Cell.Confined.later {cell : Cell} (confined : cell.Confined h s) (later : h.Shelves h') :
    cell.Confined h' s := by
  intro p computed
  obtain ⟨inside, accessors⟩ := confined p computed
  obtain ⟨there, getter, setter⟩ := later.properties p inside
  have still := accessors.later later
  exact ⟨there, by rw [getter]; exact still.getter, by rw [setter]; exact still.setter⟩

theorem Cell.Confined.outer {cell : Cell} (confined : cell.Confined h r) (within : h.Nested r s) :
    cell.Confined h s := by
  intro p computed
  obtain ⟨inside, accessors⟩ := confined p computed
  exact ⟨inside, accessors.outer within⟩

/-- Binding a function to a receiver keeps it within a scope, if the receiver does not bring a scope of its own. -/
theorem Evaluator.bind_confined {f : Function} {m : Machine} (receiver : Value) (confined : f.Confined m.heap s)
    (stays : ∀ closure, m.heap.Nested closure s → m.heap.Nested (m.heap.scopeWithin receiver closure) s) :
    ∃ g after, bind f receiver m = .done (.ok g after) ∧ m.heap.Shelves after.heap ∧ g.Confined after.heap s := by
  unfold bind
  cases user : f.body with
  | user body closure =>
    have within := stays closure (confined body closure user)
    refine ⟨_, _, rfl, .addScope _ _, fun _ _ user => ?_⟩
    cases user
    refine .trans (.of_enclosing ?_) (within.later (.addScope _ _))
    exact congrArg Scope.enclosing ((Heap.scope_addScope ..).trans (if_pos rfl))
  | native native _ =>
    refine ⟨_, m, rfl, .refl _, fun _ _ user => ?_⟩
    cases user
  | missing => exact ⟨f, m, rfl, .refl _, confined⟩

/-! Members of classes and interfaces. -/

namespace Evaluator

variable {fuel : Nat} {closure scope : Ref .scope}

theorem addFunction_yields (within : h.Nested closure s) (decl : FunctionDecl) (constructs : Bool) :
    (Run.allocate (·.addFunction (.ofDecl decl closure constructs))).Yields fuel h fun h' f => h'.Confines s f := by
  let f : Function := .ofDecl decl closure constructs
  refine .allocate fun h' later => ⟨.addFunction h' f, by simp [Heap.addFunction], fun body outer user => ?_⟩
  rw [(h'.function_addFunction f (h'.addFunction f).1).trans (if_pos rfl)] at user
  dsimp only [f, Function.ofDecl] at user
  split at user
  · cases user
    exact (within.later later.toExtends).later (.of_scopes rfl)
  · cases user

theorem declaredProperty_yields (within : h.Nested closure s) (decl : PropertyDecl) (declared : TypeDesc) :
    (declaredProperty decl closure declared).Yields fuel h fun h' p =>
      p.Confined h' s ∧ p.modifiers = decl.modifiers ∧ p.declared = some declared := by
  refine .bind (addFunction_yields within decl.getter false) fun h₁ getter later made => ?_
  have setters : (decl.setter.mapM fun f => Run.allocate (·.addFunction (.ofDecl f closure false))).Yields fuel h₁
      fun h' setter => ∀ f ∈ setter, h'.Confines s f := by
    cases decl.setter with
    | none => exact .pure fun _ _ _ absent => by cases absent
    | some f =>
      refine .bind (addFunction_yields (within.later later.toExtends) f false) fun h₂ setter _ made => ?_
      refine .pure fun h' later g member => ?_
      cases Option.mem_some.mp member
      exact made.later later
  refine .bind setters fun h₂ setter further made' => .pure fun h' later => ⟨⟨?_, fun f member => ?_⟩, rfl, rfl⟩
  · exact made.later (further.trans later)
  · exact (made' f member).later later

theorem propertyCell_yields {p : Property} (confined : p.Confined h s) :
    (propertyCell p).Yields fuel h fun h' cell => cell.Confined h' s ∧ (∃ q, cell.content = .computed q) ∧
      cell.modifiers = p.modifiers ∧ cell.declared = p.declared := by
  have place : (Run.allocate (·.addProperty p)).Yields fuel h fun h' q =>
      q.index < h'.properties.size ∧ (h'.property q).Confined h' s := by
    refine .allocate fun h' later => ⟨.addProperty h' p, by simp [Heap.addProperty], ?_⟩
    have placed : (h'.addProperty p).2.property (h'.addProperty p).1 = p :=
      (h'.property_addProperty p _).trans (if_pos rfl)
    rw [placed]
    exact confined.later (later.trans (.addProperty h' p))
  refine .bind place fun h₁ q _ placed => .pure fun h' later => ⟨?_, ⟨q, rfl⟩, rfl, rfl⟩
  obtain ⟨inside, made⟩ := placed
  have cell : ({ content := .computed q } : Cell).Confined h₁ s := fun _ same => by
    cases same
    exact ⟨inside, made⟩
  exact fun q' same => cell.later later q' same

theorem resolvedPropertyCell_yields (within : h.Nested closure s) (decl : PropertyDecl) :
    (resolvedPropertyCell decl closure).Yields fuel h fun h' cell =>
      cell.Confined h' s ∧ (∃ q, cell.content = .computed q) ∧ cell.modifiers = decl.modifiers := by
  refine .bind (.of_shelving (shelving_compositional.reading _)) fun h₁ declared later _ => ?_
  have within' := within.later later.toExtends
  refine .bind (declaredProperty_yields within' decl declared) fun h₂ p _ ⟨made, modifiers, _⟩ => ?_
  refine (propertyCell_yields made).weaken fun h' cell _ ⟨confined, computed, same, _⟩ => ?_
  exact ⟨confined, computed, same.trans modifiers⟩

end Evaluator

namespace Field

def name : Field → String
  | .var decl => decl.name.text
  | .property decl => decl.name.text

def modifiers : Field → Modifiers
  | .var decl => decl.modifiers
  | .property decl => decl.modifiers

def declared : Field → Option TypeDesc
  | .var decl => decl.declared
  | .property decl => some decl.declared

/-- The cell of a field in its class. If instances have the field, the type is as it is written. -/
structure Describes (field : Field) (cell : Cell) : Prop where
  modifiers : cell.modifiers = field.modifiers
  declared : field.modifiers.static = false → cell.declared = field.declared

end Field

namespace Evaluator

variable {fuel : Nat} {closure scope : Ref .scope}

theorem fieldCell_yields (within : h.Nested scope s) (field : Field) :
    (fieldCell scope field).Yields fuel h fun h' x =>
      x.1 = field.name ∧ x.2.Confined h' s ∧ field.Describes x.2 := by
  cases field with
  | var decl =>
    have initial := shelving_compositional.initialValue decl scope
    refine .bind (.of_shelving initial) fun h₁ x _ _ => .pure fun h' _ => ⟨rfl, ?_, rfl, fun own => ?_⟩
    · exact fun p computed => by cases computed
    · exact if_neg (by simp [show decl.modifiers.static = false from own])
  | property decl =>
    have cell : (fieldProperty scope decl).Yields fuel h fun h' cell =>
        cell.Confined h' s ∧ (Field.property decl).Describes cell := by
      unfold fieldProperty
      split
      · rename_i static
        refine (resolvedPropertyCell_yields within decl).weaken fun h' cell _ ⟨confined, _, modifiers⟩ => ?_
        exact ⟨confined, modifiers, fun own => absurd (static.symm.trans own) (by decide)⟩
      · refine .bind (declaredProperty_yields within decl decl.declared) fun h₁ p _ ⟨made, modifiers, declared⟩ => ?_
        refine (propertyCell_yields made).weaken fun h' cell _ ⟨confined, _, same, type⟩ => ?_
        exact ⟨confined, same.trans modifiers, fun _ => type.trans declared⟩
    exact .bind cell fun h₁ cell _ ⟨confined, describes⟩ => .pure fun h' later => ⟨rfl, confined.later later, describes⟩

/-- By induction on the fields: each field has the cell of the last declaration under its name. -/
theorem fieldCells_yields (within : h.Nested scope s) (fields : List Field) {cells : NameMap Cell}
    (confined : ∀ x ∈ cells.entries, x.2.Confined h s) :
    (fieldCells scope fields cells).Yields fuel h fun h' made =>
      (∀ x ∈ made.entries, x.2.Confined h' s) ∧
        (∀ name, (∀ field ∈ fields, field.name ≠ name) → made.find? name = cells.find? name) ∧
        ∀ before field later, fields = before ++ field :: later → (∀ other ∈ later, other.name ≠ field.name) →
          ∃ cell, made.find? field.name = some cell ∧ field.Describes cell := by
  induction fields generalizing h cells with
  | nil =>
    refine .pure fun h' later => ⟨fun x member => (confined x member).later later, fun _ _ => rfl, ?_⟩
    exact fun before field rest split => by simp at split
  | cons first rest ih =>
    refine .bind (fieldCell_yields within first) fun h₁ x later ⟨name, made, describes⟩ => ?_
    have confined' : ∀ y ∈ (cells.insert x.1 x.2).entries, y.2.Confined h₁ s := by
      intro y member
      rcases NameMap.mem_insert member with rfl | old
      · exact made
      · exact (confined y old).later later
    refine (ih (within.later later.toExtends) confined').weaken fun h' cells' _ ⟨all, others, each⟩ => ⟨all, ?_, ?_⟩
    · intro other absent
      obtain ⟨different, absent⟩ := List.forall_mem_cons.mp absent
      rw [others other absent]
      exact NameMap.find?_insert_of_ne _ (by rw [name]; exact different.symm) _
    · intro before field later split last
      cases before with
      | nil =>
        cases split
        refine ⟨x.2, ?_, describes⟩
        rw [others _ last, ← name]
        exact NameMap.find?_insert_self ..
      | cons _ before =>
        cases split
        exact each before field later rfl last

theorem declaredMethod_yields (within : h.Nested scope s) (className : String) (interfaces : List (Ref .interface))
    (decl : FunctionDecl) :
    (declaredMethod className scope interfaces decl).Yields fuel h fun h' f => h'.Confines s f ∨ h'.Supplies f := by
  unfold declaredMethod
  refine .bind (.of_shelving (shelving_compositional.orRaise _ _)) fun h₁ _ later _ => ?_
  split
  · exact (addFunction_yields (within.later later.toExtends) decl _).weaken fun _ _ _ => .inl
  · intro m _ a n done
    rw [Run.heap_bind] at done
    cases found : interfaces.findSome? (m.heap.defaultFor? (.ofDecl decl scope (decl.name.text = constructorName))) with
    | none =>
      rw [found] at done
      cases done
    | some supplied =>
      rw [found] at done
      cases done
      obtain ⟨i, -, fits⟩ := List.exists_of_findSome?_eq_some found
      have listed := (Option.filter_eq_some_iff.mp fits).1
      exact ⟨.refl _, .inr (Heap.supplies_of_mem (NameMap.mem_of_find? listed))⟩

theorem declaredMethods_yields (within : h.Nested scope s) (className : String) (interfaces : List (Ref .interface))
    (decls : List FunctionDecl) {methods : NameMap (Ref .function)}
    (known : ∀ x ∈ methods.entries, h.Confines s x.2 ∨ h.Supplies x.2) :
    (declaredMethods className scope interfaces decls methods).Yields fuel h fun h' made =>
      ∀ x ∈ made.entries, h'.Confines s x.2 ∨ h'.Supplies x.2 := by
  have still {h h' : Heap} {f : Ref .function} (later : h.Shelves h') (known : h.Confines s f ∨ h.Supplies f) :
      h'.Confines s f ∨ h'.Supplies f :=
    known.imp (·.later later) (·.later later)
  induction decls generalizing h methods with
  | nil => exact .pure fun h' later x member => still later (known x member)
  | cons decl rest ih =>
    refine .bind (declaredMethod_yields within className interfaces decl) fun h₁ f later made => ?_
    refine ih (within.later later.toExtends) fun x member => ?_
    rcases NameMap.mem_insert member with rfl | old
    · exact made
    · exact still later (known x old)

end Evaluator

/-- A class as its declaration describes it. Its methods, but for those of interfaces, and its accessors are confined to
the scope of the class, and the fields of instances stand there as they are declared. -/
structure Class.Fulfils (c : Class) (decl : ClassDecl) (h : Heap) : Prop where
  templates : c.templates = decl.templates.map Name.text
  methods : ∀ x ∈ c.methods.entries, h.Confines c.scope x.2 ∨ h.Supplies x.2
  accessors : ∀ x ∈ c.fields.entries, x.2.Confined h c.scope
  fields : ∀ before field later, decl.fields = before ++ field :: later → (∀ other ∈ later, other.name ≠ field.name) →
    field.modifiers.static = false → ∃ cell, c.fields.find? field.name = some cell ∧ field.Describes cell

theorem Class.Fulfils.later {c : Class} {decl : ClassDecl} (fulfils : c.Fulfils decl h) (later : h.Shelves h') :
    c.Fulfils decl h' :=
  { fulfils with
    methods := fun x member => (fulfils.methods x member).imp (·.later later) (·.later later)
    accessors := fun x member => (fulfils.accessors x member).later later }

namespace Evaluator

variable {fuel : Nat} {scope : Ref .scope} {decl : ClassDecl} {superclass : Ref .cls}
  {interfaces : List (Ref .interface)}

theorem declaredClass_yields (h : Heap) (decl : ClassDecl) (superclass : Ref .cls) (interfaces : List (Ref .interface))
    (scope : Ref .scope) : (declaredClass decl superclass interfaces scope).Yields fuel h fun h' cls =>
      cls.scope = scope ∧ cls.Fulfils decl h' := by
  have own : h.Nested scope scope := ⟨0, rfl⟩
  refine .bind (declaredMethods_yields own decl.name.text interfaces decl.methods fun _ absent => by cases absent)
    fun h₁ declared later₁ made => ?_
  refine .bind (Q := fun h' base => h' = base) ?_ fun h₂ base later₂ same => ?_
  · exact fun m _ _ _ done => by cases done; exact ⟨.refl _, rfl⟩
  subst same
  have within : h₂.Nested scope scope := ⟨0, rfl⟩
  refine .bind (.inScope scope (fieldCells_yields within decl.fields fun _ absent => by cases absent))
    fun h₃ cells later₃ ⟨confined, _, described⟩ => ?_
  refine .bind (.of_shelving (shelving_compositional.get)) fun h₄ _ later₄ _ => ?_
  refine .bind (.of_shelving (shelving_compositional.orRaise _ _)) fun h₅ _ later₅ _ => .pure fun h' later => ⟨rfl, ?_⟩
  have onward := later₄.trans (later₅.trans later)
  refine ⟨rfl, fun x member => ?_, fun x member => (confined x member).later onward, fun before field rest split last _ =>
    described before field rest split last⟩
  rcases mem_addDefaults member with old | supplied
  · exact (made x old).imp (·.later (later₂.trans (later₃.trans onward))) (·.later (later₂.trans (later₃.trans onward)))
  · obtain ⟨i, -, listed⟩ := supplied
    exact .inr ((Heap.supplies_of_mem listed).later (later₃.trans onward))

theorem bindFunction_yields {f : Ref .function} (c : Ref .cls) (confined : h.Confines s f) :
    (bindFunction f (.cls c)).Yields fuel h fun h' g => h'.Confines s g := by
  refine .bind (Q := fun h' g => g.Confined h' s) ?_ fun h₁ g _ closes => ?_
  · exact .reading _ fun h' later => (confined.later later).2
  refine .bind (Q := fun h' g => g.Confined h' s) (fun m later _ n done => ?_) fun h₂ g _ closes => ?_
  · have still := fun body closure user => (closes body closure user).later later.toExtends
    obtain ⟨g', after, bound, kept, closes'⟩ := bind_confined (.cls c) still fun _ => id
    rw [bound] at done
    cases done
    exact ⟨kept, closes'⟩
  · refine .allocate fun h' later => ⟨.addFunction h' g, by simp [Heap.addFunction], fun body closure user => ?_⟩
    have placed := (h'.function_addFunction g (h'.addFunction g).1).trans (if_pos rfl)
    rw [placed] at user
    exact ((closes body closure user).later later.toExtends).later (.of_scopes rfl)

theorem bindProperty_yields {p : Property} (c : Ref .cls) (confined : p.Confined h s) :
    (bindProperty p (.cls c)).Yields fuel h fun h' q => q.Confined h' s := by
  refine .bind (bindFunction_yields c confined.getter) fun h₁ getter later made => ?_
  have setters : (p.setter.mapM (bindFunction · (.cls c))).Yields fuel h₁
      fun h' setter => ∀ f ∈ setter, h'.Confines s f := by
    cases held : p.setter with
    | none => exact .pure fun _ _ _ absent => by cases absent
    | some f =>
      have confined' := (confined.setter f (by rw [held]; rfl)).later later
      refine .bind (bindFunction_yields c confined') fun h₂ setter _ made => .pure fun h' later g member => ?_
      cases Option.mem_some.mp member
      exact made.later later
  refine .bind setters fun h₂ setter further made' => .pure fun h' later => ⟨?_, fun f member => ?_⟩
  · exact made.later (further.trans later)
  · exact (made' f member).later later

theorem bindStatic_yields {cell : Cell} (c : Ref .cls) (confined : cell.Confined h s) :
    (bindStatic (.cls c) cell).Yields fuel h fun h' bound =>
      bound.Confined h' s ∧ (cell.modifiers.static = false → bound = cell) := by
  have unchanged : (Pure.pure cell : Run Cell).Yields fuel h fun h' bound =>
      bound.Confined h' s ∧ (cell.modifiers.static = false → bound = cell) :=
    .pure fun h' later => ⟨confined.later later, fun _ => rfl⟩
  unfold bindStatic
  split
  · exact unchanged
  · rename_i p computed
    split
    · rename_i static
      have accessors : (Run.reading (·.property p)).Yields fuel h fun h' p => p.Confined h' s :=
        .reading _ fun h' later => (confined.later later p computed).2
      refine .bind accessors fun h₁ property _ made => ?_
      refine .bind (bindProperty_yields c made) fun h₂ bound _ made => ?_
      refine (propertyCell_yields made).weaken fun h' cell' _ ⟨made, _⟩ => ⟨made, fun own => ?_⟩
      exact absurd (static.symm.trans own) (by decide)
    · exact unchanged

/-- By induction on the fields: those of instances are left as they are. -/
theorem bindStatics_yields (c : Ref .cls) (cells : List (String × Cell))
    (confined : ∀ x ∈ cells, x.2.Confined h s) :
    (bindStatics (.cls c) cells).Yields fuel h fun h' bound => (∀ x ∈ bound, x.2.Confined h' s) ∧
      ∀ name cell, NameMap.findIn name cells = some cell → cell.modifiers.static = false →
        NameMap.findIn name bound = some cell := by
  induction cells generalizing h with
  | nil => exact .pure fun h' _ => ⟨fun _ absent => (by cases absent), fun _ _ absent => (by cases absent)⟩
  | cons first rest ih =>
    obtain ⟨key, cell⟩ := first
    obtain ⟨here, others⟩ := List.forall_mem_cons.mp confined
    refine .bind (bindStatic_yields c here) fun h₁ bound later₁ ⟨made, same⟩ => ?_
    refine .bind (ih fun x member => (others x member).later later₁) fun h₂ bounds later₂ ⟨all, kept⟩ => ?_
    refine .pure fun h' later => ⟨List.forall_mem_cons.mpr ⟨?_, ?_⟩, fun name cell' found own => ?_⟩
    · exact made.later (later₂.trans later)
    · exact fun x member => (all x member).later later
    · unfold NameMap.findIn at found ⊢
      split at found
      · rename_i named
        cases found
        rw [if_pos named, same own]
      · rename_i other
        rw [if_neg other]
        exact kept name cell' found own

theorem addClass_yields {cls : Class} (fulfils : cls.Fulfils decl h) :
    (addClass cls).Yields fuel h fun h' c =>
      c.index < h'.classes.size ∧ (h'.cls c).scope = cls.scope ∧ (h'.cls c).Fulfils decl h' := by
  let bare : Class := { cls with fields := .empty }
  have place : (Run.allocate (·.addClass bare)).Yields fuel h fun h' c =>
      c.index < h'.classes.size ∧ h'.cls c = bare :=
    .allocate fun h' later => ⟨.addClass h' _, by simp [Heap.addClass], (h'.cls_addClass bare _).trans (if_pos rfl)⟩
  refine .bind place fun h₁ c later₁ known => ?_
  obtain ⟨inside, placed⟩ := known
  have accessors := fun x member => (fulfils.accessors x member).later later₁
  refine .bind (bindStatics_yields c cls.fields.entries accessors) fun h₂ bound later₂ known => ?_
  obtain ⟨confined, kept⟩ := known
  -- The class stands in the heap on which its fields are set, and nothing comes in between.
  intro m later _ n done
  cases done
  have filled := Heap.Shelves.setClassFields m.heap c ⟨bound⟩
  obtain ⟨there, scope, templates, methods⟩ := (later₂.trans later).classes c inside
  rw [placed] at scope templates methods
  have whole := later₁.trans (later₂.trans (later.trans filled))
  have held : (m.heap.setClassFields c ⟨bound⟩).cls c = { m.heap.cls c with fields := ⟨bound⟩ } := by
    rw [Heap.cls_setClassFields, if_pos ⟨rfl, there⟩]
  change m.heap.Shelves (m.heap.setClassFields c ⟨bound⟩) ∧ c.index < (m.heap.setClassFields c ⟨bound⟩).classes.size ∧
    ((m.heap.setClassFields c ⟨bound⟩).cls c).scope = cls.scope ∧
    ((m.heap.setClassFields c ⟨bound⟩).cls c).Fulfils decl (m.heap.setClassFields c ⟨bound⟩)
  rw [held]
  refine ⟨filled, (filled.classes c there).1, scope, templates.trans fulfils.templates, ?_, ?_, ?_⟩
  · intro x member
    rw [show (m.heap.cls c).methods = cls.methods from methods] at member
    rw [show (m.heap.cls c).scope = cls.scope from scope]
    exact (fulfils.methods x member).imp (·.later whole) (·.later whole)
  · intro x member
    rw [show (m.heap.cls c).scope = cls.scope from scope]
    exact (confined x member).later (later.trans filled)
  · intro before field rest split last own
    obtain ⟨cell, found, describes⟩ := fulfils.fields before field rest split last own
    exact ⟨cell, kept _ cell found (by rw [describes.modifiers, own]), describes⟩

theorem makeClass_yields (h : Heap) (decl : ClassDecl) (outer : Ref .scope) (superclass : Ref .cls)
    (interfaces : List (Ref .interface)) : (makeClass decl outer superclass interfaces).Yields fuel h fun h' c =>
      c.index < h'.classes.size ∧ h'.Nested (h'.cls c).scope outer ∧ (h'.cls c).Fulfils decl h' := by
  have opens : (Run.allocate (·.addScope { enclosing := some outer, names := classNames superclass decl.templates })).Yields
      fuel h fun h' scope => h'.Nested scope outer :=
    .allocate fun h' _ => ⟨.addScope h' _, .of_enclosing
      (congrArg Scope.enclosing ((h'.scope_addScope _ _).trans (if_pos rfl)))⟩
  refine .bind opens fun h₁ scope _ within => ?_
  refine .bind (declaredClass_yields h₁ decl superclass interfaces scope) fun h₂ cls later ⟨own, fulfils⟩ => ?_
  refine (addClass_yields fulfils).weaken fun h₃ c further ⟨inside, same, made⟩ => ⟨inside, ?_, made⟩
  rw [same, own]
  exact within.later (later.trans further).toExtends

theorem interfaceMethods_yields (within : h.Nested scope s) (decls : List FunctionDecl)
    {methods : NameMap (Ref .function)} (known : ∀ x ∈ methods.entries, h.Confines s x.2) :
    (interfaceMethods scope decls methods).Yields fuel h fun h' made => ∀ x ∈ made.entries, h'.Confines s x.2 := by
  induction decls generalizing h methods with
  | nil => exact .pure fun h' later x member => (known x member).later later
  | cons decl rest ih =>
    refine .bind (addFunction_yields within decl false) fun h₁ f later made => ?_
    refine ih (within.later later.toExtends) fun x member => ?_
    rcases NameMap.mem_insert member with rfl | old
    · exact made
    · exact (known x old).later later

theorem requiredCell_yields (within : h.Nested scope s) (field : Field) :
    (requiredCell scope field).Yields fuel h fun h' x => x.2.Confined h' s := by
  cases field with
  | var decl =>
    refine .bind (.of_shelving (shelving_compositional.option _)) fun h₁ value _ _ => .pure fun h' _ p computed => ?_
    cases computed
  | property decl =>
    exact .bind (resolvedPropertyCell_yields within decl) fun h₁ cell _ ⟨confined, _⟩ =>
      .pure fun h' later => confined.later later

theorem requiredCells_yields (within : h.Nested scope s) (fields : List Field) {cells : NameMap Cell}
    (confined : ∀ x ∈ cells.entries, x.2.Confined h s) :
    (requiredCells scope fields cells).Yields fuel h fun h' made => ∀ x ∈ made.entries, x.2.Confined h' s := by
  induction fields generalizing h cells with
  | nil => exact .pure fun h' later x member => (confined x member).later later
  | cons field rest ih =>
    refine .bind (requiredCell_yields within field) fun h₁ x later made => ?_
    refine ih (within.later later.toExtends) fun y member => ?_
    rcases NameMap.mem_insert member with rfl | old
    · exact made
    · exact (confined y old).later later

end Evaluator

/-! Declarations. -/

structure Heap.MadeClass (h : Heap) (outer : Ref .scope) (decl : ClassDecl) (c : Ref .cls) : Prop where
  bound : h.here? outer decl.name.text = some (.ofValue (.cls c))
  inside : c.index < h.classes.size
  scope : h.Nested (h.cls c).scope outer
  fulfils : (h.cls c).Fulfils decl h

structure Heap.MadeInterface (h : Heap) (outer : Ref .scope) (decl : InterfaceDecl) (i : Ref .interface) : Prop where
  bound : h.here? outer decl.name.text = some (.ofValue (.interface i))
  methods : ∀ x ∈ (h.interface i).methods.entries, h.Confines outer x.2
  accessors : ∀ x ∈ (h.interface i).fields.entries, x.2.Confined h outer

section

variable {fuel : Nat} {m after : Machine} {signal : Signal} (here : m.scope.index < m.heap.scopes.size)

include here

theorem perform_class_makes {decl : ClassDecl} (done : perform fuel (.stmt (.classDecl decl)) m = .ok signal after) :
    ∃ c, after.heap.MadeClass m.scope decl c := by
  cases fuel with
  | zero => cases done
  | succ fuel =>
    obtain ⟨_, _, declared, last⟩ := Run.outcome_bind_ok done
    cases last
    rw [declareClass_eq] at declared
    obtain ⟨⟨superclass, interfaces⟩, m₁, heritage, placed⟩ := Run.outcome_bind_ok declared
    have back : m₁.scope = m.scope := by
      have restored := (heritage_compositional restores_compositional decl m).outcome (perform_scope fuel)
      rwa [heritage] at restored
    have grown : m.heap.Shelves m₁.heap := by
      have leaves := (heritage_compositional shelving_compositional decl).leaves fuel m
      rwa [heritage] at leaves
    obtain ⟨_, m₂, same, placed⟩ := Run.outcome_bind_ok placed
    cases same
    obtain ⟨_, m₃, named, placed⟩ := Run.outcome_bind_ok placed
    cases named
    obtain ⟨c, m₄, makes, named⟩ := Run.outcome_bind_ok placed
    cases named
    obtain ⟨kept, there, within, fulfils⟩ :=
      makeClass_yields _ decl m₁.scope superclass interfaces _ (.refl _) c m₄ makes
    have bind := Heap.Shelves.define m₄.heap m₁.scope decl.name.text (.ofValue (.cls c))
    rw [back] at within
    refine ⟨c, ?_, (bind.classes c there).1, within.later bind.toExtends, fulfils.later bind⟩
    have inside := (grown.trans ((Heap.Shelves.define _ _ _ _).trans kept)).scopes
    exact (Heap.here?_define ..).trans (if_pos ⟨back, rfl, Nat.lt_of_lt_of_le here inside⟩)

theorem perform_interface_makes {decl : InterfaceDecl}
    (done : perform fuel (.stmt (.interfaceDecl decl)) m = .ok signal after) :
    ∃ i, after.heap.MadeInterface m.scope decl i := by
  cases fuel with
  | zero => cases done
  | succ fuel =>
    obtain ⟨_, _, declared, last⟩ := Run.outcome_bind_ok done
    cases last
    obtain ⟨_, m₁, same, declared⟩ := Run.outcome_bind_ok declared
    cases same
    obtain ⟨methods, m₂, made, declared⟩ := Run.outcome_bind_ok declared
    obtain ⟨fields, m₃, required, declared⟩ := Run.outcome_bind_ok declared
    obtain ⟨i, m₄, entered, named⟩ := Run.outcome_bind_ok declared
    cases entered
    cases named
    have own : m.heap.Nested m.scope m.scope := ⟨0, rfl⟩
    obtain ⟨kept, confines⟩ := interfaceMethods_yields own decl.methods (fun _ absent => by cases absent) m (.refl _)
      methods m₂ made
    obtain ⟨kept', confined⟩ := requiredCells_yields (own.later kept.toExtends) decl.fields
      (fun _ absent => by cases absent) m₂ (.refl _) fields m₃ required
    let entry : Interface := ⟨decl.name.text, methods, fields⟩
    have placed : (m₃.heap.addInterface entry).2.interface (m₃.heap.addInterface entry).1 = entry :=
      (m₃.heap.interface_addInterface entry _).trans (if_pos rfl)
    have onward : m₃.heap.Shelves ((m₃.heap.addInterface entry).2.define m.scope decl.name.text
        (.ofValue (.interface (m₃.heap.addInterface entry).1))) :=
      (Heap.Shelves.addInterface _ entry).trans (.define _ _ _ _)
    refine ⟨(m₃.heap.addInterface entry).1, ?_, fun x member => ?_, fun x member => ?_⟩
    · have inside := Nat.lt_of_lt_of_le here (kept.trans kept').scopes
      exact (Heap.here?_define ..).trans (if_pos ⟨rfl, rfl, inside⟩)
    · change x ∈ ((m₃.heap.addInterface entry).2.interface _).methods.entries at member
      rw [placed] at member
      exact (confines x member).later (kept'.trans onward)
    · change x ∈ ((m₃.heap.addInterface entry).2.interface _).fields.entries at member
      rw [placed] at member
      exact (confined x member).later onward

theorem perform_property_makes {decl : PropertyDecl}
    (done : perform fuel (.stmt (.property decl)) m = .ok signal after) :
    ∃ cell, after.heap.here? m.scope decl.name.text = some cell ∧ (∃ p, cell.content = .computed p) ∧
      cell.Confined after.heap m.scope := by
  have back : after.scope = m.scope := by
    have restored := perform_scope fuel (.stmt (.property decl)) m
    rwa [done] at restored
  cases fuel with
  | zero => cases done
  | succ fuel =>
    obtain ⟨_, _, declared, last⟩ := Run.outcome_bind_ok done
    cases last
    obtain ⟨_, m₁, same, declared⟩ := Run.outcome_bind_ok declared
    cases same
    obtain ⟨cell, m₂, made, defined⟩ := Run.outcome_bind_ok declared
    have own : m.heap.Nested m.scope m.scope := ⟨0, rfl⟩
    obtain ⟨kept, confined, computed, -⟩ := resolvedPropertyCell_yields own decl m (.refl _) cell m₂ made
    have grown : m₂.heap.Shelves after.heap := by
      rw [defineChecked_done defined]
      exact .define _ _ _ _
    refine ⟨cell, ?_, computed, confined.later grown⟩
    have found := defineChecked_here defined (by
      rw [show after.scope = m.scope from back]
      exact Nat.lt_of_lt_of_le here (kept.trans grown).scopes)
    rwa [show after.scope = m.scope from back] at found

end

end Treewalk
