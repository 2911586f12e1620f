import Treewalk.Proofs.Pervasive
import Treewalk.Proofs.Tie

/-!
What no activity ever changes. Scopes stay within each other, functions and interfaces stay as they are, properties
keep their accessors, and classes keep their scope, their templates and the methods of their own. So what a computation
has made is still the same when it ends, whatever it has asked for in between.
-/

namespace Treewalk

/-- A later heap has the functions and the interfaces of an earlier one, the accessors of its properties, and the
scopes, templates and methods of its classes. -/
structure Heap.Shelves (h later : Heap) : Prop extends h.Extends later where
  functions : ∀ f : Ref .function, f.index < h.functions.size →
    f.index < later.functions.size ∧ later.function f = h.function f
  properties : ∀ p : Ref .property, p.index < h.properties.size →
    p.index < later.properties.size ∧ (later.property p).getter = (h.property p).getter ∧
      (later.property p).setter = (h.property p).setter
  interfaces : ∀ i : Ref .interface, i.index < h.interfaces.size →
    i.index < later.interfaces.size ∧ later.interface i = h.interface i
  classes : ∀ c : Ref .cls, c.index < h.classes.size →
    c.index < later.classes.size ∧ (later.cls c).scope = (h.cls c).scope ∧
      (later.cls c).templates = (h.cls c).templates ∧ (later.cls c).methods = (h.cls c).methods

namespace Heap.Shelves

variable {h h' h'' : Heap}

theorem refl (h : Heap) : h.Shelves h where
  toExtends := .refl h
  functions _ inside := ⟨inside, rfl⟩
  properties _ inside := ⟨inside, rfl, rfl⟩
  interfaces _ inside := ⟨inside, rfl⟩
  classes _ inside := ⟨inside, rfl, rfl, rfl⟩

theorem trans (first : h.Shelves h') (second : h'.Shelves h'') : h.Shelves h'' where
  toExtends := first.toExtends.trans second.toExtends
  functions f inside := by
    obtain ⟨there, held⟩ := first.functions f inside
    obtain ⟨later, still⟩ := second.functions f there
    exact ⟨later, still.trans held⟩
  properties p inside := by
    obtain ⟨there, getter, setter⟩ := first.properties p inside
    obtain ⟨later, getter', setter'⟩ := second.properties p there
    exact ⟨later, getter'.trans getter, setter'.trans setter⟩
  interfaces i inside := by
    obtain ⟨there, held⟩ := first.interfaces i inside
    obtain ⟨later, still⟩ := second.interfaces i there
    exact ⟨later, still.trans held⟩
  classes c inside := by
    obtain ⟨there, scope, templates, methods⟩ := first.classes c inside
    obtain ⟨later, scope', templates', methods'⟩ := second.classes c there
    exact ⟨later, scope'.trans scope, templates'.trans templates, methods'.trans methods⟩

theorem addScope (h : Heap) (s : Scope) : h.Shelves (h.addScope s).2 :=
  { refl h with toExtends := .addScope h s }

theorem define (h : Heap) (r : Ref .scope) (name : String) (cell : Cell) : h.Shelves (h.define r name cell) :=
  { refl h with toExtends := .define h r name cell }

theorem addFunction (h : Heap) (f : Function) : h.Shelves (h.addFunction f).2 :=
  { refl h with
    toExtends := .of_scopes rfl
    functions := fun g inside => by
      rw [function_addFunction, if_neg (Nat.ne_of_lt inside)]
      exact ⟨by simp only [Heap.addFunction, Array.size_push]; omega, rfl⟩ }

theorem addProperty (h : Heap) (p : Property) : h.Shelves (h.addProperty p).2 :=
  { refl h with
    toExtends := .of_scopes rfl
    properties := fun q inside => by
      rw [property_addProperty, if_neg (Nat.ne_of_lt inside)]
      exact ⟨by simp only [Heap.addProperty, Array.size_push]; omega, rfl, rfl⟩ }

theorem addInterface (h : Heap) (i : Interface) : h.Shelves (h.addInterface i).2 :=
  { refl h with
    toExtends := .of_scopes rfl
    interfaces := fun j inside => by
      rw [interface_addInterface, if_neg (Nat.ne_of_lt inside)]
      exact ⟨by simp only [Heap.addInterface, Array.size_push]; omega, rfl⟩ }

theorem addClass (h : Heap) (c : Class) : h.Shelves (h.addClass c).2 :=
  { refl h with
    toExtends := .of_scopes rfl
    classes := fun d inside => by
      rw [cls_addClass, if_neg (Nat.ne_of_lt inside)]
      exact ⟨by simp only [Heap.addClass, Array.size_push]; omega, rfl, rfl, rfl⟩ }

theorem setCache (h : Heap) (p : Ref .property) (value : Value) : h.Shelves (h.setCache p value) :=
  { refl h with
    toExtends := .of_scopes rfl
    properties := fun q inside => by
      rw [property_setCache]
      exact ⟨by simpa [Heap.setCache] using inside, by split <;> rfl, by split <;> rfl⟩ }

theorem setClassFields (h : Heap) (c : Ref .cls) (fields : NameMap Cell) : h.Shelves (h.setClassFields c fields) :=
  { refl h with
    toExtends := .of_scopes rfl
    classes := fun d inside => by
      rw [cls_setClassFields]
      exact ⟨by simpa [Heap.setClassFields] using inside, by split <;> rfl, by split <;> rfl, by split <;> rfl⟩ }

theorem setClassField (h : Heap) (c : Ref .cls) (name : String) (cell : Cell) :
    h.Shelves (h.setClassField c name cell) :=
  { refl h with
    toExtends := .of_scopes rfl
    classes := fun d inside => by
      rw [cls_setClassField]
      exact ⟨by simpa [Heap.setClassField] using inside, by split <;> rfl, by split <;> rfl, by split <;> rfl⟩ }

theorem of_grows {may : Ref .scope → String → Prop} (grows : h.Grows may h') : h.Shelves h' where
  toExtends := ⟨grows.scopes, grows.enclosing, grows.bound⟩
  functions := grows.functions
  properties p inside :=
    have ⟨there, stays⟩ := grows.properties p inside
    ⟨there, stays.getter, stays.setter⟩
  interfaces := grows.interfaces
  classes c inside :=
    have ⟨there, stays⟩ := grows.classes c inside
    ⟨there, stays.scope, stays.templates, stays.methods⟩

end Heap.Shelves

def Plan.Shelved (h : Heap) : Plan α → Prop
  | .done outcome => h.Shelves outcome.machine.heap
  | .ask _ m next => ∀ outcome, m.heap.Shelves outcome.machine.heap → (next outcome).Shelved h

namespace Plan.Shelved

variable {h h' : Heap}

theorem before {plan : Plan α} (shelves : h.Shelves h') (shelved : plan.Shelved h') : plan.Shelved h := by
  induction plan with
  | done outcome => exact shelves.trans shelved
  | ask a m next ih => exact fun outcome kept => ih outcome (shelved outcome kept)

theorem andThen {plan : Plan α} {f : Outcome α → Plan β} (first : plan.Shelved h)
    (next : ∀ outcome, h.Shelves outcome.machine.heap → (f outcome).Shelved h) : (plan.andThen f).Shelved h := by
  induction plan with
  | done outcome => exact next outcome first
  | ask a m rest ih => exact fun outcome kept => ih outcome (first outcome kept)

theorem outcome {act : (a : Activity) → Machine → Outcome a.Result}
    (each : ∀ a (m : Machine), m.heap.Shelves (act a m).machine.heap) {plan : Plan α} (shelved : plan.Shelved h) :
    h.Shelves (plan.outcome act).machine.heap := by
  induction plan with
  | done outcome => exact shelved
  | ask a m next ih => exact ih (act a m) (shelved (act a m) (each a m))

end Plan.Shelved

def Run.Shelving (c : Run α) : Prop :=
  ∀ m : Machine, (c m).Shelved m.heap

namespace Run.Shelving

theorem bind {c : Run α} {f : α → Run β} (first : c.Shelving) (next : ∀ a, (f a).Shelving) :
    (c >>= f).Shelving := by
  intro m
  refine (first m).andThen fun outcome kept => ?_
  cases outcome with
  | ok a after => exact (next a after).before kept
  | error reason after => exact kept

theorem allocate {f : Heap → α × Heap} (keeps : ∀ h : Heap, h.Shelves (f h).2) : (Run.allocate f).Shelving :=
  fun m => keeps m.heap

theorem update {f : Heap → Heap} (keeps : ∀ h : Heap, h.Shelves (f h)) : (Run.update f).Shelving :=
  fun m => keeps m.heap

theorem inScope (r : Ref .scope) {c : Run α} (inner : c.Shelving) : (Run.inScope r c).Shelving := by
  intro m
  refine (inner { m with scope := r }).andThen fun outcome kept => ?_
  cases outcome <;> exact kept

theorem catching {body : Run α} {handler : RuntimeError → Run α} (inner : body.Shelving)
    (handles : ∀ e, (handler e).Shelving) : (Run.catching body handler).Shelving := by
  intro m
  refine (inner m).andThen fun outcome kept => ?_
  match outcome, kept with
  | .ok _ _, kept => exact kept
  | .error .crash _, kept | .error .outOfFuel _, kept => exact kept
  | .error (.fault e) after, kept => exact (handles e after).before kept

end Run.Shelving

theorem shelving_compositional : Compositional Run.Shelving where
  pure _ _ := .refl _
  bind := .bind
  stop _ _ := .refl _
  get _ := .refl _
  quiet quiet m := by
    obtain ⟨a, after, done, heap, -⟩ := quiet m
    rw [done]
    change m.heap.Shelves after.heap
    rw [heap]
    exact .refl _
  ask _ _ _ kept := kept
  addScope s := .allocate fun h => .addScope h s
  addFunction f := .allocate fun h => .addFunction h f
  addArray _ := .allocate fun h => { Heap.Shelves.refl h with toExtends := .of_scopes rfl }
  addProperty p := .allocate fun h => .addProperty h p
  addInterface i := .allocate fun h => .addInterface h i
  addEnumeration _ := .allocate fun h => { Heap.Shelves.refl h with toExtends := .of_scopes rfl }
  setElement _ _ _ := .update fun h => { Heap.Shelves.refl h with toExtends := .of_scopes rfl }
  setCache p value := .update fun h => .setCache h p value

theorem shelving_define (r : Ref .scope) (name : String) (cell : Cell) :
    (Run.update (·.define r name cell)).Shelving :=
  .update fun h => .define h r name cell

theorem shelving_addClass (cls : Class) : (Evaluator.addClass cls).Shelving :=
  shelving_compositional.addClass (.allocate fun h => .addClass h _) fun c fields =>
    .update fun h => .setClassFields h c fields

theorem shelving_pervasive : Pervasive Run.Shelving where
  toCompositional := shelving_compositional
  exec _ _ _ kept := kept
  define := shelving_define
  addObject _ := .allocate fun h => { Heap.Shelves.refl h with toExtends := .of_scopes rfl }
  setFields _ _ := .update fun h => { Heap.Shelves.refl h with toExtends := .of_scopes rfl }
  setField _ _ _ := .update fun h => { Heap.Shelves.refl h with toExtends := .of_scopes rfl }
  setClassField c name cell := .update fun h => .setClassField h c name cell
  inScope := .inScope
  catching := .catching
  declareClass := shelving_compositional.declareClass shelving_define (fun r _ => .inScope r) fun cls _ =>
    shelving_addClass cls

theorem perform_shelves (fuel : Nat) (a : Activity) (m : Machine) :
    m.heap.Shelves (perform fuel a m).machine.heap := by
  induction fuel generalizing a m with
  | zero => exact .refl _
  | succ fuel ih => exact (shelving_pervasive.plan a fuel m).outcome ih

theorem Run.Shelving.leaves {c : Run α} (shelving : c.Shelving) (fuel : Nat) (m : Machine) :
    m.heap.Shelves ((c m).outcome (perform fuel)).machine.heap :=
  (shelving m).outcome (perform_shelves fuel)

/-! What computations yield. -/

/-- From any later heap on, if a computation succeeds, this is true of what it yields and of the heap then. -/
def Run.Yields (fuel : Nat) (h : Heap) (Q : Heap → α → Prop) (c : Run α) : Prop :=
  ∀ m, h.Shelves m.heap → ∀ a n, (c m).outcome (perform fuel) = .ok a n → m.heap.Shelves n.heap ∧ Q n.heap a

namespace Run.Yields

variable {fuel : Nat} {h : Heap} {Q R : Heap → α → Prop} {P : Heap → β → Prop} {c : Run α} {f : α → Run β}

theorem bind (first : c.Yields fuel h Q) (next : ∀ h' a, h.Shelves h' → Q h' a → (f a).Yields fuel h' P) :
    (c >>= f).Yields fuel h P := by
  intro m later b n done
  obtain ⟨a, middle, made, rest⟩ := Run.outcome_bind_ok done
  obtain ⟨kept, known⟩ := first m later a middle made
  obtain ⟨further, reached⟩ := next _ a (later.trans kept) known middle (.refl _) b n rest
  exact ⟨kept.trans further, reached⟩

theorem pure {a : α} (known : ∀ h', h.Shelves h' → Q h' a) : (Pure.pure a : Run α).Yields fuel h Q := by
  intro m later _ _ done
  cases done
  exact ⟨.refl _, known _ later⟩

theorem weaken (yields : c.Yields fuel h Q) (weaker : ∀ h' a, h.Shelves h' → Q h' a → R h' a) :
    c.Yields fuel h R := by
  intro m later a n done
  obtain ⟨kept, known⟩ := yields m later a n done
  exact ⟨kept, weaker _ a (later.trans kept) known⟩

theorem of_shelving (shelving : c.Shelving) : c.Yields fuel h fun _ _ => True := by
  intro m _ a n done
  have kept := shelving.leaves fuel m
  rw [done] at kept
  exact ⟨kept, trivial⟩

theorem allocate {g : Heap → α × Heap} (made : ∀ h', h.Shelves h' → h'.Shelves (g h').2 ∧ Q (g h').2 (g h').1) :
    (Run.allocate g).Yields fuel h Q := by
  intro m later _ _ done
  cases done
  exact made m.heap later

theorem reading (g : Heap → α) (known : ∀ h', h.Shelves h' → Q h' (g h')) : (Run.reading g).Yields fuel h Q := by
  intro m later _ _ done
  cases done
  exact ⟨.refl _, known _ later⟩

theorem inScope (r : Ref .scope) (inner : c.Yields fuel h Q) : (Run.inScope r c).Yields fuel h Q := by
  intro m later a n done
  replace done := (Plan.outcome_andThen (c { m with scope := r }) _).symm.trans done
  cases ended : (c { m with scope := r }).outcome (perform fuel) with
  | error reason after =>
    rw [ended] at done
    cases done
  | ok b after =>
    rw [ended] at done
    cases done
    exact inner { m with scope := r } later _ after ended

end Run.Yields

end Treewalk
