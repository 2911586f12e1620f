import Treewalk.Heap.Elements
import Treewalk.Heap.Interface
import Treewalk.Heap.Scope

/-!
How the heap may change while a program runs. Records are never removed, what identifies them stays, and
constant cells keep their content, and so does `this`. New names come up only in new scopes and where a declaration is being
run. The type of a value never changes on the way.
-/

namespace Treewalk

theorem getD_push (a : Array α) (x d : α) (i : Nat) :
    (a.push x).getD i d = if i = a.size then x else a.getD i d := by
  simp only [Array.getD_eq_getD_getElem?, Array.getElem?_push]
  split <;> rfl

theorem getD_modify (a : Array α) (f : α → α) (d : α) (i j : Nat) :
    (a.modify i f).getD j d = if i = j ∧ j < a.size then f (a.getD j d) else a.getD j d := by
  simp only [Array.getD_eq_getD_getElem?, Array.getElem?_modify]
  by_cases inside : j < a.size
  · by_cases same : i = j <;> simp [same, inside]
  · simp [inside]

theorem Ref.ext_index {a b : Ref region} (same : a.index = b.index) : a = b := by
  cases a
  cases b
  cases same
  rfl

namespace Heap

theorem scope_addScope (h : Heap) (s : Scope) (r : Ref .scope) :
    (h.addScope s).2.scope r = if r.index = h.scopes.size then s else h.scope r :=
  getD_push h.scopes s default r.index

theorem function_addFunction (h : Heap) (f : Function) (r : Ref .function) :
    (h.addFunction f).2.function r = if r.index = h.functions.size then f else h.function r :=
  getD_push h.functions f default r.index

theorem cls_addClass (h : Heap) (c : Class) (r : Ref .cls) :
    (h.addClass c).2.cls r = if r.index = h.classes.size then c else h.cls r :=
  getD_push h.classes c default r.index

theorem object_addObject (h : Heap) (o : Object) (r : Ref .object) :
    (h.addObject o).2.object r = if r.index = h.objects.size then o else h.object r :=
  getD_push h.objects o default r.index

theorem array_addArray (h : Heap) (a : ArrayObject) (r : Ref .array) :
    (h.addArray a).2.array r = if r.index = h.arrays.size then a else h.array r :=
  getD_push h.arrays a default r.index

theorem property_addProperty (h : Heap) (p : Property) (r : Ref .property) :
    (h.addProperty p).2.property r = if r.index = h.properties.size then p else h.property r :=
  getD_push h.properties p default r.index

theorem interface_addInterface (h : Heap) (i : Interface) (r : Ref .interface) :
    (h.addInterface i).2.interface r = if r.index = h.interfaces.size then i else h.interface r :=
  getD_push h.interfaces i default r.index

theorem scope_define (h : Heap) (r s : Ref .scope) (name : String) (cell : Cell) :
    (h.define r name cell).scope s =
      if r.index = s.index ∧ s.index < h.scopes.size then
        { h.scope s with names := (h.scope s).names.insert name cell }
      else h.scope s :=
  getD_modify h.scopes _ default r.index s.index

theorem object_setFields (h : Heap) (r o : Ref .object) (fields : NameMap Cell) :
    (h.setFields r fields).object o =
      if r.index = o.index ∧ o.index < h.objects.size then { h.object o with fields := fields }
      else h.object o :=
  getD_modify h.objects _ default r.index o.index

theorem object_setField (h : Heap) (r o : Ref .object) (name : String) (cell : Cell) :
    (h.setField r name cell).object o =
      if r.index = o.index ∧ o.index < h.objects.size then
        { h.object o with fields := (h.object o).fields.insert name cell }
      else h.object o :=
  getD_modify h.objects _ default r.index o.index

theorem cls_setClassFields (h : Heap) (r c : Ref .cls) (fields : NameMap Cell) :
    (h.setClassFields r fields).cls c =
      if r.index = c.index ∧ c.index < h.classes.size then { h.cls c with fields := fields }
      else h.cls c :=
  getD_modify h.classes _ default r.index c.index

theorem cls_setClassField (h : Heap) (r c : Ref .cls) (name : String) (cell : Cell) :
    (h.setClassField r name cell).cls c =
      if r.index = c.index ∧ c.index < h.classes.size then
        { h.cls c with fields := (h.cls c).fields.insert name cell }
      else h.cls c :=
  getD_modify h.classes _ default r.index c.index

theorem array_setElement (h : Heap) (r a : Ref .array) (index : Nat) (value : Value) :
    (h.setElement r index value).array a =
      if r.index = a.index ∧ a.index < h.arrays.size then
        { h.array a with elements := (h.array a).elements.setIfInBounds index value }
      else h.array a :=
  getD_modify h.arrays _ default r.index a.index

theorem property_setCache (h : Heap) (r p : Ref .property) (value : Value) :
    (h.setCache r value).property p =
      if r.index = p.index ∧ p.index < h.properties.size then { h.property p with cache := value }
      else h.property p :=
  getD_modify h.properties _ default r.index p.index

theorem scope_of_size_le (h : Heap) {r : Ref .scope} (outside : h.scopes.size ≤ r.index) :
    h.scope r = default := by
  simp [scope, Array.getD_eq_getD_getElem?, outside]

theorem lt_of_enclosing {h : Heap} {r : Ref .scope} (around : (h.scope r).enclosing.isSome) :
    r.index < h.scopes.size := by
  apply Nat.lt_of_not_le
  intro outside
  rw [h.scope_of_size_le outside] at around
  cases around

theorem ancestor?_add (h : Heap) (near far : Nat) (r : Ref .scope) :
    h.ancestor? (near + far) r = (h.ancestor? near r).bind (h.ancestor? far) := by
  induction near generalizing r with
  | zero => simp [ancestor?]
  | succ near ih =>
    rw [Nat.succ_add, ancestor?, ancestor?]
    cases (h.scope r).enclosing with
    | none => rfl
    | some outer => exact ih outer

theorem here?_of_size_le (h : Heap) {r : Ref .scope} (outside : h.scopes.size ≤ r.index) (name : String) :
    h.here? r name = none := by
  rw [here?, h.scope_of_size_le outside]
  rfl

theorem lt_of_here? {h : Heap} {r : Ref .scope} {name : String} (bound : (h.here? r name).isSome) :
    r.index < h.scopes.size := by
  apply Nat.lt_of_not_le
  intro outside
  rw [h.here?_of_size_le outside] at bound
  cases bound

theorem lt_of_classField {h : Heap} {c : Ref .cls} {x : String × Cell}
    (member : x ∈ (h.cls c).fields.entries) : c.index < h.classes.size := by
  apply Nat.lt_of_not_le
  intro outside
  have absent : h.cls c = default := by simp [cls, Array.getD_eq_getD_getElem?, outside]
  rw [absent] at member
  cases member

theorem object_of_size_le {h : Heap} {o : Ref .object} (outside : h.objects.size ≤ o.index) : h.object o = default := by
  simp [object, Array.getD_eq_getD_getElem?, outside]

theorem lt_of_field {h : Heap} {o : Ref .object} {x : String × Cell}
    (member : x ∈ (h.object o).fields.entries) : o.index < h.objects.size := by
  apply Nat.lt_of_not_le
  intro outside
  rw [object_of_size_le outside] at member
  cases member

theorem lt_of_templateScope {h : Heap} {o : Ref .object} {r : Ref .scope}
    (brings : (h.object o).templateScope = some r) : o.index < h.objects.size := by
  apply Nat.lt_of_not_le
  intro outside
  rw [object_of_size_le outside] at brings
  cases brings

theorem here?_define (h : Heap) (r s : Ref .scope) (name other : String) (cell : Cell) :
    (h.define r name cell).here? s other =
      if r = s ∧ other = name ∧ s.index < h.scopes.size then some cell else h.here? s other := by
  obtain ⟨i⟩ := r
  obtain ⟨j⟩ := s
  rw [here?, scope_define]
  by_cases target : i = j ∧ j < h.scopes.size
  · simp [target, NameMap.find?_insert, here?]
  · rw [if_neg target, if_neg]
    · rfl
    · rintro ⟨same, -, inside⟩
      exact target ⟨by cases same; rfl, inside⟩

theorem here?_addScope (h : Heap) (s : Scope) (r : Ref .scope) (name : String) :
    (h.addScope s).2.here? r name =
      if r.index = h.scopes.size then s.names.find? name else h.here? r name := by
  rw [here?, scope_addScope]
  split <;> rfl

end Heap

def ConstantsKept (cells later : NameMap Cell) : Prop :=
  ∀ name cell, cells.find? name = some cell → cell.modifiers.const = true →
    later.find? name = some cell

theorem ConstantsKept.refl (cells : NameMap Cell) : ConstantsKept cells cells :=
  fun _ _ found _ => found

theorem ConstantsKept.trans {first second third : NameMap Cell} (kept : ConstantsKept first second)
    (later : ConstantsKept second third) : ConstantsKept first third :=
  fun name cell found constant => later name cell (kept name cell found constant) constant

/-- A cell may be written over by one that differs only if it is not constant. -/
theorem ConstantsKept.insert {cells : NameMap Cell} {name : String} {old : Cell}
    (found : cells.find? name = some old) (cell : Cell)
    (kept : old.modifiers.const = true → cell = old) : ConstantsKept cells (cells.insert name cell) := by
  intro other held here constant
  rw [NameMap.find?_insert]
  split
  · rename_i same
    subst same
    rw [found] at here
    cases here
    rw [kept constant]
  · exact here

structure Class.Stays (c later : Class) : Prop where
  name : later.name = c.name
  superclass : later.superclass = c.superclass
  methods : later.methods = c.methods
  scope : later.scope = c.scope
  templates : later.templates = c.templates
  interfaces : later.interfaces = c.interfaces
  fields : ConstantsKept c.fields later.fields

structure Object.Stays (o later : Object) : Prop where
  cls : later.cls = o.cls
  templateScope : later.templateScope = o.templateScope
  fields : ConstantsKept o.fields later.fields

/-- Only the elements of an array change. -/
structure ArrayObject.Stays (a later : ArrayObject) : Prop where
  elementType : later.elementType = a.elementType
  size : later.elements.size = a.elements.size

structure Property.Stays (p later : Property) : Prop where
  getter : later.getter = p.getter
  setter : later.setter = p.setter
  modifiers : later.modifiers = p.modifiers
  declared : later.declared = p.declared
  cache : p.modifiers.const = true → later.cache = p.cache

theorem Class.Stays.refl (c : Class) : c.Stays c :=
  ⟨rfl, rfl, rfl, rfl, rfl, rfl, .refl _⟩

theorem Class.Stays.trans {a b c : Class} (first : a.Stays b) (second : b.Stays c) : a.Stays c :=
  ⟨second.name.trans first.name, second.superclass.trans first.superclass,
    second.methods.trans first.methods, second.scope.trans first.scope,
    second.templates.trans first.templates, second.interfaces.trans first.interfaces,
    first.fields.trans second.fields⟩

theorem Object.Stays.refl (o : Object) : o.Stays o :=
  ⟨rfl, rfl, .refl _⟩

theorem Object.Stays.trans {a b c : Object} (first : a.Stays b) (second : b.Stays c) : a.Stays c :=
  ⟨second.cls.trans first.cls, second.templateScope.trans first.templateScope,
    first.fields.trans second.fields⟩

theorem ArrayObject.Stays.refl (a : ArrayObject) : a.Stays a :=
  ⟨rfl, rfl⟩

theorem ArrayObject.Stays.trans {a b c : ArrayObject} (first : a.Stays b) (second : b.Stays c) : a.Stays c :=
  ⟨second.elementType.trans first.elementType, second.size.trans first.size⟩

theorem Property.Stays.refl (p : Property) : p.Stays p :=
  ⟨rfl, rfl, rfl, rfl, fun _ => rfl⟩

theorem Property.Stays.trans {a b c : Property} (first : a.Stays b) (second : b.Stays c) : a.Stays c :=
  ⟨second.getter.trans first.getter, second.setter.trans first.setter,
    second.modifiers.trans first.modifiers, second.declared.trans first.declared, fun constant =>
      (second.cache (by rw [first.modifiers, constant])).trans (first.cache constant)⟩

namespace Heap

/-- The heap has changed as a program may change it, with declarations only where `may` allows. -/
structure Grows (may : Ref .scope → String → Prop) (h later : Heap) : Prop where
  scopes : h.scopes.size ≤ later.scopes.size
  enclosing : ∀ r : Ref .scope, r.index < h.scopes.size →
    (later.scope r).enclosing = (h.scope r).enclosing
  bound : ∀ r name, (h.here? r name).isSome → (later.here? r name).isSome
  fresh : ∀ r name, r.index < h.scopes.size → ¬may r name → h.here? r name = none →
    later.here? r name = none
  modifiers : ∀ r name cell, ¬may r name → h.here? r name = some cell →
    ∃ held, later.here? r name = some held ∧ held.modifiers = cell.modifiers
  constant : ∀ r name cell, h.here? r name = some cell → cell.modifiers.const = true →
    ¬(r = .globals ∧ may r name) → later.here? r name = some cell
  receiver : ∀ r cell, h.here? r "this" = some cell → later.here? r "this" = some cell
  functions : ∀ f : Ref .function, f.index < h.functions.size →
    f.index < later.functions.size ∧ later.function f = h.function f
  classes : ∀ c : Ref .cls, c.index < h.classes.size →
    c.index < later.classes.size ∧ (h.cls c).Stays (later.cls c)
  objects : ∀ o : Ref .object, o.index < h.objects.size →
    o.index < later.objects.size ∧ (h.object o).Stays (later.object o)
  arrays : ∀ a : Ref .array, a.index < h.arrays.size →
    a.index < later.arrays.size ∧ (h.array a).Stays (later.array a)
  properties : ∀ p : Ref .property, p.index < h.properties.size →
    p.index < later.properties.size ∧ (h.property p).Stays (later.property p)
  interfaces : ∀ i : Ref .interface, i.index < h.interfaces.size →
    i.index < later.interfaces.size ∧ later.interface i = h.interface i
  enumerations : h.enumerations.size ≤ later.enumerations.size

namespace Grows

variable {may : Ref .scope → String → Prop} {h h' h'' : Heap}

theorem refl (may : Ref .scope → String → Prop) (h : Heap) : Grows may h h where
  scopes := Nat.le_refl _
  enclosing _ _ := rfl
  bound _ _ found := found
  fresh _ _ _ _ absent := absent
  modifiers _ _ cell _ found := ⟨cell, found, rfl⟩
  constant _ _ _ found _ _ := found
  receiver _ _ found := found
  functions _ inside := ⟨inside, rfl⟩
  classes _ inside := ⟨inside, .refl _⟩
  objects _ inside := ⟨inside, .refl _⟩
  arrays _ inside := ⟨inside, .refl _⟩
  properties _ inside := ⟨inside, .refl _⟩
  interfaces _ inside := ⟨inside, rfl⟩
  enumerations := Nat.le_refl _

theorem trans (first : Grows may h h') (second : Grows may h' h'') : Grows may h h'' where
  scopes := Nat.le_trans first.scopes second.scopes
  enclosing r inside := (second.enclosing r (Nat.lt_of_lt_of_le inside first.scopes)).trans
    (first.enclosing r inside)
  bound r name found := second.bound r name (first.bound r name found)
  fresh r name inside shut absent :=
    second.fresh r name (Nat.lt_of_lt_of_le inside first.scopes) shut
      (first.fresh r name inside shut absent)
  modifiers r name cell shut found := by
    obtain ⟨held, there, same⟩ := first.modifiers r name cell shut found
    obtain ⟨last, finally', still⟩ := second.modifiers r name held shut there
    exact ⟨last, finally', still.trans same⟩
  constant r name cell found constant shut :=
    second.constant r name cell (first.constant r name cell found constant shut) constant shut
  receiver r cell found := second.receiver r cell (first.receiver r cell found)
  functions f inside :=
    have ⟨there, same⟩ := first.functions f inside
    have ⟨later, still⟩ := second.functions f there
    ⟨later, still.trans same⟩
  classes c inside :=
    have ⟨there, same⟩ := first.classes c inside
    have ⟨later, still⟩ := second.classes c there
    ⟨later, same.trans still⟩
  objects o inside :=
    have ⟨there, same⟩ := first.objects o inside
    have ⟨later, still⟩ := second.objects o there
    ⟨later, same.trans still⟩
  arrays a inside :=
    have ⟨there, same⟩ := first.arrays a inside
    have ⟨later, still⟩ := second.arrays a there
    ⟨later, same.trans still⟩
  properties p inside :=
    have ⟨there, same⟩ := first.properties p inside
    have ⟨later, still⟩ := second.properties p there
    ⟨later, same.trans still⟩
  interfaces i inside :=
    have ⟨there, same⟩ := first.interfaces i inside
    have ⟨later, still⟩ := second.interfaces i there
    ⟨later, still.trans same⟩
  enumerations := Nat.le_trans first.enumerations second.enumerations

theorem mono {may' : Ref .scope → String → Prop} (grows : Grows may h h')
    (wider : ∀ r name, may r name → may' r name) : Grows may' h h' :=
  { grows with
    fresh := fun r name inside shut => grows.fresh r name inside fun open' => shut (wider r name open')
    modifiers := fun r name cell shut =>
      grows.modifiers r name cell fun open' => shut (wider r name open')
    constant := fun r name cell found constant shut =>
      grows.constant r name cell found constant fun open' => shut ⟨open'.1, wider r name open'.2⟩ }

theorem size_classes (grows : Grows may h h') : h.classes.size ≤ h'.classes.size := by
  by_cases none : h.classes.size = 0
  · omega
  · have last := (grows.classes ⟨h.classes.size - 1⟩ (by simp only; omega)).1
    simp only at last
    omega

theorem addScope (may : Ref .scope → String → Prop) (h : Heap) (s : Scope) :
    Grows may h (h.addScope s).2 :=
  have away (r : Ref .scope) (inside : r.index < h.scopes.size) : (h.addScope s).2.scope r = h.scope r := by
    rw [scope_addScope, if_neg (Nat.ne_of_lt inside)]
  have here (r : Ref .scope) (name : String) (bound : (h.here? r name).isSome) :
      (h.addScope s).2.here? r name = h.here? r name := by
    rw [here?, away r (lt_of_here? bound)]
    rfl
  { refl may h with
    scopes := by simp [Heap.addScope]
    enclosing := fun r inside => by rw [away r inside]
    bound := fun r name bound => by rwa [here r name bound]
    fresh := fun r name inside _ absent => by
      rw [here?, away r inside]
      exact absent
    modifiers := fun r name cell _ found => ⟨cell, by rw [here r name (by simp [found]), found], rfl⟩
    constant := fun r name cell found _ _ => by rw [here r name (by simp [found]), found]
    receiver := fun r cell found => by rw [here r "this" (by simp [found]), found] }

theorem addFunction (may : Ref .scope → String → Prop) (h : Heap) (f : Function) :
    Grows may h (h.addFunction f).2 :=
  { refl may h with
    functions := fun r inside => by
      rw [function_addFunction, if_neg (Nat.ne_of_lt inside)]
      exact ⟨by simp only [Heap.addFunction, Array.size_push]; omega, rfl⟩ }

theorem addClass (may : Ref .scope → String → Prop) (h : Heap) (c : Class) :
    Grows may h (h.addClass c).2 :=
  { refl may h with
    classes := fun r inside => by
      rw [cls_addClass, if_neg (Nat.ne_of_lt inside)]
      exact ⟨by simp only [Heap.addClass, Array.size_push]; omega, .refl _⟩ }

theorem addObject (may : Ref .scope → String → Prop) (h : Heap) (o : Object) :
    Grows may h (h.addObject o).2 :=
  { refl may h with
    objects := fun r inside => by
      rw [object_addObject, if_neg (Nat.ne_of_lt inside)]
      exact ⟨by simp only [Heap.addObject, Array.size_push]; omega, .refl _⟩ }

theorem addArray (may : Ref .scope → String → Prop) (h : Heap) (a : ArrayObject) :
    Grows may h (h.addArray a).2 :=
  { refl may h with
    arrays := fun r inside => by
      rw [array_addArray, if_neg (Nat.ne_of_lt inside)]
      exact ⟨by simp only [Heap.addArray, Array.size_push]; omega, .refl _⟩ }

theorem addProperty (may : Ref .scope → String → Prop) (h : Heap) (p : Property) :
    Grows may h (h.addProperty p).2 :=
  { refl may h with
    properties := fun r inside => by
      rw [property_addProperty, if_neg (Nat.ne_of_lt inside)]
      exact ⟨by simp only [Heap.addProperty, Array.size_push]; omega, .refl _⟩ }

theorem addInterface (may : Ref .scope → String → Prop) (h : Heap) (i : Interface) :
    Grows may h (h.addInterface i).2 :=
  { refl may h with
    interfaces := fun r inside => by
      rw [interface_addInterface, if_neg (Nat.ne_of_lt inside)]
      exact ⟨by simp only [Heap.addInterface, Array.size_push]; omega, rfl⟩ }

theorem addEnumeration (may : Ref .scope → String → Prop) (h : Heap) (e : Enumeration) :
    Grows may h (h.addEnumeration e).2 :=
  { refl may h with enumerations := by simp [Heap.addEnumeration] }

/-- A definition keeps to the rules if it may add the name or only replaces what is there, and if it
touches neither a constant nor `this`. -/
theorem define {r : Ref .scope} {name : String} {cell : Cell} (named : name ≠ "this")
    (allowed : may r name ∨ ∃ old, h.here? r name = some old ∧ cell.modifiers = old.modifiers)
    (kept : ∀ old, h.here? r name = some old → old.modifiers.const = true →
      ¬(r = .globals ∧ may r name) → cell = old) : Grows may h (h.define r name cell) :=
  { refl may h with
    scopes := by simp [Heap.define]
    enclosing := fun s _ => by
      rw [scope_define]
      split <;> rfl
    bound := fun s other found => by
      rw [here?_define]
      split
      · rfl
      · exact found
    fresh := fun s other _ shut absent => by
      rw [here?_define]
      split
      · rename_i target
        obtain ⟨rfl, rfl, -⟩ := target
        rcases allowed with allowed | ⟨old, found, -⟩
        · exact absurd allowed shut
        · rw [absent] at found
          cases found
      · exact absent
    modifiers := fun s other held shut found => by
      rw [here?_define]
      split
      · rename_i target
        obtain ⟨rfl, rfl, -⟩ := target
        rcases allowed with allowed | ⟨old, there, same⟩
        · exact absurd allowed shut
        · rw [found] at there
          cases there
          exact ⟨cell, rfl, same⟩
      · exact ⟨held, found, rfl⟩
    constant := fun s other held found constant shut => by
      rw [here?_define]
      split
      · rename_i target
        obtain ⟨rfl, rfl, -⟩ := target
        rw [kept held found constant shut]
      · exact found
    receiver := fun s held found => by
      rw [here?_define, if_neg fun target => named target.2.1.symm]
      exact found }

theorem setField {o : Ref .object} {name : String} {old cell : Cell}
    (found : (h.object o).fields.find? name = some old)
    (kept : old.modifiers.const = true → cell = old) : Grows may h (h.setField o name cell) :=
  { refl may h with
    objects := fun r inside => by
      rw [object_setField]
      refine ⟨by simpa [Heap.setField] using inside, ?_⟩
      split
      · rename_i target
        obtain rfl := Ref.ext_index target.1
        exact ⟨rfl, rfl, .insert found cell kept⟩
      · exact .refl _ }

theorem setClassField {c : Ref .cls} {name : String} {old cell : Cell}
    (found : (h.cls c).fields.find? name = some old)
    (kept : old.modifiers.const = true → cell = old) : Grows may h (h.setClassField c name cell) :=
  { refl may h with
    classes := fun r inside => by
      rw [cls_setClassField]
      refine ⟨by simpa [Heap.setClassField] using inside, ?_⟩
      split
      · rename_i target
        obtain rfl := Ref.ext_index target.1
        exact ⟨rfl, rfl, rfl, rfl, rfl, rfl, .insert found cell kept⟩
      · exact .refl _ }

theorem setFields {o : Ref .object} (none : (h.object o).fields = .empty) (fields : NameMap Cell) :
    Grows may h (h.setFields o fields) :=
  { refl may h with
    objects := fun r inside => by
      rw [object_setFields]
      refine ⟨by simpa [Heap.setFields] using inside, ?_⟩
      split
      · rename_i target
        obtain rfl := Ref.ext_index target.1
        exact ⟨rfl, rfl, by simp [ConstantsKept, none]⟩
      · exact .refl _ }

theorem setClassFields {c : Ref .cls} (none : (h.cls c).fields = .empty) (fields : NameMap Cell) :
    Grows may h (h.setClassFields c fields) :=
  { refl may h with
    classes := fun r inside => by
      rw [cls_setClassFields]
      refine ⟨by simpa [Heap.setClassFields] using inside, ?_⟩
      split
      · rename_i target
        obtain rfl := Ref.ext_index target.1
        exact ⟨rfl, rfl, rfl, rfl, rfl, rfl, by simp [ConstantsKept, none]⟩
      · exact .refl _ }

theorem setElement (may : Ref .scope → String → Prop) (h : Heap) (a : Ref .array) (index : Nat)
    (value : Value) : Grows may h (h.setElement a index value) :=
  { refl may h with
    arrays := fun r inside => by
      rw [array_setElement]
      refine ⟨by simpa [Heap.setElement] using inside, ?_⟩
      split
      · rename_i target
        obtain rfl := Ref.ext_index target.1
        exact ⟨rfl, Array.size_setIfInBounds⟩
      · exact .refl _ }

theorem setCache (may : Ref .scope → String → Prop) {h : Heap} {p : Ref .property}
    (open' : (h.property p).modifiers.const = false) (value : Value) : Grows may h (h.setCache p value) :=
  { refl may h with
    properties := fun r inside => by
      rw [property_setCache]
      refine ⟨by simpa [Heap.setCache] using inside, ?_⟩
      split
      · rename_i target
        obtain rfl := Ref.ext_index target.1
        refine ⟨rfl, rfl, rfl, rfl, fun constant => ?_⟩
        rw [open'] at constant
        cases constant
      · exact .refl _ }

end Grows

/-! What classes have by themselves and from their superclasses, and what interfaces ask of them. -/

/-- Every class is younger than its superclass. -/
def Ancestry (h : Heap) : Prop :=
  ∀ c parent : Ref .cls, c.index < h.classes.size → (h.cls c).superclass = some parent →
    parent.index < c.index

theorem Ancestry.grows {may : Ref .scope → String → Prop} {h h' : Heap} (older : h.Ancestry)
    (grows : h.Grows may h') (size : h'.classes.size = h.classes.size) : h'.Ancestry := by
  intro c parent inside found
  rw [size] at inside
  rw [(grows.classes c inside).2.superclass] at found
  exact older c parent inside found

def fieldModifiers? (h : Heap) (c : Ref .cls) (name : String) : Option Modifiers :=
  ((h.cls c).fields.find? name).map Cell.modifiers

/-- A function has the signature modifiers and the arity of another. -/
def Meets (h : Heap) (f required : Ref .function) : Prop :=
  (h.function f).modifiers.signature = (h.function required).modifiers.signature ∧
    (h.function f).arity = (h.function required).arity

/-- What is found in a class is as an interface asks for it. -/
structure Implements (h : Heap) (c : Ref .cls) (i : Ref .interface) : Prop where
  methods : ∀ name required, (h.interface i).methods.find? name = some required →
    ∃ f, h.findMethod? c name = some f ∧ h.Meets f required
  fields : ∀ name required, (h.interface i).fields.find? name = some required →
    ∃ cell, h.findField? c name = some cell ∧
      cell.modifiers.signature = required.modifiers.signature

/-- The heap has grown, and no class has got or lost a field. -/
structure Matures (h later : Heap) : Prop where
  grows : h.Grows (fun _ _ => True) later
  fields : ∀ c name, c.index < h.classes.size → later.fieldModifiers? c name = h.fieldModifiers? c name

theorem Matures.refl (h : Heap) : h.Matures h :=
  ⟨.refl _ h, fun _ _ _ => rfl⟩

theorem Matures.trans {h h' h'' : Heap} (first : h.Matures h') (second : h'.Matures h'') :
    h.Matures h'' :=
  ⟨first.grows.trans second.grows, fun c name inside =>
    (second.fields c name (first.grows.classes c inside).1).trans (first.fields c name inside)⟩

end Heap

end Treewalk
