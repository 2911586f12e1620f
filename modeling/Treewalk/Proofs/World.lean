import Treewalk.Proofs.Growth
import Treewalk.Proofs.Program

/-!
The heap of a running program, seen with the constructs that opened its scopes. Everything that a sound
world refers to is there; functions can be called where they stand; and what has a declared type conforms
to it. Soundness has two degrees: the strict one also asks that the scopes around every function are
those around its place in the program, all the way out. Where types are followed, it also asks that types
are such as a program can come by, and that arrays hold only what conforms to their element types.
-/

namespace Treewalk

open Scoping

/-- A heap and, for every scope in it, the construct that opened the scope. The global scope is opened by
none, and has some site in the list only to keep its place. -/
structure World where
  sites : List Site
  heap : Heap

/-- A function that is one of a program, or native. -/
def Function.Rooted (view : View) (f : Function) : Prop :=
  match f.body with
  | .user body _ => ∃ p role decl, At view p (.function role decl) ∧ decl.body = some body ∧
      decl.params = f.params
  | .native native receiver => receiver.isSome = true → native = .objectText
  | .missing => True

def Function.Constructs (f : Function) : Prop :=
  f.constructs = true ∧ ∃ body closure, f.body = .user body closure

def Heap.Supplies (h : Heap) (f : Ref .function) : Prop :=
  ∃ i : Ref .interface, i.index < h.interfaces.size ∧ ∃ name, (name, f) ∈ (h.interface i).methods.entries

/-- Where names may be declared: in scopes from a number on, and at one more place; and whether a class may
be left unfinished. -/
structure Permit where
  since : Nat
  target : Option (Ref .scope × String) := none
  makes : Bool := false

namespace Permit

def Allows (k : Permit) (r : Ref .scope) (name : String) : Prop :=
  k.since ≤ r.index ∨ k.target = some (r, name)

def any : Permit :=
  ⟨0, none, false⟩

def making (k : Permit) : Permit :=
  { k with makes := true }

structure Within (k wider : Permit) : Prop where
  names : ∀ r name, k.Allows r name → wider.Allows r name
  makes : wider.makes = false → k.makes = false

theorem Within.refl (k : Permit) : k.Within k :=
  ⟨fun _ _ allows => allows, id⟩

theorem Within.trans {k wider widest : Permit} (first : k.Within wider) (second : wider.Within widest) :
    k.Within widest :=
  ⟨fun r name allows => second.names r name (first.names r name allows),
    fun finished => first.makes (second.makes finished)⟩

end Permit

namespace World

def siteOf? (w : World) (r : Ref .scope) : Option Site :=
  w.sites[r.index]?

/-- A scope is an instance of a level: the construct of the level opened it, and it binds the names of
the level but for one that is still being declared. -/
structure Realizes (w : World) (l : Scoping.Level) (r : Ref .scope) : Prop where
  site : w.siteOf? r = some l.site
  inner : r ≠ .globals
  binds : ∀ name, l.frame.contains name = true → l.pending ≠ some name →
    (w.heap.here? r name).isSome = true

/-- The scopes from one outward are, one by one, instances of the levels, and then comes the global
scope. -/
def Stands (w : World) : List Scoping.Level → Ref .scope → Prop
  | [], r => r = .globals
  | l :: rest, r => w.Realizes l r ∧ ∃ outer, (w.heap.scope r).enclosing = some outer ∧ Stands w rest outer

def Begins (w : World) (levels : List Scoping.Level) (r : Ref .scope) : Prop :=
  match levels with
  | [] => r = .globals
  | l :: _ => w.Realizes l r

def Roomy (w : World) (levels : List Scoping.Level) (r : Ref .scope) : Prop :=
  ∀ l ∈ levels.head?, ∀ name, (w.heap.here? r name).isSome = true → l.frame.contains name = true

structure Placed (view : View) (w : World) (levels : List Scoping.Level) (r : Ref .scope) : Prop where
  begins : w.Begins levels r
  roomy : w.Roomy levels r
  around : view.strict → w.Stands levels r

section

variable (view : View) (w : World)

/-- A function that has all the scopes that its place asks for. -/
def Closed (f : Function) : Prop :=
  match f.body with
  | .user body closure => ∃ p role decl, At view p (.function role decl) ∧ decl.body = some body ∧
      decl.params = f.params ∧ (view.strict → w.Stands p.levels closure)
  | .native native receiver => receiver.isSome = true → native = .objectText
  | .missing => True

/-- A function that lacks only the scope that binds `this`. -/
def Awaits (f : Function) : Prop :=
  match f.body with
  | .user body closure => ∃ p role decl owner rest, At view p (.function role decl) ∧
      decl.body = some body ∧ decl.params = f.params ∧
        p.levels = ⟨.receiver owner, frameOf ["this"], none⟩ :: rest ∧ (view.strict → w.Stands rest closure)
  | .native native _ => native = .objectText
  | .missing => True

def FunctionIs (ready : Function → Prop) (f : Ref .function) : Prop :=
  f.index < w.heap.functions.size ∧ ready (w.heap.function f)

/-- A method of a class. A constructor yields the new instance, unless an interface has supplied it. -/
def MethodKnown (x : String × Ref .function) : Prop :=
  w.FunctionIs (w.Awaits view) x.2 ∧
    (x.1 = constructorName → (w.heap.function x.2).Constructs ∨ w.heap.Supplies x.2)

def Known : Value → Prop
  | .type t => view.typed → t.Denotable
  | .function f => w.FunctionIs (w.Closed view) f
  | .cls c => c.index < w.heap.classes.size
  | .object o => o.index < w.heap.objects.size
  | .array a => a.index < w.heap.arrays.size
  | .interface i => i.index < w.heap.interfaces.size
  | .enumeration e => e.index < w.heap.enumerations.size
  | _ => True

/-- A cell whose content is known. If it is computed, it has the modifiers of the property, and the accessors
have a property. -/
def CellKnown (ready : Function → Prop) (cell : Cell) : Prop :=
  match cell.content with
  | .plain value => w.Known view value
  | .computed p => p.index < w.heap.properties.size ∧ (w.heap.property p).modifiers = cell.modifiers ∧
      w.FunctionIs ready (w.heap.property p).getter ∧
      ∀ f ∈ (w.heap.property p).setter, w.FunctionIs ready f

end

end World

def Modifiers.Admits (m : Modifiers) (value : Value) : Prop :=
  ∀ n, value = .num n → (m.unsigned = true → ¬n < 0) ∧ (m.byte = true → 0 ≤ n ∧ n ≤ 255)

/-- A plain cell holds nil or what conforms to its declared type, and keeps its range. -/
def Heap.Admits (h : Heap) (cell : Cell) : Prop :=
  ∀ value, cell.content = .plain value →
    (∀ t ∈ cell.declared, value = .nil ∨ h.conforms value t = true) ∧ cell.modifiers.Admits value

/-- What a method is bound to: an instance or a class. -/
def Value.Receives : Value → Prop
  | .object _ | .cls _ => True
  | _ => False

/-- The names that classes give a meaning of their own stand for a class and for a receiver, and the second is
bound only in a scope that is made for it. -/
structure Scoping.Site.Serves (site : Site) (name : String) (cell : Cell) : Prop where
  superclass : name = "super" → ∃ c, cell.content = .plain (.cls c)
  receiver : name = "this" → ∃ owner value, site = .receiver owner ∧ cell.content = .plain value ∧ value.Receives

theorem Scoping.Site.serves_ordinary {site : Site} {name : String} {cell : Cell}
    (ordinary : Ordinary name) : site.Serves name cell :=
  ⟨fun same => absurd same ordinary.2, fun same => absurd same ordinary.1⟩

namespace World

section

variable (view : View) (w : World)

/-- A field of a class. Only static ones have their accessors bound and their types resolved. -/
def FieldKnown (cell : Cell) : Prop :=
  if cell.modifiers.static then w.CellKnown view (w.Closed view) cell ∧ w.heap.Admits cell
  else w.CellKnown view (w.Awaits view) cell

structure ClassKnown (c : Class) : Prop where
  word : ∀ x ∈ c.name.toList, Piece.isWordChar x = true
  templates : ∀ name ∈ c.templates, Ordinary name ∧ ∀ x ∈ name.toList, Piece.isWordChar x = true
  superclass : ∀ parent ∈ c.superclass, parent.index < w.heap.classes.size
  methods : ∀ x ∈ c.methods.entries, w.MethodKnown view x
  fields : ∀ x ∈ c.fields.entries, w.FieldKnown view x.2
  interfaces : ∀ i ∈ c.interfaces, i.index < w.heap.interfaces.size
  /-- Templates are bound in a scope that the class itself has opened. -/
  scope : c.templates ≠ [] → c.scope ≠ .globals ∧ ∃ decl, w.siteOf? c.scope = some (.cls decl) ∧
    ∀ name ∈ c.templates, (Place.classFrame decl).contains name = true

structure ObjectKnown (o : Object) : Prop where
  cls : o.cls.index < w.heap.classes.size
  fields : ∀ x ∈ o.fields.entries, w.CellKnown view (w.Closed view) x.2
  /-- The scope of an instance is a twin of the scope of its class. -/
  scope : ∀ r ∈ o.templateScope, r ≠ .globals ∧ (w.heap.cls o.cls).scope ≠ .globals ∧
    (w.heap.scope r).enclosing = (w.heap.scope (w.heap.cls o.cls).scope).enclosing ∧
    ∃ decl, w.siteOf? r = some (.cls decl) ∧ w.siteOf? (w.heap.cls o.cls).scope = some (.cls decl)

/-- Where types are followed, an array holds nil and what conforms to its element type. -/
structure ArrayKnown (a : ArrayObject) : Prop where
  elements : ∀ value ∈ a.elements, w.Known view value
  elementType : view.typed → a.elementType.Denotable
  admits : view.typed → ∀ value ∈ a.elements, value = .nil ∨ w.heap.conforms value a.elementType = true

structure InterfaceKnown (i : Interface) : Prop where
  distinct : i.methods.names.Nodup
  methods : ∀ x ∈ i.methods.entries, w.FunctionIs (w.Awaits view) x.2

structure Sound : Prop where
  sites : w.sites.length = w.heap.scopes.size
  globals : 0 < w.heap.scopes.size
  /-- There is the root of all classes. -/
  root : 0 < w.heap.classes.size
  ancestry : w.heap.Ancestry
  outside : ∀ decl, w.siteOf? .globals ≠ some (.cls decl)
  outermost : (w.heap.scope .globals).enclosing = none
  inner : ∀ r : Ref .scope, 0 < r.index → r.index < w.heap.scopes.size →
    (w.heap.scope r).enclosing.isSome = true
  cells : ∀ r name cell, w.heap.here? r name = some cell →
    w.CellKnown view (w.Closed view) cell ∧ w.heap.Admits cell
  serves : ∀ r name cell, w.heap.here? r name = some cell →
    ∃ site, w.siteOf? r = some site ∧ site.Serves name cell
  dynamic : ∀ name cell, w.heap.here? .globals name = some cell → cell.modifiers.static = false
  classScopes : ∀ r decl, w.siteOf? r = some (.cls decl) →
    ∀ name, (w.heap.here? r name).isSome = (Place.classFrame decl).contains name
  functions : ∀ f : Ref .function, f.index < w.heap.functions.size → (w.heap.function f).Rooted view
  classes : ∀ c : Ref .cls, c.index < w.heap.classes.size → w.ClassKnown view (w.heap.cls c)
  objects : ∀ o : Ref .object, o.index < w.heap.objects.size → w.ObjectKnown view (w.heap.object o)
  arrays : ∀ a : Ref .array, a.index < w.heap.arrays.size → w.ArrayKnown view (w.heap.array a)
  caches : ∀ p : Ref .property, p.index < w.heap.properties.size →
    w.Known view (w.heap.property p).cache
  interfaces : ∀ i : Ref .interface, i.index < w.heap.interfaces.size →
    w.InterfaceKnown view (w.heap.interface i)

end

/-- The classes of a world are still there, and a new one implements its interfaces since it was
finished. -/
structure Upkeep (w later : World) : Prop where
  fields : ∀ c name, c.index < w.heap.classes.size →
    later.heap.fieldModifiers? c name = w.heap.fieldModifiers? c name
  born : ∀ c : Ref .cls, w.heap.classes.size ≤ c.index → c.index < later.heap.classes.size →
    ∃ (view : View) (finished : World), finished.Sound view ∧ c.index < finished.heap.classes.size ∧
      (∀ i ∈ (finished.heap.cls c).interfaces, finished.heap.Implements c i) ∧
      finished.heap.Matures later.heap

/-- One world comes after another in a run. -/
structure Leads (k : Permit) (w later : World) : Prop where
  sites : ∀ r site, w.siteOf? r = some site → later.siteOf? r = some site
  grows : w.heap.Grows k.Allows later.heap
  upkeep : k.makes = false → w.Upkeep later

namespace Upkeep

variable {w w' w'' : World}

theorem same (classes : w'.heap.classes = w.heap.classes) : w.Upkeep w' where
  fields c name _ := by rw [Heap.fieldModifiers?, Heap.fieldModifiers?, Heap.cls, Heap.cls, classes]
  born c new inside := by
    rw [classes] at inside
    omega

theorem trans (first : w.Upkeep w') (second : w'.Upkeep w'')
    (before : w.heap.classes.size ≤ w'.heap.classes.size)
    (grows : w'.heap.Grows (fun _ _ => True) w''.heap) : w.Upkeep w'' where
  fields c name inside :=
    (second.fields c name (Nat.lt_of_lt_of_le inside before)).trans (first.fields c name inside)
  born c new inside := by
    by_cases old : c.index < w'.heap.classes.size
    · obtain ⟨view, finished, sound, there, implements, matures⟩ := first.born c new old
      exact ⟨view, finished, sound, there, implements, matures.trans ⟨grows, second.fields⟩⟩
    · exact second.born c (Nat.le_of_not_lt old) inside

end Upkeep

namespace Leads

variable {k : Permit} {w w' w'' : World}

theorem refl (k : Permit) (w : World) : w.Leads k w :=
  ⟨fun _ _ found => found, .refl _ _, fun _ => .same rfl⟩

theorem trans (first : w.Leads k w') (second : w'.Leads k w'') : w.Leads k w'' :=
  ⟨fun r site found => second.sites r site (first.sites r site found), first.grows.trans second.grows,
    fun finished => (first.upkeep finished).trans (second.upkeep finished) first.grows.size_classes
      (second.grows.mono fun _ _ _ => trivial)⟩

theorem mono {wider : Permit} (leads : w.Leads k w') (within : k.Within wider) : w.Leads wider w' :=
  ⟨leads.sites, leads.grows.mono within.names, fun finished => leads.upkeep (within.makes finished)⟩

theorem size (leads : w.Leads k w') : w.heap.scopes.size ≤ w'.heap.scopes.size :=
  leads.grows.scopes

end Leads

section

variable {view : View} {k : Permit} {w w' : World} (leads : w.Leads k w')

include leads

theorem Realizes.mono {l : Scoping.Level} {r : Ref .scope} (here : w.Realizes l r) : w'.Realizes l r :=
  ⟨leads.sites r l.site here.site, here.inner, fun name found settled =>
    leads.grows.bound r name (here.binds name found settled)⟩

theorem Stands.mono {levels : List Scoping.Level} {r : Ref .scope} (stands : w.Stands levels r) :
    w'.Stands levels r := by
  induction levels generalizing r with
  | nil => exact stands
  | cons l rest ih =>
    obtain ⟨here, outer, around, further⟩ := stands
    have inside : r.index < w.heap.scopes.size := Heap.lt_of_enclosing (by rw [around]; rfl)
    exact ⟨here.mono leads, outer, by rw [leads.grows.enclosing r inside, around], ih further⟩

theorem Begins.mono {levels : List Scoping.Level} {r : Ref .scope} (begins : w.Begins levels r) :
    w'.Begins levels r := by
  cases levels with
  | nil => exact begins
  | cons l rest => exact Realizes.mono leads begins

theorem Closed.mono {f : Function} (closed : w.Closed view f) : w'.Closed view f := by
  unfold Closed at closed ⊢
  split
  · rename_i body closure found
    rw [found] at closed
    obtain ⟨p, role, decl, stands, same, params, around⟩ := closed
    exact ⟨p, role, decl, stands, same, params, fun asked => (around asked).mono leads⟩
  · rename_i found
    rwa [found] at closed
  · trivial

theorem Awaits.mono {f : Function} (awaits : w.Awaits view f) : w'.Awaits view f := by
  unfold Awaits at awaits ⊢
  split
  · rename_i body closure found
    rw [found] at awaits
    obtain ⟨p, role, decl, owner, rest, stands, same, params, levels, around⟩ := awaits
    exact ⟨p, role, decl, owner, rest, stands, same, params, levels,
      fun asked => (around asked).mono leads⟩
  · rename_i found
    rwa [found] at awaits
  · trivial

theorem FunctionIs.mono {ready ready' : Function → Prop} (still : ∀ f, ready f → ready' f)
    {f : Ref .function} (held : w.FunctionIs ready f) : w'.FunctionIs ready' f := by
  obtain ⟨inside, same⟩ := leads.grows.functions f held.1
  exact ⟨inside, by rw [same]; exact still _ held.2⟩

theorem MethodKnown.mono {x : String × Ref .function} (known : w.MethodKnown view x) :
    w'.MethodKnown view x := by
  refine ⟨known.1.mono leads fun _ => Awaits.mono leads, fun named => ?_⟩
  rcases known.2 named with constructs | ⟨i, inside, name, member⟩
  · rw [(leads.grows.functions x.2 known.1.1).2]
    exact .inl constructs
  · obtain ⟨there, same⟩ := leads.grows.interfaces i inside
    exact .inr ⟨i, there, name, by rwa [same]⟩

theorem Known.mono {value : Value} (known : w.Known view value) : w'.Known view value := by
  cases value with
  | function f =>
    have held : w.FunctionIs (w.Closed view) f := known
    exact held.mono leads fun _ => Closed.mono leads
  | cls c => exact (leads.grows.classes c known).1
  | object o => exact (leads.grows.objects o known).1
  | array a => exact (leads.grows.arrays a known).1
  | interface i => exact (leads.grows.interfaces i known).1
  | enumeration e => exact Nat.lt_of_lt_of_le known leads.grows.enumerations
  | type t => exact known
  | _ => trivial

theorem CellKnown.mono {ready ready' : Function → Prop} (still : ∀ f, ready f → ready' f) {cell : Cell}
    (known : w.CellKnown view ready cell) : w'.CellKnown view ready' cell := by
  unfold CellKnown at known ⊢
  split
  · rename_i found
    rw [found] at known
    exact Known.mono leads known
  · rename_i p found
    rw [found] at known
    obtain ⟨inside, modifiers, getter, setter⟩ := known
    obtain ⟨there, stays⟩ := leads.grows.properties p inside
    rw [stays.getter, stays.setter, stays.modifiers]
    exact ⟨there, modifiers, getter.mono leads still, fun f member => (setter f member).mono leads still⟩

end

theorem Closed.rooted {view : View} {w : World} {f : Function} (closed : w.Closed view f) :
    f.Rooted view := by
  unfold Closed at closed
  unfold Function.Rooted
  split
  · rename_i found
    rw [found] at closed
    obtain ⟨p, role, decl, stands, same, params, -⟩ := closed
    exact ⟨p, role, decl, stands, same, params⟩
  · rename_i found
    rwa [found] at closed
  · trivial

theorem Awaits.rooted {view : View} {w : World} {f : Function} (awaits : w.Awaits view f) :
    f.Rooted view := by
  unfold Awaits at awaits
  unfold Function.Rooted
  split
  · rename_i found
    rw [found] at awaits
    obtain ⟨p, role, decl, -, -, stands, same, params, -, -⟩ := awaits
    exact ⟨p, role, decl, stands, same, params⟩
  · rename_i found
    rw [found] at awaits
    exact fun _ => awaits
  · trivial

def Lasting (ready : World → Function → Prop) : Prop :=
  ∀ k w w' f, World.Leads k w w' → ready w f → ready w' f

theorem closed_lasting (view : View) : Lasting (Closed view) :=
  fun _ _ _ _ leads => Closed.mono leads

theorem awaits_lasting (view : View) : Lasting (Awaits view) :=
  fun _ _ _ _ leads => Awaits.mono leads

end World

/-! The type of a value depends on parts of the heap that stay as they are. -/

namespace Heap

/-- Classes refer only to classes and interfaces that are there. -/
def ClassesLinked (h : Heap) : Prop :=
  ∀ c : Ref .cls, c.index < h.classes.size →
    (∀ parent ∈ (h.cls c).superclass, parent.index < h.classes.size) ∧
      ∀ i ∈ (h.cls c).interfaces, i.index < h.interfaces.size

section

variable {may : Ref .scope → String → Prop} {h h' : Heap} (linked : h.ClassesLinked)
  (grows : h.Grows may h')

include linked grows

theorem lineageFrom_stays (fuel : Nat) {c : Ref .cls} (inside : c.index < h.classes.size) :
    h'.lineageFrom fuel c = h.lineageFrom fuel c := by
  induction fuel generalizing c with
  | zero => rfl
  | succ fuel ih =>
    unfold lineageFrom
    rw [(grows.classes c inside).2.superclass]
    cases found : (h.cls c).superclass with
    | none => rfl
    | some parent => simp only [ih ((linked c inside).1 parent found)]

omit grows in
theorem lineageFrom_inside (fuel : Nat) {c ancestor : Ref .cls} (inside : c.index < h.classes.size)
    (member : ancestor ∈ h.lineageFrom fuel c) : ancestor.index < h.classes.size := by
  induction fuel generalizing c with
  | zero => cases member
  | succ fuel ih =>
    unfold lineageFrom at member
    rcases List.mem_cons.mp member with rfl | member
    · exact inside
    · cases found : (h.cls c).superclass with
      | none => simp [found] at member
      | some parent =>
        rw [found] at member
        exact ih ((linked c inside).1 parent found) member

theorem isNamed_stays (name : String) {c : Ref .cls} (inside : c.index < h.classes.size) :
    h'.isNamed name c = h.isNamed name c := by
  have stays := (grows.classes c inside).2
  have names : ∀ i ∈ (h.cls c).interfaces, (h'.interface i).name = (h.interface i).name :=
    fun i member => by rw [(grows.interfaces i ((linked c inside).2 i member)).2]
  unfold isNamed
  rw [stays.name, stays.interfaces, Bool.eq_iff_iff]
  simp only [Bool.or_eq_true, decide_eq_true_eq, List.any_eq_true]
  constructor
  · rintro (same | ⟨i, member, same⟩)
    · exact .inl same
    · exact .inr ⟨i, member, by rwa [← names i member]⟩
  · rintro (same | ⟨i, member, same⟩)
    · exact .inl same
    · exact .inr ⟨i, member, by rwa [names i member]⟩

theorem isA_stays (name : String) {c : Ref .cls} (inside : c.index < h.classes.size) :
    h'.isA c name = h.isA c name := by
  unfold isA lineage
  rw [lineageFrom_stays linked grows _ inside, Bool.eq_iff_iff]
  simp only [List.any_eq_true]
  constructor <;> rintro ⟨ancestor, member, named⟩ <;> refine ⟨ancestor, member, ?_⟩
  · rwa [← isNamed_stays linked grows name (lineageFrom_inside linked _ inside member)]
  · rwa [isNamed_stays linked grows name (lineageFrom_inside linked _ inside member)]

end

end Heap

namespace World

variable {view : View} {k : Permit} {w w' : World}

theorem Sound.linked (sound : w.Sound view) : w.heap.ClassesLinked :=
  fun c inside => ⟨(sound.classes c inside).superclass, (sound.classes c inside).interfaces⟩

theorem Sound.typeOf_denotable (sound : w.Sound view) (typed : view.typed) {value : Value}
    (known : w.Known view value) : (w.heap.typeOf value).Denotable := by
  cases value with
  | nil => exact .object _
  | bool b => exact .boolean
  | num n => exact .number
  | str s => exact .string
  | function f => exact .function _ _
  | cls c | enumeration e | interface i | type t => exact .typeValue
  | object o => exact .object _
  | array a => exact ((sound.arrays a known).elementType typed).arrayOf

theorem typeOf_stays (sound : w.Sound view) (leads : w.Leads k w') {value : Value}
    (known : w.Known view value) : w'.heap.typeOf value = w.heap.typeOf value := by
  cases value with
  | function f =>
    simp only [Heap.typeOf]
    rw [(leads.grows.functions f known.1).2]
  | object o =>
    simp only [Heap.typeOf]
    rw [(leads.grows.objects o known).2.cls,
      (leads.grows.classes _ (sound.objects o known).cls).2.name]
  | array a =>
    simp only [Heap.typeOf, ArrayObject.type]
    rw [(leads.grows.arrays a known).2.elementType]
  | _ => rfl

/-- What a value conforms to, it conforms to for good. -/
theorem conforms_stays (sound : w.Sound view) (leads : w.Leads k w') {value : Value}
    (known : w.Known view value) (t : TypeDesc) :
    w'.heap.conforms value t = w.heap.conforms value t := by
  unfold Heap.conforms
  rw [typeOf_stays sound leads known]
  cases value with
  | object o =>
    have inside := (sound.objects o known).cls
    simp only
    rw [(leads.grows.objects o known).2.cls, Heap.isA_stays sound.linked leads.grows _ inside]
  | _ => rfl

theorem admits_stays (sound : w.Sound view) (leads : w.Leads k w') {ready : Function → Prop}
    {cell : Cell} (known : w.CellKnown view ready cell) (admits : w.heap.Admits cell) :
    w'.heap.Admits cell := by
  intro value found
  obtain ⟨types, range⟩ := admits value found
  refine ⟨fun t member => ?_, range⟩
  have held : w.Known view value := by
    unfold CellKnown at known
    rwa [found] at known
  rw [conforms_stays sound leads held]
  exact types t member

theorem FieldKnown.mono (sound : w.Sound view) (leads : w.Leads k w') {cell : Cell}
    (known : w.FieldKnown view cell) : w'.FieldKnown view cell := by
  unfold FieldKnown at known ⊢
  split
  · rename_i static
    rw [if_pos static] at known
    exact ⟨known.1.mono leads fun _ => Closed.mono leads, admits_stays sound leads known.1 known.2⟩
  · rename_i own
    rw [if_neg own] at known
    exact known.mono leads fun _ => Awaits.mono leads

theorem ClassKnown.mono (sound : w.Sound view) (leads : w.Leads k w') {c : Class}
    (known : w.ClassKnown view c) : w'.ClassKnown view c where
  word := known.word
  templates := known.templates
  superclass parent member := (leads.grows.classes parent (known.superclass parent member)).1
  methods x member := (known.methods x member).mono leads
  fields x member := (known.fields x member).mono sound leads
  interfaces i member := (leads.grows.interfaces i (known.interfaces i member)).1
  scope some := by
    obtain ⟨inner, decl, site, bound⟩ := known.scope some
    exact ⟨inner, decl, leads.sites _ _ site, bound⟩

theorem InterfaceKnown.mono (leads : w.Leads k w') {i : Interface} (known : w.InterfaceKnown view i) :
    w'.InterfaceKnown view i :=
  ⟨known.distinct, fun x member => (known.methods x member).mono leads fun _ => Awaits.mono leads⟩

theorem ObjectKnown.mono (sound : w.Sound view) (leads : w.Leads k w') {o : Object}
    (known : w.ObjectKnown view o) : w'.ObjectKnown view o where
  cls := (leads.grows.classes o.cls known.cls).1
  fields x member := (known.fields x member).mono leads fun _ => Closed.mono leads
  scope r member := by
    obtain ⟨inner, classInner, around, decl, own, shared⟩ := known.scope r member
    rw [(leads.grows.classes o.cls known.cls).2.scope]
    have inside : ∀ s, w.siteOf? s = some (.cls decl) → s.index < w.heap.scopes.size := by
      intro s found
      rw [← sound.sites]
      exact (List.getElem?_eq_some_iff.mp found).1
    refine ⟨inner, classInner, ?_, decl, leads.sites _ _ own, leads.sites _ _ shared⟩
    rw [leads.grows.enclosing r (inside r own), leads.grows.enclosing _ (inside _ shared), around]

theorem ArrayKnown.mono (sound : w.Sound view) (leads : w.Leads k w') {a : ArrayObject}
    (known : w.ArrayKnown view a) : w'.ArrayKnown view a where
  elements value member := (known.elements value member).mono leads
  elementType := known.elementType
  admits typed value member := by
    rw [conforms_stays sound leads (known.elements value member)]
    exact known.admits typed value member

/-- A world stays sound if whatever is new in it is known there. -/
theorem Sound.carry (sound : w.Sound view) (leads : w.Leads k w')
    (sites : w'.sites.length = w'.heap.scopes.size)
    (inner : ∀ r : Ref .scope, w.heap.scopes.size ≤ r.index → r.index < w'.heap.scopes.size →
      (w'.heap.scope r).enclosing.isSome = true)
    (cells : ∀ r name cell, w'.heap.here? r name = some cell → w.heap.here? r name = some cell ∨
      w'.CellKnown view (w'.Closed view) cell ∧ w'.heap.Admits cell ∧
        (r = .globals → cell.modifiers.static = false) ∧
        ∃ site, w'.siteOf? r = some site ∧ site.Serves name cell)
    (classScopes : ∀ r decl, w'.siteOf? r = some (.cls decl) →
      (w.siteOf? r = some (.cls decl) ∧
        ∀ name, (w'.heap.here? r name).isSome = (w.heap.here? r name).isSome) ∨
      ∀ name, (w'.heap.here? r name).isSome = (Place.classFrame decl).contains name)
    (ancestry : w'.heap.Ancestry)
    (classes : ∀ c : Ref .cls, c.index < w'.heap.classes.size →
      (c.index < w.heap.classes.size ∧ w'.heap.cls c = w.heap.cls c) ∨
      w'.ClassKnown view (w'.heap.cls c))
    (objects : ∀ o : Ref .object, o.index < w'.heap.objects.size →
      (o.index < w.heap.objects.size ∧ w'.heap.object o = w.heap.object o) ∨
      w'.ObjectKnown view (w'.heap.object o))
    (arrays : ∀ a : Ref .array, a.index < w'.heap.arrays.size →
      (a.index < w.heap.arrays.size ∧ w'.heap.array a = w.heap.array a) ∨
      w'.ArrayKnown view (w'.heap.array a))
    (caches : ∀ p : Ref .property, p.index < w'.heap.properties.size →
      (p.index < w.heap.properties.size ∧ w'.heap.property p = w.heap.property p) ∨
      w'.Known view (w'.heap.property p).cache)
    (interfaces : ∀ i : Ref .interface, i.index < w'.heap.interfaces.size →
      i.index < w.heap.interfaces.size ∨ w'.InterfaceKnown view (w'.heap.interface i))
    (functions : ∀ f : Ref .function, f.index < w'.heap.functions.size →
      f.index < w.heap.functions.size ∨ (w'.heap.function f).Rooted view) :
    w'.Sound view where
  sites := sites
  globals := Nat.lt_of_lt_of_le sound.globals leads.size
  root := (leads.grows.classes ⟨0⟩ sound.root).1
  ancestry := ancestry
  outside decl found := by
    have inside : Ref.globals.index < w.sites.length := by
      rw [sound.sites]
      exact sound.globals
    have old := List.getElem?_eq_getElem inside
    have same := (leads.sites .globals _ old).symm.trans found
    exact sound.outside decl (old.trans same)
  outermost := (leads.grows.enclosing .globals sound.globals).trans sound.outermost
  inner r positive inside := by
    by_cases old : r.index < w.heap.scopes.size
    · rw [leads.grows.enclosing r old]
      exact sound.inner r positive old
    · exact inner r (Nat.le_of_not_lt old) inside
  cells r name cell found := by
    rcases cells r name cell found with old | ⟨known, admits, -⟩
    · obtain ⟨known, admits⟩ := sound.cells r name cell old
      exact ⟨known.mono leads fun _ => Closed.mono leads, admits_stays sound leads known admits⟩
    · exact ⟨known, admits⟩
  serves r name cell found := by
    rcases cells r name cell found with old | ⟨-, -, -, serves⟩
    · obtain ⟨site, opened, serves⟩ := sound.serves r name cell old
      exact ⟨site, leads.sites r site opened, serves⟩
    · exact serves
  dynamic name cell found := by
    rcases cells _ name cell found with old | ⟨-, -, dynamic, -⟩
    · exact sound.dynamic name cell old
    · exact dynamic rfl
  classScopes r decl site name := by
    rcases classScopes r decl site with ⟨old, same⟩ | new
    · rw [same name, sound.classScopes r decl old name]
    · exact new name
  functions f inside := by
    rcases functions f inside with old | rooted
    · rw [(leads.grows.functions f old).2]
      exact sound.functions f old
    · exact rooted
  classes c inside := by
    rcases classes c inside with ⟨old, same⟩ | known
    · rw [same]
      exact (sound.classes c old).mono sound leads
    · exact known
  objects o inside := by
    rcases objects o inside with ⟨old, same⟩ | known
    · rw [same]
      exact (sound.objects o old).mono sound leads
    · exact known
  arrays a inside := by
    rcases arrays a inside with ⟨old, same⟩ | known
    · rw [same]
      exact (sound.arrays a old).mono sound leads
    · exact known
  caches p inside := by
    rcases caches p inside with ⟨old, same⟩ | known
    · rw [same]
      exact (sound.caches p old).mono leads
    · exact known
  interfaces i inside := by
    rcases interfaces i inside with old | known
    · rw [(leads.grows.interfaces i old).2]
      exact (sound.interfaces i old).mono leads
    · exact known

/-! What each change of the heap asks for, so that the world stays sound. -/

def set (w : World) (h : Heap) : World :=
  { w with heap := h }

def opened (w : World) (site : Site) (s : Scope) : World :=
  ⟨w.sites ++ [site], (w.heap.addScope s).2⟩

theorem Leads.set {h : Heap} (grows : w.heap.Grows k.Allows h)
    (classes : h.classes = w.heap.classes) : w.Leads k (w.set h) :=
  ⟨fun _ _ found => found, grows, fun _ => .same classes⟩

theorem Leads.rough {h : Heap} (grows : w.heap.Grows k.Allows h) : w.Leads k.making (w.set h) :=
  ⟨fun _ _ found => found, grows, fun finished => by cases finished⟩

theorem Leads.setClassField {c : Ref .cls} {name : String} {old cell : Cell}
    (found : (w.heap.cls c).fields.find? name = some old)
    (kept : old.modifiers.const = true → cell = old) (modifiers : cell.modifiers = old.modifiers) :
    w.Leads k (w.set (w.heap.setClassField c name cell)) := by
  refine ⟨fun _ _ found => found, .setClassField found kept,
    fun _ => ⟨fun d other _ => ?_, fun d new inside => ?_⟩⟩
  · change ((w.heap.setClassField c name cell).cls d |>.fields.find? other).map _ = _
    rw [Heap.cls_setClassField, Heap.fieldModifiers?]
    split
    · rename_i target
      obtain rfl := Ref.ext_index target.1
      rw [NameMap.find?_insert]
      split
      · rename_i same
        simp [same, found, modifiers]
      · rfl
    · rfl
  · simp only [World.set, Heap.setClassField, Array.size_modify] at inside
    omega

theorem leads_opened (k : Permit) (w : World) (site : Site) (s : Scope) : w.Leads k (w.opened site s) := by
  refine ⟨fun r found known => ?_, .addScope _ _ _, fun _ => .same rfl⟩
  have inside := (List.getElem?_eq_some_iff.mp known).1
  unfold siteOf? opened
  rw [List.getElem?_append_left inside]
  exact known

theorem Sound.inside (sound : w.Sound view) {r : Ref .scope} {site : Site}
    (found : w.siteOf? r = some site) : r.index < w.heap.scopes.size := by
  rw [← sound.sites]
  exact (List.getElem?_eq_some_iff.mp found).1

theorem siteOf?_opened (sound : w.Sound view) (site : Site) (s : Scope) :
    (w.opened site s).siteOf? ⟨w.heap.scopes.size⟩ = some site := by
  unfold siteOf? opened
  rw [← sound.sites]
  simp

theorem Sound.opened (sound : w.Sound view) {site : Site} {s : Scope}
    (around : s.enclosing.isSome = true)
    (cells : ∀ name cell, s.names.find? name = some cell →
      w.CellKnown view (w.Closed view) cell ∧ w.heap.Admits cell)
    (serves : ∀ name cell, s.names.find? name = some cell → site.Serves name cell)
    (names : ∀ decl, site = .cls decl →
      ∀ name, (s.names.find? name).isSome = (Place.classFrame decl).contains name) :
    (w.opened site s).Sound view := by
  have leads := leads_opened { since := w.heap.scopes.size } w site s
  have size : (w.opened site s).heap.scopes.size = w.heap.scopes.size + 1 := by
    simp [World.opened, Heap.addScope]
  refine sound.carry leads ?_ ?_ ?_ ?_ sound.ancestry (fun c inside => .inl ⟨inside, rfl⟩)
    (fun o inside => .inl ⟨inside, rfl⟩) (fun a inside => .inl ⟨inside, rfl⟩)
    (fun p inside => .inl ⟨inside, rfl⟩) (fun i inside => .inl inside) (fun f inside => .inl inside)
  · rw [size, ← sound.sites]
    simp [World.opened]
  · intro r new inside
    have last : r.index = w.heap.scopes.size := by omega
    change ((w.heap.addScope s).2.scope r).enclosing.isSome = true
    rw [Heap.scope_addScope, if_pos last]
    exact around
  · intro r name cell found
    change (w.heap.addScope s).2.here? r name = some cell at found
    rw [Heap.here?_addScope] at found
    split at found
    · rename_i last
      obtain ⟨known, admits⟩ := cells name cell found
      refine .inr ⟨known.mono leads fun _ => Closed.mono leads, admits_stays sound leads known admits, ?_, site,
        ?_, serves name cell found⟩
      · rintro rfl
        exact absurd last (Nat.ne_of_lt sound.globals)
      · obtain rfl : r = ⟨w.heap.scopes.size⟩ := Ref.ext_index last
        exact siteOf?_opened sound site s
    · exact .inl found
  · intro r decl found
    change w.siteOf? r = _ ∧ (∀ name, ((w.heap.addScope s).2.here? r name).isSome = _) ∨
      ∀ name, ((w.heap.addScope s).2.here? r name).isSome = _
    by_cases last : r.index = w.heap.scopes.size
    · obtain rfl : r = ⟨w.heap.scopes.size⟩ := Ref.ext_index last
      rw [siteOf?_opened sound] at found
      right
      intro name
      rw [Heap.here?_addScope, if_pos rfl]
      exact names decl (Option.some.inj found) name
    · left
      have inside : r.index < w.sites.length := by
        have := (List.getElem?_eq_some_iff.mp found).1
        rw [sound.sites]
        simp only [World.opened, List.length_append, List.length_singleton, sound.sites] at this
        omega
      refine ⟨?_, fun name => by rw [Heap.here?_addScope, if_neg last]⟩
      unfold siteOf? World.opened at found
      rwa [List.getElem?_append_left inside] at found

theorem Sound.define (sound : w.Sound view) {r : Ref .scope} {name : String} {cell : Cell}
    (grows : w.heap.Grows k.Allows (w.heap.define r name cell))
    (known : w.CellKnown view (w.Closed view) cell) (admits : w.heap.Admits cell)
    (ordinary : Ordinary name) (dynamic : r = .globals → cell.modifiers.static = false)
    (room : (w.heap.here? r name).isSome = true ∨ ∀ decl, w.siteOf? r ≠ some (.cls decl)) :
    (w.set (w.heap.define r name cell)).Sound view := by
  have leads := Leads.set grows rfl
  refine sound.carry leads ?_ ?_ ?_ ?_ sound.ancestry (fun c inside => .inl ⟨inside, rfl⟩)
    (fun o inside => .inl ⟨inside, rfl⟩) (fun a inside => .inl ⟨inside, rfl⟩)
    (fun p inside => .inl ⟨inside, rfl⟩) (fun i inside => .inl inside) (fun f inside => .inl inside)
  · simpa [World.set, Heap.define] using sound.sites
  · intro s new inside
    simp only [World.set, Heap.define, Array.size_modify] at inside
    omega
  · intro s other held found
    change (w.heap.define r name cell).here? s other = some held at found
    rw [Heap.here?_define] at found
    split at found
    · rename_i target
      obtain ⟨rfl, rfl, inside⟩ := target
      cases found
      have opened : r.index < w.sites.length := by rwa [sound.sites]
      exact .inr ⟨known.mono leads fun _ => Closed.mono leads, admits_stays sound leads known admits, dynamic,
        _, List.getElem?_eq_getElem opened, Site.serves_ordinary ordinary⟩
    · exact .inl found
  · intro s decl found
    refine .inl ⟨found, fun other => ?_⟩
    change ((w.heap.define r name cell).here? s other).isSome = _
    rw [Heap.here?_define]
    split
    · rename_i target
      obtain ⟨rfl, rfl, -⟩ := target
      rcases room with bound | away
      · rw [bound]
        rfl
      · exact absurd found (away decl)
    · rfl

theorem Sound.set (sound : w.Sound view) {h : Heap} (grows : w.heap.Grows k.Allows h)
    (scopes : h.scopes = w.heap.scopes) (ancestry : h.Ancestry)
    (classes : ∀ c : Ref .cls, c.index < h.classes.size →
      (c.index < w.heap.classes.size ∧ h.cls c = w.heap.cls c) ∨ (w.set h).ClassKnown view (h.cls c))
    (objects : ∀ o : Ref .object, o.index < h.objects.size →
      (o.index < w.heap.objects.size ∧ h.object o = w.heap.object o) ∨
      (w.set h).ObjectKnown view (h.object o))
    (arrays : ∀ a : Ref .array, a.index < h.arrays.size →
      (a.index < w.heap.arrays.size ∧ h.array a = w.heap.array a) ∨
      (w.set h).ArrayKnown view (h.array a))
    (caches : ∀ p : Ref .property, p.index < h.properties.size →
      (p.index < w.heap.properties.size ∧ h.property p = w.heap.property p) ∨
      (w.set h).Known view (h.property p).cache)
    (interfaces : ∀ i : Ref .interface, i.index < h.interfaces.size →
      i.index < w.heap.interfaces.size ∨ (w.set h).InterfaceKnown view (h.interface i))
    (functions : ∀ f : Ref .function, f.index < h.functions.size →
      f.index < w.heap.functions.size ∨ (h.function f).Rooted view) :
    (w.set h).Sound view := by
  have here : ∀ r name, h.here? r name = w.heap.here? r name := fun r name => by
    simp only [Heap.here?, Heap.scope, scopes]
  refine sound.carry (Leads.rough grows) ?_ ?_ ?_ ?_ ancestry classes objects arrays caches interfaces
    functions
  · exact sound.sites.trans (congrArg Array.size scopes).symm
  · intro r new inside
    change r.index < h.scopes.size at inside
    rw [scopes] at inside
    omega
  · exact fun r name cell found => .inl (by rw [← here]; exact found)
  · exact fun r decl found => .inl ⟨found, fun name => by rw [← here]; rfl⟩

theorem Sound.addFunction (sound : w.Sound view) {f : Function} (rooted : f.Rooted view) :
    (w.set (w.heap.addFunction f).2).Sound view := by
  refine sound.set (k := Permit.any) (.addFunction _ _ f) rfl sound.ancestry
    (fun _ inside => .inl ⟨inside, rfl⟩) (fun _ inside => .inl ⟨inside, rfl⟩)
    (fun _ inside => .inl ⟨inside, rfl⟩) (fun _ inside => .inl ⟨inside, rfl⟩) (fun _ inside => .inl inside)
    fun r inside => ?_
  rw [Heap.function_addFunction]
  split
  · exact .inr rooted
  · simp only [Heap.addFunction, Array.size_push] at inside
    exact .inl (by omega)

theorem Sound.addEnumeration (sound : w.Sound view) (e : Enumeration) :
    (w.set (w.heap.addEnumeration e).2).Sound view :=
  sound.set (k := Permit.any) (.addEnumeration _ _ e) rfl sound.ancestry (fun _ inside => .inl ⟨inside, rfl⟩)
    (fun _ inside => .inl ⟨inside, rfl⟩) (fun _ inside => .inl ⟨inside, rfl⟩)
    (fun _ inside => .inl ⟨inside, rfl⟩) (fun _ inside => .inl inside)
    fun _ inside => .inl inside

theorem Sound.addClass (sound : w.Sound view) {c : Class} (known : w.ClassKnown view c) :
    (w.set (w.heap.addClass c).2).Sound view := by
  have grows := Heap.Grows.addClass (Permit.any.Allows) w.heap c
  have ancestry : (w.heap.addClass c).2.Ancestry := by
    intro r parent inside found
    rw [Heap.cls_addClass] at found
    split at found
    · rename_i last
      rw [last]
      exact known.superclass parent found
    · simp only [Heap.addClass, Array.size_push] at inside
      exact sound.ancestry r parent (by omega) found
  refine sound.set grows rfl ancestry (fun r inside => ?_) (fun _ inside => .inl ⟨inside, rfl⟩)
    (fun _ inside => .inl ⟨inside, rfl⟩) (fun _ inside => .inl ⟨inside, rfl⟩) (fun _ inside => .inl inside)
    fun _ inside => .inl inside
  rw [Heap.cls_addClass]
  split
  · exact .inr (known.mono sound (Leads.rough grows))
  · simp only [Heap.addClass, Array.size_push] at inside
    exact .inl ⟨by omega, rfl⟩

theorem Sound.addObject (sound : w.Sound view) {o : Object} (known : w.ObjectKnown view o) :
    (w.set (w.heap.addObject o).2).Sound view := by
  have grows := Heap.Grows.addObject (Permit.any.Allows) w.heap o
  refine sound.set grows rfl sound.ancestry (fun _ inside => .inl ⟨inside, rfl⟩) (fun r inside => ?_)
    (fun _ inside => .inl ⟨inside, rfl⟩) (fun _ inside => .inl ⟨inside, rfl⟩) (fun _ inside => .inl inside)
    fun _ inside => .inl inside
  rw [Heap.object_addObject]
  split
  · exact .inr (known.mono sound (Leads.set grows rfl))
  · simp only [Heap.addObject, Array.size_push] at inside
    exact .inl ⟨by omega, rfl⟩

theorem Sound.addArray (sound : w.Sound view) {a : ArrayObject} (known : w.ArrayKnown view a) :
    (w.set (w.heap.addArray a).2).Sound view := by
  have grows := Heap.Grows.addArray (Permit.any.Allows) w.heap a
  refine sound.set grows rfl sound.ancestry (fun _ inside => .inl ⟨inside, rfl⟩) (fun _ inside => .inl ⟨inside, rfl⟩)
    (fun r inside => ?_) (fun _ inside => .inl ⟨inside, rfl⟩) (fun _ inside => .inl inside)
    fun _ inside => .inl inside
  rw [Heap.array_addArray]
  split
  · exact .inr (known.mono sound (Leads.set grows rfl))
  · simp only [Heap.addArray, Array.size_push] at inside
    exact .inl ⟨by omega, rfl⟩

theorem Sound.addProperty (sound : w.Sound view) {p : Property} (known : w.Known view p.cache) :
    (w.set (w.heap.addProperty p).2).Sound view := by
  have grows := Heap.Grows.addProperty (Permit.any.Allows) w.heap p
  refine sound.set grows rfl sound.ancestry (fun _ inside => .inl ⟨inside, rfl⟩) (fun _ inside => .inl ⟨inside, rfl⟩)
    (fun _ inside => .inl ⟨inside, rfl⟩) (fun r inside => ?_) (fun _ inside => .inl inside)
    fun _ inside => .inl inside
  rw [Heap.property_addProperty]
  split
  · exact .inr (known.mono (Leads.set grows rfl))
  · simp only [Heap.addProperty, Array.size_push] at inside
    exact .inl ⟨by omega, rfl⟩

theorem Sound.addInterface (sound : w.Sound view) {i : Interface}
    (known : w.InterfaceKnown view i) : (w.set (w.heap.addInterface i).2).Sound view := by
  have grows := Heap.Grows.addInterface (Permit.any.Allows) w.heap i
  have leads : w.Leads Permit.any (w.set (w.heap.addInterface i).2) := Leads.set grows rfl
  refine sound.set grows rfl sound.ancestry (fun _ inside => .inl ⟨inside, rfl⟩) (fun _ inside => .inl ⟨inside, rfl⟩)
    (fun _ inside => .inl ⟨inside, rfl⟩) (fun _ inside => .inl ⟨inside, rfl⟩) (fun r inside => ?_)
    fun _ inside => .inl inside
  rw [Heap.interface_addInterface]
  split
  · exact .inr (known.mono leads)
  · simp only [Heap.addInterface, Array.size_push] at inside
    exact .inl (by omega)

theorem Sound.setElement (sound : w.Sound view) (a : Ref .array) (index : Nat) {value : Value}
    (known : w.Known view value)
    (admits : view.typed → value = .nil ∨ w.heap.conforms value (w.heap.array a).elementType = true) :
    (w.set (w.heap.setElement a index value)).Sound view := by
  have grows := Heap.Grows.setElement (Permit.any.Allows) w.heap a index value
  have leads : w.Leads Permit.any (w.set (w.heap.setElement a index value)) := Leads.set grows rfl
  refine sound.set grows rfl sound.ancestry (fun _ inside => .inl ⟨inside, rfl⟩) (fun _ inside => .inl ⟨inside, rfl⟩)
    (fun r inside => ?_) (fun _ inside => .inl ⟨inside, rfl⟩) (fun _ inside => .inl inside)
    fun _ inside => .inl inside
  simp only [Heap.setElement, Array.size_modify] at inside
  rw [Heap.array_setElement]
  split
  · rename_i target
    obtain rfl := Ref.ext_index target.1
    have old := sound.arrays a inside
    refine .inr (.mono sound leads ⟨fun held member => ?_, old.elementType, fun typed held member => ?_⟩)
    · rcases Array.mem_or_eq_of_mem_setIfInBounds member with before | rfl
      · exact old.elements held before
      · exact known
    · rcases Array.mem_or_eq_of_mem_setIfInBounds member with before | rfl
      · exact old.admits typed held before
      · exact admits typed
  · exact .inl ⟨inside, rfl⟩

theorem Sound.setCache (sound : w.Sound view) {p : Ref .property} {value : Value}
    (open' : (w.heap.property p).modifiers.const = false) (known : w.Known view value) :
    (w.set (w.heap.setCache p value)).Sound view := by
  have grows := Heap.Grows.setCache (Permit.any.Allows) open' value
  refine sound.set grows rfl sound.ancestry (fun _ inside => .inl ⟨inside, rfl⟩) (fun _ inside => .inl ⟨inside, rfl⟩)
    (fun _ inside => .inl ⟨inside, rfl⟩) (fun r inside => ?_) (fun _ inside => .inl inside)
    fun _ inside => .inl inside
  simp only [Heap.setCache, Array.size_modify] at inside
  rw [Heap.property_setCache]
  split
  · exact .inr (known.mono (Leads.set grows rfl))
  · exact .inl ⟨inside, rfl⟩

theorem Sound.setFields (sound : w.Sound view) {o : Ref .object} {fields : NameMap Cell}
    (none : (w.heap.object o).fields = .empty)
    (known : ∀ x ∈ fields.entries, w.CellKnown view (w.Closed view) x.2) :
    (w.set (w.heap.setFields o fields)).Sound view := by
  have grows : w.heap.Grows Permit.any.Allows (w.heap.setFields o fields) := .setFields none fields
  have leads : w.Leads Permit.any (w.set (w.heap.setFields o fields)) := Leads.set grows rfl
  refine sound.set grows rfl sound.ancestry (fun _ inside => .inl ⟨inside, rfl⟩) (fun r inside => ?_)
    (fun _ inside => .inl ⟨inside, rfl⟩) (fun _ inside => .inl ⟨inside, rfl⟩) (fun _ inside => .inl inside)
    fun _ inside => .inl inside
  simp only [Heap.setFields, Array.size_modify] at inside
  rw [Heap.object_setFields]
  split
  · have old := (sound.objects r inside).mono sound leads
    exact .inr ⟨old.cls, fun x member => (known x member).mono leads fun _ => Closed.mono leads, old.scope⟩
  · exact .inl ⟨inside, rfl⟩

theorem Sound.setClassFields (sound : w.Sound view) {c : Ref .cls} {fields : NameMap Cell}
    (none : (w.heap.cls c).fields = .empty)
    (known : ∀ x ∈ fields.entries, w.FieldKnown view x.2) :
    (w.set (w.heap.setClassFields c fields)).Sound view := by
  have grows : w.heap.Grows Permit.any.Allows (w.heap.setClassFields c fields) :=
    .setClassFields none fields
  have leads : w.Leads Permit.any.making (w.set (w.heap.setClassFields c fields)) := Leads.rough grows
  have ancestry := sound.ancestry.grows grows (by simp [Heap.setClassFields])
  refine sound.set grows rfl ancestry (fun r inside => ?_) (fun _ inside => .inl ⟨inside, rfl⟩)
    (fun _ inside => .inl ⟨inside, rfl⟩) (fun _ inside => .inl ⟨inside, rfl⟩) (fun _ inside => .inl inside)
    fun _ inside => .inl inside
  simp only [Heap.setClassFields, Array.size_modify] at inside
  rw [Heap.cls_setClassFields]
  split
  · have old := (sound.classes r inside).mono sound leads
    exact .inr ⟨old.word, old.templates, old.superclass, old.methods,
      fun x member => (known x member).mono sound leads, old.interfaces, old.scope⟩
  · exact .inl ⟨inside, rfl⟩

theorem Sound.setField (sound : w.Sound view) {o : Ref .object} {name : String} {old cell : Cell}
    (found : (w.heap.object o).fields.find? name = some old)
    (kept : old.modifiers.const = true → cell = old)
    (known : w.CellKnown view (w.Closed view) cell) :
    (w.set (w.heap.setField o name cell)).Sound view := by
  have grows : w.heap.Grows Permit.any.Allows (w.heap.setField o name cell) := .setField found kept
  have leads : w.Leads Permit.any (w.set (w.heap.setField o name cell)) := Leads.set grows rfl
  refine sound.set grows rfl sound.ancestry (fun _ inside => .inl ⟨inside, rfl⟩) (fun r inside => ?_)
    (fun _ inside => .inl ⟨inside, rfl⟩) (fun _ inside => .inl ⟨inside, rfl⟩) (fun _ inside => .inl inside)
    fun _ inside => .inl inside
  simp only [Heap.setField, Array.size_modify] at inside
  rw [Heap.object_setField]
  split
  · have before := (sound.objects r inside).mono sound leads
    refine .inr ⟨before.cls, fun x member => ?_, before.scope⟩
    rcases NameMap.mem_insert member with rfl | member
    · exact known.mono leads fun _ => Closed.mono leads
    · exact before.fields x member
  · exact .inl ⟨inside, rfl⟩

theorem Sound.setClassField (sound : w.Sound view) {c : Ref .cls} {name : String} {old cell : Cell}
    (found : (w.heap.cls c).fields.find? name = some old)
    (kept : old.modifiers.const = true → cell = old) (known : w.FieldKnown view cell) :
    (w.set (w.heap.setClassField c name cell)).Sound view := by
  have grows : w.heap.Grows Permit.any.Allows (w.heap.setClassField c name cell) :=
    .setClassField found kept
  have leads : w.Leads Permit.any.making (w.set (w.heap.setClassField c name cell)) := Leads.rough grows
  have ancestry := sound.ancestry.grows grows (by simp [Heap.setClassField])
  refine sound.set grows rfl ancestry (fun r inside => ?_) (fun _ inside => .inl ⟨inside, rfl⟩)
    (fun _ inside => .inl ⟨inside, rfl⟩) (fun _ inside => .inl ⟨inside, rfl⟩) (fun _ inside => .inl inside)
    fun _ inside => .inl inside
  simp only [Heap.setClassField, Array.size_modify] at inside
  rw [Heap.cls_setClassField]
  split
  · have before := (sound.classes r inside).mono sound leads
    refine .inr ⟨before.word, before.templates, before.superclass, before.methods, fun x member => ?_,
      before.interfaces, before.scope⟩
    rcases NameMap.mem_insert member with rfl | member
    · exact known.mono sound leads
    · exact before.fields x member
  · exact .inl ⟨inside, rfl⟩

end World

end Treewalk
