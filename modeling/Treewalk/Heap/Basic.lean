import Treewalk.NameMap
import Treewalk.Tree

/-!
Values and the heap. Everything with an identity or a changing content lives in the heap, in one table
for each kind of record, and is denoted by its position there. Positions only grow: what a record
refers to when it is made is older than the record itself.
-/

namespace Treewalk

inductive Region where
  | scope | function | cls | object | array | property | interface | enumeration
  deriving DecidableEq, Repr

/-- A position in one table of the heap. -/
structure Ref (region : Region) where
  index : Nat
  deriving DecidableEq, Repr

instance : Inhabited (Ref region) := ⟨⟨0⟩⟩

inductive Value where
  | nil
  | bool (b : Bool)
  | num (n : Float)
  | str (s : String)
  | function (f : Ref .function)
  | cls (c : Ref .cls)
  | object (o : Ref .object)
  | array (a : Ref .array)
  | enumeration (e : Ref .enumeration)
  | interface (i : Ref .interface)
  | type (t : TypeDesc)
  deriving Repr, Inhabited

namespace Value

def isNil : Value → Bool
  | nil => true
  | _ => false

/-- Only nil and false count as false. -/
def isTruthy : Value → Bool
  | nil | bool false => false
  | _ => true

def number? : Value → Option Float
  | num n => some n
  | _ => none

def bool? : Value → Option Bool
  | bool b => some b
  | _ => none

def string? : Value → Option String
  | str s => some s
  | _ => none

/-- Equality of values: by content for plain values and types, by identity for everything else. -/
def same : Value → Value → Bool
  | nil, nil => true
  | bool a, bool b => a == b
  | num a, num b => a == b
  | str a, str b => a == b
  | function a, function b => a = b
  | cls a, cls b => a = b
  | object a, object b => a = b
  | array a, array b => a = b
  | enumeration a, enumeration b => a = b
  | interface a, interface b => a = b
  | type a, type b => a = b
  | _, _ => false

end Value

def Literal.value : Literal → Value
  | nil => .nil
  | bool b => .bool b
  | num n => .num n
  | str s => .str s

/-- A cell holds a value, or is computed by the accessors of a property. -/
inductive Content where
  | plain (value : Value)
  | computed (property : Ref .property)
  deriving Repr, Inhabited

/-- A named slot: its content and the rules for writing to it. -/
structure Cell where
  content : Content
  modifiers : Modifiers := {}
  declared : Option TypeDesc := none
  deriving Repr, Inhabited

def Cell.ofValue (value : Value) : Cell :=
  { content := .plain value }

/-- The global scope is the only one that nothing encloses. -/
structure Scope where
  enclosing : Option (Ref .scope) := none
  names : NameMap Cell := {}
  deriving Repr, Inhabited

inductive Native where
  | clock
  | print
  | println
  | error
  | objectText
  deriving DecidableEq, Repr

def Native.arity : Native → Nat
  | clock | objectText => 0
  | print | println | error => 1

inductive Body where
  | user (body : List Stmt) (closure : Ref .scope)
  | native (native : Native) (receiver : Option Value)
  | missing

instance : Inhabited Body := ⟨.missing⟩

structure Function where
  name : String
  params : List Param
  returns : TypeDesc
  modifiers : Modifiers
  body : Body
  constructs : Bool
  deriving Inhabited

namespace Function

def ofDecl (decl : FunctionDecl) (closure : Ref .scope) (constructs : Bool) : Function :=
  {
    name := decl.name.text
    params := decl.params
    returns := decl.returns
    modifiers := decl.modifiers
    body := match decl.body with
      | some body => .user body closure
      | none => .missing
    constructs := constructs
  }

def ofNative (name : String) (native : Native) : Function :=
  {
    name := name
    params := (List.range native.arity).map fun i => { name := ⟨s!"arg{i}", 0⟩ }
    returns := .any
    modifiers := .none
    body := .native native none
    constructs := false
  }

def arity (f : Function) : Nat :=
  f.params.length

def hasBody (f : Function) : Bool :=
  match f.body with
  | .missing => false
  | _ => true

def paramTypes (f : Function) : List TypeDesc :=
  f.params.map Param.declared

def signature (f : Function) : TypeDesc :=
  .function f.paramTypes f.returns

def text (f : Function) : String :=
  match f.body with
  | .native .. => "<native fn>"
  | _ => s!"<fn {f.name}>"

end Function

/-- The scope of a class holds `super` and its template names. -/
structure Class where
  name : String
  superclass : Option (Ref .cls)
  methods : NameMap (Ref .function)
  fields : NameMap Cell
  scope : Ref .scope
  templates : List String
  interfaces : List (Ref .interface)
  deriving Inhabited

/-- An instance of a class with templates has its own copy of the scope of its class, in which the
templates are bound. -/
structure Object where
  cls : Ref .cls
  fields : NameMap Cell
  templateScope : Option (Ref .scope)
  deriving Inhabited

structure ArrayObject where
  elementType : TypeDesc
  elements : Array Value
  deriving Inhabited

def ArrayObject.type (a : ArrayObject) : TypeDesc :=
  a.elementType.arrayOf

/-- A member with accessors. The getter is handed the cached value, the setter the one to be written. -/
structure Property where
  name : String
  getter : Ref .function
  setter : Option (Ref .function)
  modifiers : Modifiers
  declared : Option TypeDesc
  cache : Value
  deriving Inhabited

structure Interface where
  name : String
  methods : NameMap (Ref .function)
  fields : NameMap Cell
  deriving Inhabited

structure Enumeration where
  name : String
  elements : List String
  deriving Inhabited

def Enumeration.ordinal? (e : Enumeration) (element : String) : Option Nat :=
  e.elements.findIdx? (· = element)

structure Heap where
  scopes : Array Scope := #[]
  functions : Array Function := #[]
  classes : Array Class := #[]
  objects : Array Object := #[]
  arrays : Array ArrayObject := #[]
  properties : Array Property := #[]
  interfaces : Array Interface := #[]
  enumerations : Array Enumeration := #[]
  deriving Inhabited

namespace Heap

def scope (h : Heap) (r : Ref .scope) : Scope :=
  h.scopes.getD r.index default

def function (h : Heap) (r : Ref .function) : Function :=
  h.functions.getD r.index default

def cls (h : Heap) (r : Ref .cls) : Class :=
  h.classes.getD r.index default

def object (h : Heap) (r : Ref .object) : Object :=
  h.objects.getD r.index default

def array (h : Heap) (r : Ref .array) : ArrayObject :=
  h.arrays.getD r.index default

def property (h : Heap) (r : Ref .property) : Property :=
  h.properties.getD r.index default

def interface (h : Heap) (r : Ref .interface) : Interface :=
  h.interfaces.getD r.index default

def enumeration (h : Heap) (r : Ref .enumeration) : Enumeration :=
  h.enumerations.getD r.index default

def addScope (h : Heap) (s : Scope) : Ref .scope × Heap :=
  (⟨h.scopes.size⟩, { h with scopes := h.scopes.push s })

def addFunction (h : Heap) (f : Function) : Ref .function × Heap :=
  (⟨h.functions.size⟩, { h with functions := h.functions.push f })

def addClass (h : Heap) (c : Class) : Ref .cls × Heap :=
  (⟨h.classes.size⟩, { h with classes := h.classes.push c })

def addObject (h : Heap) (o : Object) : Ref .object × Heap :=
  (⟨h.objects.size⟩, { h with objects := h.objects.push o })

def addArray (h : Heap) (a : ArrayObject) : Ref .array × Heap :=
  (⟨h.arrays.size⟩, { h with arrays := h.arrays.push a })

def addProperty (h : Heap) (p : Property) : Ref .property × Heap :=
  (⟨h.properties.size⟩, { h with properties := h.properties.push p })

def addInterface (h : Heap) (i : Interface) : Ref .interface × Heap :=
  (⟨h.interfaces.size⟩, { h with interfaces := h.interfaces.push i })

def addEnumeration (h : Heap) (e : Enumeration) : Ref .enumeration × Heap :=
  (⟨h.enumerations.size⟩, { h with enumerations := h.enumerations.push e })

def define (h : Heap) (r : Ref .scope) (name : String) (cell : Cell) : Heap :=
  { h with scopes := h.scopes.modify r.index fun s => { s with names := s.names.insert name cell } }

def setField (h : Heap) (r : Ref .object) (name : String) (cell : Cell) : Heap :=
  { h with objects := h.objects.modify r.index fun o =>
      { o with fields := o.fields.insert name cell } }

def setFields (h : Heap) (r : Ref .object) (fields : NameMap Cell) : Heap :=
  { h with objects := h.objects.modify r.index fun o => { o with fields := fields } }

def setClassField (h : Heap) (r : Ref .cls) (name : String) (cell : Cell) : Heap :=
  { h with classes := h.classes.modify r.index fun c =>
      { c with fields := c.fields.insert name cell } }

def setClassFields (h : Heap) (r : Ref .cls) (fields : NameMap Cell) : Heap :=
  { h with classes := h.classes.modify r.index fun c => { c with fields := fields } }

def setElement (h : Heap) (r : Ref .array) (index : Nat) (value : Value) : Heap :=
  { h with arrays := h.arrays.modify r.index fun a =>
      { a with elements := a.elements.setIfInBounds index value } }

def setCache (h : Heap) (r : Ref .property) (value : Value) : Heap :=
  { h with properties := h.properties.modify r.index fun p => { p with cache := value } }

end Heap

end Treewalk
