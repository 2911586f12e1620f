import Treewalk.Heap.Basic

/-!
Classes along their line of superclasses. Methods and fields are looked up from a class upward, and the
first class that has them decides.
-/

namespace Treewalk.Heap

def lineageFrom (h : Heap) : Nat → Ref .cls → List (Ref .cls)
  | 0, _ => []
  | fuel + 1, c =>
    c :: match (h.cls c).superclass with
      | some parent => lineageFrom h fuel parent
      | none => []

/-- A class and its superclasses, nearest first. A superclass is older than its class. -/
def lineage (h : Heap) (c : Ref .cls) : List (Ref .cls) :=
  lineageFrom h (c.index + 1) c

def findMethod? (h : Heap) (c : Ref .cls) (name : String) : Option (Ref .function) :=
  (h.lineage c).findSome? fun ancestor => (h.cls ancestor).methods.find? name

def findField? (h : Heap) (c : Ref .cls) (name : String) : Option Cell :=
  (h.lineage c).findSome? fun ancestor => (h.cls ancestor).fields.find? name

/-- The method of a class that need not be in the heap yet: its own, or that of its superclass. -/
def methodOf? (h : Heap) (c : Class) (name : String) : Option (Ref .function) :=
  (c.methods.find? name).or (c.superclass.bind (h.findMethod? · name))

/-- The field of a class that need not be in the heap yet: its own, or that of its superclass. -/
def fieldOf? (h : Heap) (c : Class) (name : String) : Option Cell :=
  (c.fields.find? name).or (c.superclass.bind (h.findField? · name))

def fieldOwner? (h : Heap) (c : Ref .cls) (name : String) : Option (Ref .cls) :=
  (h.lineage c).find? fun ancestor => (h.cls ancestor).fields.contains name

def constructor? (h : Heap) (c : Ref .cls) : Option (Ref .function) :=
  h.findMethod? c constructorName

/-- The number of arguments that making an instance takes. -/
def classArity (h : Heap) (c : Ref .cls) : Nat :=
  match h.constructor? c with
  | some f => (h.function f).arity
  | none => 0

/-- Whether a class has this name, or lists an interface of this name. -/
def isNamed (h : Heap) (name : String) (c : Ref .cls) : Bool :=
  (h.cls c).name = name || (h.cls c).interfaces.any fun i => (h.interface i).name = name

/-- Whether a class is, descends from or implements something of this name. -/
def isA (h : Heap) (c : Ref .cls) (name : String) : Bool :=
  (h.lineage c).any (h.isNamed name)

/-- The fields that instances of a class own, each with the scope of the class that declares it. A field
takes the place of a field of the same name further up. -/
def instanceFields (h : Heap) (c : Ref .cls) : NameMap (Cell × Ref .scope) :=
  (h.lineage c).reverse.foldl (fun fields ancestor =>
    (h.cls ancestor).fields.entries.foldl (fun fields (name, cell) =>
      if cell.modifiers.static then fields
      else fields.insert name (cell, (h.cls ancestor).scope)) fields) .empty

/-- The scope of an instance that a function with this closure sees. Only what the class itself declares
sees the templates of the instance. -/
def scopeFor? (h : Heap) (o : Ref .object) (closure : Ref .scope) : Option (Ref .scope) :=
  let object := h.object o
  if (h.cls object.cls).scope = closure then object.templateScope else none

/-- The scope inside which a function with this closure is bound to a receiver. -/
def scopeWithin (h : Heap) (receiver : Value) (closure : Ref .scope) : Ref .scope :=
  match receiver with
  | .object o => (h.scopeFor? o closure).getD closure
  | _ => closure

end Treewalk.Heap
