import Treewalk.Heap.Conform

/-!
Interfaces: the bodies that they supply and what they require of a class. Requirements are checked in
the order of their names, methods before fields.
-/

namespace Treewalk

def NameMap.sortedNames (m : NameMap α) : List String :=
  m.names.mergeSort fun a b => !decide (b < a)

namespace Heap

/-- The method of an interface that supplies the body for a declared one: it has a body, and the two
agree in signature. -/
def defaultFor? (h : Heap) (f : Function) (i : Ref .interface) : Option (Ref .function) :=
  ((h.interface i).methods.find? f.name).filter fun candidate =>
    let g := h.function candidate
    g.hasBody && g.modifiers.signature = f.modifiers.signature && g.paramTypes = f.paramTypes
      && g.returns = f.returns

/-- The methods of an interface that have a body. -/
def defaults (h : Heap) (i : Ref .interface) : List (String × Ref .function) :=
  (h.interface i).methods.entries.filter fun (_, f) => (h.function f).hasBody

def checkMethod (h : Heap) (className : String) (found : Option (Ref .function)) (i : Interface)
    (name : String) : Except Fault Unit :=
  match found, i.methods.find? name with
  | none, _ => .error (.methodMissing className name i.name)
  | some f, some required =>
    let f := h.function f
    let required := h.function required
    if f.modifiers.signature ≠ required.modifiers.signature then
      .error (.methodModifiers className name required.modifiers.signature i.name)
    else if f.arity ≠ required.arity then
      .error (.methodArity className name required.arity i.name)
    else .ok ()
  | some _, none => .ok ()

def checkField (className : String) (found : Option Cell) (i : Interface) (name : String) :
    Except Fault Unit :=
  match found, i.fields.find? name with
  | none, _ => .error (.fieldMissing className name i.name)
  | some cell, some required =>
    if cell.modifiers.signature ≠ required.modifiers.signature then
      .error (.fieldModifiers className name required.modifiers.signature i.name)
    else .ok ()
  | some _, none => .ok ()

def checkConformance (h : Heap) (c : Class) (i : Interface) : Except Fault Unit := do
  i.methods.sortedNames.forM fun name => h.checkMethod c.name (h.methodOf? c name) i name
  i.fields.sortedNames.forM fun name => checkField c.name (h.fieldOf? c name) i name

end Heap

end Treewalk
