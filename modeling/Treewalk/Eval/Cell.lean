import Treewalk.Eval.Sequence

/-!
Reading and writing cells. A computed cell is read through its getter and written through its setter,
which decides what is cached; whatever passes is checked like the content of a plain cell.
-/

namespace Treewalk.Evaluator

open Run

def readProperty (p : Ref .property) (line : Line) : Run Value := do
  let property ← reading (·.property p)
  let getter ← reading (·.function property.getter)
  let value ← call getter [property.cache] [] line
  let h ← heap
  orRaise line (h.checkType property.declared property.name value)
  return value

/-- Hands a value to the setter. What the setter returns is cached, or the value itself if that is
nil. -/
def writeProperty (p : Ref .property) (value : Value) (line : Line) : Run Unit := do
  let property ← reading (·.property p)
  match property.setter with
  | none => raise line (.readOnlyProperty property.name)
  | some setter =>
    orRaise line ((← heap).checkType property.declared property.name value)
    orRaise line (Heap.checkRange property.modifiers property.name value)
    let f ← reading (·.function setter)
    let result ← call f [value] [] line
    update (·.setCache p (if result.isNil then value else result))

def readCell (cell : Cell) (line : Line) : Run Value :=
  match cell.content with
  | .plain value => return value
  | .computed property => readProperty property line

def typeIn (t : TypeDesc) (scope : Ref .scope) : Run TypeDesc := do
  return (← heap).resolveType t scope

def typeHere (t : TypeDesc) : Run TypeDesc := do
  typeIn t (← currentScope)

/-- The cell of a variable: at its depth if that is known, and otherwise among the globals. -/
def variableCell (ref : Reference) (m : Machine) : Except Fault Cell :=
  match ref.depth with
  | some depth => m.heap.lookupAt m.scope depth ref.name.text
  | none => m.heap.lookup .globals ref.name.text

def readVariable (ref : Reference) : Run Value := do
  let cell ← orRaise ref.name.line (variableCell ref (← get))
  readCell cell ref.name.line

def variableWrite (ref : Reference) (value : Value) (m : Machine) : Except Fault Heap.Assigned :=
  match ref.depth with
  | some depth => m.heap.assignAt m.scope depth ref.name.text value
  | none => m.heap.assign .globals ref.name.text value

def writeVariable (ref : Reference) (value : Value) : Run Unit := do
  match ← orRaise ref.name.line (variableWrite ref value (← get)) with
  | .stored target cell => update (·.define target ref.name.text cell)
  | .computed property => writeProperty property value ref.name.line

end Treewalk.Evaluator
