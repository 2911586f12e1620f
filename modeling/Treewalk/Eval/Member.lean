import Treewalk.Eval.Operator

/-!
Members of instances, classes and enumerations, and indexing. A static member reached through an
instance, and a member of instances reached through the class, are allowed with a warning.
-/

namespace Treewalk.Evaluator

open Run

/-- Lets a static member of a class pass. A member of instances is reached with a warning, and not by the
scope operator. -/
def throughClass (c : Ref .cls) (name : Name) (static qualified : Bool) : Run Unit := do
  let className := (← reading (·.cls c)).name
  if static then
    return ()
  else if qualified then
    raise name.line (.memberThroughClass className name.text)
  else
    warn name.line (.memberThroughClass className name.text)

/-- What an instance shares with its class: a static field, or a method bound to the instance, or to the
class if the method is static. -/
def getShared (o : Ref .object) (name : Name) : Run Value := do
  let h ← heap
  let c := (h.object o).cls
  match h.findField? c name.text with
  | some cell =>
    warn name.line (.staticThroughInstance name.text)
    readCell cell name.line
  | none =>
    match h.findMethod? c name.text with
    | some method =>
      if (h.function method).modifiers.static then
        warn name.line (.staticThroughInstance name.text)
        bindMethod method (.cls c)
      else
        bindMethod method (.object o)
    | none => raise name.line (.undefinedProperty name.text)

def getOfObject (o : Ref .object) (name : Name) : Run Value := do
  match (← reading (·.object o)).fields.find? name.text with
  | some cell => readCell cell name.line
  | none => getShared o name

def getOfClass (c : Ref .cls) (name : Name) (qualified : Bool) : Run Value := do
  let h ← heap
  match h.findField? c name.text with
  | some cell =>
    throughClass c name cell.modifiers.static qualified
    readCell cell name.line
  | none =>
    match h.findMethod? c name.text with
    | some method =>
      throughClass c name (h.function method).modifiers.static qualified
      bindMethod method (.cls c)
    | none => raise name.line (.undefinedProperty name.text)

/-- Reads a member. `qualified` says that it is written with the scope operator. -/
def getMember (target : Value) (name : Name) (qualified : Bool) : Run Value := do
  match target with
  | .object o =>
    if qualified then
      raise name.line (.staticOnInstance name.text)
    else
      getOfObject o name
  | .cls c => getOfClass c name qualified
  | .enumeration e =>
    let enumeration ← reading (·.enumeration e)
    match enumeration.ordinal? name.text with
    | some ordinal => return .num (Float.ofNat ordinal)
    | none => raise name.line (.undefinedElement enumeration.name name.text)
  | _ => raise name.line .noProperties

/-- Writes a field of a class, which holds the cell `cell` now. -/
def setOfClass (owner : Ref .cls) (cell : Cell) (name : Name) (value : Value) :
    Run Unit := do
  match ← orRaise name.line ((← heap).writeCell cell name.text value) with
  | .stored written => update (·.setClassField owner name.text written)
  | .computed property => writeProperty property value name.line

def ownedField (c : Ref .cls) (name : Name) : Run (Ref .cls × Cell) := do
  let h ← heap
  match h.fieldOwner? c name.text with
  | some owner =>
    match (h.cls owner).fields.find? name.text with
    | some cell => return (owner, cell)
    | none => raise name.line (.undefinedProperty name.text)
  | none => raise name.line (.undefinedProperty name.text)

def setOfObject (o : Ref .object) (name : Name) (value : Value) : Run Unit := do
  let object ← reading (·.object o)
  match object.fields.find? name.text with
  | some cell =>
    match ← orRaise name.line ((← heap).writeCell cell name.text value) with
    | .stored written => update (·.setField o name.text written)
    | .computed property => writeProperty property value name.line
  | none =>
    let (owner, cell) ← ownedField object.cls name
    warn name.line (.staticThroughInstance name.text)
    setOfClass owner cell name value

/-- Writes a member. `qualified` says that it is written with the scope operator. -/
def setMember (target : Value) (name : Name) (value : Value) (qualified : Bool) :
    Run Unit := do
  match target with
  | .object o =>
    if qualified then
      raise name.line (.staticOnInstance name.text)
    else
      setOfObject o name value
  | .cls c =>
    let (owner, cell) ← ownedField c name
    if cell.modifiers.static then
      setOfClass owner cell name value
    else
      raise name.line (.fieldThroughClass (← reading (·.cls c)).name name.text)
  | .enumeration e =>
    raise name.line (.elementAssigned (← reading (·.enumeration e)).name name.text)
  | _ => raise name.line .noFields

/-- Calls a method by its name, for indexing of what is no array. -/
def invoke (target : Value) (method : String) (args : List Value) (line : Line) :
    Run Value := do
  match target with
  | .object o =>
    let h ← heap
    let c := (h.object o).cls
    match h.findMethod? c method with
    | some f => callMethod f target args line
    | none => raise line (.undefinedIndexing (h.cls c).name method)
  | _ => raise line (.notIndexed method)

def indexNumber (position : Value) (line : Line) : Run Float := do
  match position with
  | .num n => return n
  | _ => raise line (.indexNotNumber ((← heap).typeOf position))

def getIndex (target position : Value) (line : Line) : Run Value := do
  match target with
  | .array a =>
    let index ← indexNumber position line
    orRaise line ((← heap).getElement a index)
  | _ => invoke target "getAt" [position] line

/-- Sets an element. An array that is being written cannot be asked for its type, as it would have to be if
it were to be stored in itself. -/
def setIndex (target position value : Value) (line : Line) : Run Unit := do
  match target with
  | .array a =>
    let index ← indexNumber position line
    let h ← heap
    if value.isArrayAt a then
      let _ ← orRaise line ((h.array a).slot index)
      stop .crash
    else
      let slot ← orRaise line (h.slotFor a index value)
      update (·.setElement a slot value)
  | _ =>
    let _ ← invoke target "setAt" [position, value] line

end Treewalk.Evaluator
