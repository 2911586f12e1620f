import Treewalk.Fault
import Treewalk.Heap.Class

/-!
The type of a value, the values that a type admits, and the text of a value.
-/

namespace Treewalk.Heap

def typeOf (h : Heap) : Value → TypeDesc
  | .nil => .null
  | .bool _ => .boolean
  | .num _ => .number
  | .str _ => .string
  | .function f => (h.function f).signature
  | .cls _ | .enumeration _ | .interface _ | .type _ => .typeValue
  | .object o => .object (h.cls (h.object o).cls).name
  | .array a => (h.array a).type

/-- Whether a value may be stored under a declared type. An instance also conforms to the names of its
superclasses and of their interfaces. -/
def conforms (h : Heap) (value : Value) (declared : TypeDesc) : Bool :=
  (h.typeOf value).agrees declared ||
    match value with
    | .object o => declared.kind = .object && !declared.isArray && h.isA (h.object o).cls declared.name
    | _ => false

/-- The text of a value, through as many nested arrays as the fuel allows. -/
def textWithin (h : Heap) : Nat → Value → String
  | _, .nil => "nil"
  | _, .bool b => if b then "true" else "false"
  | _, .num n => Number.text n
  | _, .str s => s
  | _, .function f => (h.function f).text
  | _, .cls c => (h.cls c).name
  | _, .object o => (h.cls (h.object o).cls).name ++ " instance"
  | _, .enumeration e => "enum " ++ (h.enumeration e).name
  | _, .interface i => "interface " ++ (h.interface i).name
  | _, .type t => t.name
  | 0, .array _ => "[]"
  | depth + 1, .array a =>
    "[" ++ ", ".intercalate ((h.array a).elements.toList.map (textWithin h depth)) ++ "]"

/-- The text of a value. Arrays that do not contain themselves are nested no deeper than there are
arrays. -/
def text (h : Heap) (value : Value) : String :=
  h.textWithin h.arrays.size value

def checkType (h : Heap) (declared : Option TypeDesc) (name : String) (value : Value) :
    Except Fault Unit :=
  match declared with
  | some desc =>
    if h.conforms value desc then .ok () else .error (.assignedType (h.typeOf value) name desc)
  | none => .ok ()

/-- Unsigned numbers are not negative, and bytes lie between 0 and 255. -/
def checkRange (modifiers : Modifiers) (name : String) (value : Value) : Except Fault Unit :=
  match value with
  | .num n =>
    if modifiers.unsigned && n < 0 then .error (.negativeUnsigned name n)
    else if modifiers.byte && !(0 ≤ n && n ≤ 255) then .error (.byteRange name n)
    else .ok ()
  | _ => .ok ()

/-- What a write to a cell comes to: a new cell, or the property whose setter has to be run. -/
inductive Write where
  | stored (cell : Cell)
  | computed (property : Ref .property)

def writeCell (h : Heap) (cell : Cell) (name : String) (value : Value) : Except Fault Write :=
  if cell.modifiers.const then .error (.constantAssigned name)
  else match cell.content with
    | .computed property => .ok (.computed property)
    | .plain _ => do
      h.checkType cell.declared name value
      checkRange cell.modifiers name value
      return .stored { cell with content := .plain value }

end Treewalk.Heap
