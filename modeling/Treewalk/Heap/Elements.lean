import Treewalk.Heap.Conform

/-!
Elements of arrays. An index is rounded to the nearest whole number and has to lie inside the array.
-/

namespace Treewalk

def TypeDesc.initial (t : TypeDesc) : Value :=
  if t.isArray then .nil
  else match t.kind with
    | .number => .num 0
    | .string => .str ""
    | .boolean => .bool false
    | _ => .nil

def ArrayObject.sized (elementType : TypeDesc) (size : Nat) : ArrayObject :=
  ⟨elementType, Array.replicate size elementType.initial⟩

def ArrayObject.limit : Nat := 16777216

def ArrayObject.slot (a : ArrayObject) (index : Float) : Except Fault Nat :=
  match (Number.rounded index).natural? with
  | some i => if i < a.elements.size then .ok i else .error (.indexOutOfBounds index a.elements.size)
  | none => .error (.indexOutOfBounds index a.elements.size)

def Value.isArrayAt (value : Value) (r : Ref .array) : Bool :=
  match value with
  | .array other => other = r
  | _ => false

namespace Heap

def getElement (h : Heap) (r : Ref .array) (index : Float) : Except Fault Value := do
  let i ← (h.array r).slot index
  return (h.array r).elements.getD i .nil

/-- The slot for a write to an element, whose value has to conform to the element type. -/
def slotFor (h : Heap) (r : Ref .array) (index : Float) (value : Value) : Except Fault Nat := do
  let i ← (h.array r).slot index
  if h.conforms value (h.array r).elementType then
    return i
  else
    throw (.storedType (h.typeOf value) (h.array r).type)

end Heap

end Treewalk
