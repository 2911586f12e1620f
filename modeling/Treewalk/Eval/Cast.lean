import Treewalk.Eval.Operator
import Treewalk.Text.Blank

/-!
Casts. A value that already conforms to the target is itself the result. Instances convert through a
method named after the target, and plain values by the few conversions of the language.
-/

namespace Treewalk

def spellBrackets : List Char → List Char
  | '[' :: ']' :: rest => "Array".toList ++ spellBrackets rest
  | c :: rest => c :: spellBrackets rest
  | [] => []

/-- The method by which an instance is cast to a type: `to` and the capitalized name of the type. -/
def TypeDesc.castMethod (t : TypeDesc) : String :=
  match spellBrackets t.name.toList with
  | first :: rest => "to" ++ String.ofList (first.toUpper :: rest)
  | [] => "to"

namespace Evaluator

open Run

def typeArgument (value : Value) (line : Line) : Run TypeDesc := do
  let h ← heap
  match value with
  | .type t => return t
  | .cls c => return .object (h.cls c).name
  | .interface i => return .object (h.interface i).name
  | .enumeration e => return .object (h.enumeration e).name
  | _ => raise line (.notAType (h.typeOf value))

def castMethodFor (h : Heap) (c : Ref .cls) (target : TypeDesc) : Except Fault (Ref .function) :=
  let className := (h.cls c).name
  let name := target.castMethod
  match h.findMethod? c name with
  | none => .error (.castMethodMissing className name target)
  | some method =>
    let f := h.function method
    if !f.modifiers.cast then .error (.castMethodUntagged className name)
    else if f.arity ≠ 0 then .error (.castMethodArity className name)
    else if !f.returns.agrees target then .error (.castMethodReturn className name target f.returns)
    else .ok method

def castObject (o : Ref .object) (target : TypeDesc) (line : Line) : Run Value := do
  let h ← heap
  let method ← orRaise line (castMethodFor h (h.object o).cls target)
  let result ← callMethod method (.object o) [] line
  let h ← heap
  demand (h.conforms result target) line
    (.castMethodResult target.castMethod (h.typeOf result) target)
  return result

def castPlain (value : Value) (target : TypeDesc) (line : Line) : Run Value := do
  match target.kind, value with
  | .number, .str s =>
    match Number.read? (Text.trim s) with
    | some n => return .num n
    | none => raise line (.castTextFailed s target)
  | .number, .bool b => return .num (if b then 1 else 0)
  | .string, _ => return .str (← spell value)
  | .boolean, .num n => return .bool (n != 0)
  | .boolean, .str "true" => return .bool true
  | .boolean, .str "false" => return .bool false
  | .any, _ => return value
  | _, _ => raise line (.castFailed ((← heap).typeOf value) target)

def castValue (value : Value) (target : TypeDesc) (line : Line) : Run Value := do
  let h ← heap
  if h.conforms value target && !value.isNil then
    return value
  else match value with
    | .object o =>
      if target.kind ≠ .string ∨ target.isArray then
        castObject o target line
      else
        castPlain value target line
    | _ =>
      if target.isArray then
        raise line (.castFailed (h.typeOf value) target)
      else
        castPlain value target line

end Evaluator

end Treewalk
