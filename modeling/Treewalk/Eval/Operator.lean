import Treewalk.Eval.Call

/-!
Operators. A class overloads an operator by a method of a fixed name that carries the `operator` tag;
the left operand is asked first. Without an overload instances can only be compared for identity and
joined to a string.
-/

namespace Treewalk

def Operator.method : Operator → String
  | add => "add"
  | subtract => "subtract"
  | multiply => "multiply"
  | divide => "divide"
  | equal => "equal"
  | notEqual => "notEqual"
  | less => "less"
  | lessEqual => "lessEqual"
  | greater => "greater"
  | greaterEqual => "greaterEqual"

/-- Whether an operator has a meaning for instances that do not overload it. -/
def Operator.worksOnInstances (op : Operator) (left right : Value) : Bool :=
  match op with
  | equal | notEqual => true
  | add => left.string?.isSome || right.string?.isSome
  | _ => false

namespace Evaluator

open Run

/-- The operand whose class decides about an overload. -/
def overloader? (left right : Value) : Option (Ref .object) :=
  match left, right with
  | .object o, _ => some o
  | _, .object o => some o
  | _, _ => none

def numbers (left right : Value) (line : Line) : Run (Float × Float) :=
  match left, right with
  | .num l, .num r => return (l, r)
  | _, _ => raise line .operandsNotNumbers

/-- Sums of numbers, and texts of everything else joined. -/
def sum (left right : Value) : Run Value := do
  match left, right with
  | .num l, .num r => return .num (l + r)
  | .str l, .str r => return .str (l ++ r)
  | _, _ =>
    let l ← spell left
    let r ← spell right
    return .str (l ++ r)

def plainOperation (op : Operator) (line : Line) (left right : Value) : Run Value := do
  match op with
  | .add => sum left right
  | .subtract =>
    let (l, r) ← numbers left right line
    return .num (l - r)
  | .divide =>
    let (l, r) ← numbers left right line
    return .num (l / r)
  | .multiply =>
    let (l, r) ← numbers left right line
    return .num (l * r)
  | .greater =>
    let (l, r) ← numbers left right line
    return .bool (l > r)
  | .greaterEqual =>
    let (l, r) ← numbers left right line
    return .bool (l ≥ r)
  | .less =>
    let (l, r) ← numbers left right line
    return .bool (l < r)
  | .lessEqual =>
    let (l, r) ← numbers left right line
    return .bool (l ≤ r)
  | .equal => return .bool (left.same right)
  | .notEqual => return .bool (!left.same right)

def operation (op : Operator) (symbol : String) (line : Line) (left right : Value) :
    Run Value := do
  match overloader? left right with
  | none => plainOperation op line left right
  | some o =>
    let h ← heap
    let cls := (h.object o).cls
    match h.findMethod? cls op.method with
    | some method =>
      if (h.function method).modifiers.operator then
        callMethod method (.object o) [left, right] line
      else
        raise line (.operatorUntagged op.method symbol)
    | none =>
      if op.worksOnInstances left right then
        plainOperation op line left right
      else
        raise line (.undefinedOperator (h.cls cls).name op.method symbol)

def binaryOperation (op : BinaryOp) (line : Line) (left right : Value) : Run Value :=
  match op with
  | .operator op => operation op op.symbol line left right
  | .orElse => return if left.isNil then right else left
  | .nilEqual =>
    if left.isNil || right.isNil then return .nil
    else operation .equal (BinaryOp.symbol .nilEqual) line left right

def unaryOperation (op : UnaryOp) (line : Line) (operand : Value) : Run Value :=
  match op, operand with
  | .not, value => return .bool !value.isTruthy
  | .negate, .num n => return .num (-n)
  | .negate, _ => raise line .operandNotNumber

def step (site : AssignSite) (current : Value) (delta : Float) : Run Value :=
  match current with
  | .num n => return .num (n + delta)
  | _ => raise site.line (.steppedNotNumber site.op.symbol)

def assigned (site : AssignSite) (current : Value) (value : Option Value) :
    Run Value := do
  let operand := value.getD .nil
  match site.op with
  | .set => return operand
  | .add => operation .add site.op.symbol site.line current operand
  | .subtract => operation .subtract site.op.symbol site.line current operand
  | .multiply => operation .multiply site.op.symbol site.line current operand
  | .divide => operation .divide site.op.symbol site.line current operand
  | .power =>
    let (base, exponent) ← numbers current operand site.line
    return .num (base.pow exponent)
  | .increment => step site current 1
  | .decrement => step site current (-1)

/-- The new value of a target; a plain assignment does not read the old one. -/
def newValue (site : AssignSite) (current : Run Value) (value : Option Value) :
    Run Value := do
  if site.op = .set then
    return value.getD .nil
  else
    assigned site (← current) value

end Evaluator

end Treewalk
