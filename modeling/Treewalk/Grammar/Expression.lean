import Treewalk.Grammar.Rules

/-!
Expressions, from the loosest level to the tightest: assignment, cast, conditional, `or`, `and`,
equality, comparison, sum, product, sign, suffix, primary.
-/

namespace Treewalk.Grammar

open Treewalk.Grammar.Parser

/-- A type, a colon and elements; a type, a semicolon and a size; or elements alone. The opening bracket
is already taken. -/
def arrayLiteral (r : Rules) (line : Line) : Parser Expr := do
  match ← writtenType? with
  | some (desc, _) =>
    if ← accepts .semicolon then
      let size ← r.expression
      let _ ← require .rightBracket "']' after array size"
      return .sizedArray line desc size
    else
      let _ ← require .colon "':' or ';' after array element type"
      return .array line (some desc) (← elements)
  | none => return .array line none (← elements)
where
  elements : Parser (List Expr) := do
    let items ← unlessNext .rightBracket [] do
      commaSeparated r.expression (← budget)
    let _ ← require .rightBracket "']' after array elements"
    return items

def primary (r : Rules) : Parser Expr := do
  match ← peek with
  | none => fail (.expected "expression")
  | some t =>
    match t.kind with
    | .kwFalse =>
      skip
      return .literal (.bool false)
    | .kwTrue =>
      skip
      return .literal (.bool true)
    | .kwNil =>
      skip
      return .literal .nil
    | .number | .string =>
      skip
      match t.literal? with
      | some value => return .literal value
      | none =>
        reportAt t.name (.expected "literal value")
        giveUp
    | .kwThis =>
      skip
      return .this { name := t.name }
    | .kwValue =>
      skip
      return .value { name := t.name }
    | .kwSuper =>
      skip
      let _ ← require .dot "'.' after 'super'"
      let method ← require .identifier "superclass method name"
      return .super { name := t.name } method.name
    | .identifier =>
      skip
      return .use { name := t.name }
    | .leftParen =>
      skip
      let inner ← r.expression
      let _ ← require .rightParen "')' after expression"
      return .group inner
    | .leftBracket =>
      skip
      arrayLiteral r t.line
    | .kwFun =>
      skip
      let _ ← require .leftParen "'(' after 'fun'"
      return .lambda (← functionRest r ⟨"lambda", t.line⟩ "lambda" .none true)
    | .kwTypeof =>
      skip
      return .typeOf t.line (← parenthesized r "typeof")
    | .kwLength =>
      skip
      return .length t.line (← parenthesized r "length")
    | _ =>
      match ← writtenType? with
      | some (desc, _) => return .type t.line desc
      | none => fail (.expected "expression")

/-- The arguments of a call; the opening parenthesis is already taken. -/
def callRest (r : Rules) (callee : Expr) (generics : List Expr) (nullSafe : Bool) : Parser Expr := do
  let args ← unlessNext .rightParen [] do
    commaSeparatedLimited r.expression "arguments" 0 (← budget)
  let paren ← require .rightParen "')' after arguments"
  return .call callee paren.line args generics nullSafe

/-- A call with generic arguments; the colon and the opening angle are already taken. -/
def genericCall (r : Rules) (callee : Expr) : Parser Expr := do
  let generics ← commaSeparated (primary r) (← budget)
  let _ ← require .greater "'>' after generic arguments"
  let _ ← require .leftParen "'(' after generic arguments"
  callRest r callee generics false

/-- A member that is read only where there is an object; a call of it is skipped with it. -/
def nullSafeMember (r : Rules) (object : Expr) : Parser Expr := do
  let name ← require .identifier "property name after '?.'"
  let member := Expr.get object name.name true
  if ← accepts .leftParen then
    callRest r member [] true
  else
    return member

/-- One suffix of an expression, or `none` when none follows. -/
def suffix? (r : Rules) (e : Expr) : Parser (Option Expr) := do
  match ← peek with
  | none => return none
  | some t =>
    match t.kind with
    | .leftParen =>
      skip
      return some (← callRest r e [] false)
    | .colon =>
      match ← peekTwo with
      | (_, some .less) =>
        skip
        skip
        return some (← genericCall r e)
      | _ => return none
    | .dot =>
      skip
      let name ← require .identifier "property name after '.'"
      return some (.get e name.name false)
    | .questionDot =>
      skip
      return some (← nullSafeMember r e)
    | .colonColon =>
      skip
      let name ← require .identifier "member name after '::'"
      return some (.staticGet e name.name)
    | .leftBracket =>
      skip
      let position ← r.expression
      let _ ← require .rightBracket "']' after index"
      return some (.index e t.line position)
    | _ => return none

def suffixes (r : Rules) (e : Expr) : Budget → Parser Expr
  | [] => giveUp
  | _ :: fuel => do
    match ← suffix? r e with
    | some longer => suffixes r longer fuel
    | none => return e

def call (r : Rules) : Parser Expr := do
  let e ← primary r
  suffixes r e (← budget)

def unaryOp : TokenKind → Option UnaryOp
  | .bang => some .not
  | .minus => some .negate
  | _ => none

def unary (r : Rules) : Parser Expr := do
  match ← acceptMap unaryOp with
  | some (op, t) => return .unary op t.line (← r.unary)
  | none => call r

/-- Operands of one level joined from left to right. -/
def leftAssociative (select : TokenKind → Option α) (join : α → Line → Expr → Expr → Expr)
    (operand : Parser Expr) (left : Expr) : Budget → Parser Expr
  | [] => giveUp
  | _ :: fuel => do
    match ← acceptMap select with
    | some (op, t) =>
      let right ← operand
      leftAssociative select join operand (join op t.line left right) fuel
    | none => return left

def level (select : TokenKind → Option α) (join : α → Line → Expr → Expr → Expr)
    (operand : Parser Expr) : Parser Expr := do
  let first ← operand
  leftAssociative select join operand first (← budget)

def factorOp : TokenKind → Option BinaryOp
  | .slash => some (.operator .divide)
  | .star => some (.operator .multiply)
  | _ => none

def termOp : TokenKind → Option BinaryOp
  | .minus => some (.operator .subtract)
  | .plus => some (.operator .add)
  | _ => none

def comparisonOp : TokenKind → Option BinaryOp
  | .greaterEqual => some (.operator .greaterEqual)
  | .greater => some (.operator .greater)
  | .lessEqual => some (.operator .lessEqual)
  | .less => some (.operator .less)
  | _ => none

def equalityOp : TokenKind → Option BinaryOp
  | .bangEqual => some (.operator .notEqual)
  | .equalEqual => some (.operator .equal)
  | .questionEqual => some .nilEqual
  | .questionQuestion => some .orElse
  | _ => none

def andOp : TokenKind → Option LogicalOp
  | .kwAnd => some .and
  | _ => none

def orOp : TokenKind → Option LogicalOp
  | .kwOr => some .or
  | _ => none

def factor (r : Rules) : Parser Expr :=
  level factorOp .binary (unary r)

def term (r : Rules) : Parser Expr :=
  level termOp .binary (factor r)

def comparison (r : Rules) : Parser Expr :=
  level comparisonOp .binary (term r)

def equality (r : Rules) : Parser Expr :=
  level equalityOp .binary (comparison r)

def conjunction (r : Rules) : Parser Expr :=
  level andOp .logical (equality r)

def disjunction (r : Rules) : Parser Expr :=
  level orOp .logical (conjunction r)

def ternary (r : Rules) : Parser Expr := do
  let condition ← disjunction r
  match ← accept .question with
  | some question =>
    let yes ← r.expression
    let _ ← require .colon "':' in conditional expression"
    let no ← r.ternary
    return .ternary question.line condition yes no
  | none => return condition

def castsFrom (r : Rules) (e : Expr) : Budget → Parser Expr
  | [] => giveUp
  | _ :: fuel => do
    match ← accept .kwAs with
    | some keyword =>
      let target ← call r
      castsFrom r (.cast e keyword.line target) fuel
    | none => return e

def casts (r : Rules) : Parser Expr := do
  let e ← ternary r
  castsFrom r e (← budget)

def assignOp : TokenKind → Option AssignOp
  | .equal => some .set
  | .plusEqual => some .add
  | .minusEqual => some .subtract
  | .starEqual => some .multiply
  | .slashEqual => some .divide
  | .starStarEqual => some .power
  | .plusPlus => some .increment
  | .minusMinus => some .decrement
  | _ => none

/-- The assignment to a target, or `none` when the expression is not one. -/
def assignTo? (site : AssignSite) (value : Option Expr) : Expr → Option Expr
  | .use ref => some (.assign ref site value)
  | .get object name false => some (.set object name site value)
  | .staticGet object name => some (.staticSet object name site value)
  | .index object line position => some (.indexSet object line position site value)
  | _ => none

def assignedValue (r : Rules) (op : AssignOp) : Parser (Option Expr) := do
  if op.takesValue then
    return some (← r.expression)
  else
    return none

/-- Assignment. An invalid target is reported at the operator, and reading goes on with the target. -/
def assignment (r : Rules) : Parser Expr := do
  let target ← casts r
  match ← acceptMap assignOp with
  | some (op, t) =>
    let value ← assignedValue r op
    match assignTo? ⟨op, t.line⟩ value target with
    | some e => return e
    | none =>
      reportAt t.name .invalidTarget
      return target
  | none => return target

end Treewalk.Grammar
