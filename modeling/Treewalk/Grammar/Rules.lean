import Treewalk.Grammar.WrittenType

/-!
The grammar refers to itself. The rules that a rule may come back to, always after it has taken a
token, are collected in one record, so that every rule is an ordinary definition over that record.
-/

namespace Treewalk.Grammar

open Treewalk.Grammar.Parser

structure Rules where
  expression : Parser Expr
  ternary : Parser Expr
  unary : Parser Expr
  statement : Parser Stmt
  /-- A declaration without a fresh start after a mistake. -/
  declaration : Parser Stmt
  /-- A declaration inside a block: after a mistake the text is skipped up to a new start. -/
  blockItem : Parser Stmt

def Rules.empty : Rules :=
  {
    expression := giveUp
    ternary := giveUp
    unary := giveUp
    statement := giveUp
    declaration := giveUp
    blockItem := giveUp
  }

def parenthesized (r : Rules) (keyword : String) : Parser Expr := do
  let _ ← require .leftParen s!"'(' after '{keyword}'"
  let inner ← r.expression
  let _ ← require .rightParen s!"')' after '{keyword}' expression"
  return inner

/-- The statements of a block; its opening brace is already taken. -/
def block (r : Rules) : Parser (List Stmt) := do
  let items ← untilBrace r.blockItem (← budget)
  let _ ← require .rightBrace "'\x7d' after block"
  return items

def parameters : Parser (List Param) :=
  unlessNext .rightParen [] do
    commaSeparatedLimited parameter "parameters" 0 (← budget)

/-- The result type of a function, which may return anything if none is written. -/
def resultType : Parser TypeDesc := do
  match ← accept .arrow with
  | some arrow =>
    let (desc, _) ← writtenTypeAfter arrow.name
    return desc
  | none => return .any

def bracedBody (r : Rules) (kind : String) : Parser (List Stmt) := do
  let _ ← require .leftBrace s!"'\x7b' before {kind} body"
  block r

/-- A body, or a semicolon in its place where it is not needed. -/
def functionBody (r : Rules) (kind : String) : Bool → Parser (Option (List Stmt))
  | true => do return some (← bracedBody r kind)
  | false => do
    if ← accepts .semicolon then
      return none
    else
      return some (← bracedBody r kind)

/-- Parameters, result type and body of a function; the opening parenthesis is already taken. -/
def functionRest (r : Rules) (name : Name) (kind : String) (given : Modifiers) (needsBody : Bool) :
    Parser FunctionDecl := do
  let params ← parameters
  let _ ← require .rightParen "')' after parameters"
  let returns ← resultType
  let body ← functionBody r kind needsBody
  return ⟨name, params, returns, given, body⟩

def function (r : Rules) (kind : String) (given : Modifiers) : Parser FunctionDecl := do
  let name ← require .identifier s!"{kind} name"
  let _ ← require .leftParen s!"'(' after {kind} name"
  functionRest r name.name kind given false

end Treewalk.Grammar
