import Treewalk.Grammar.Parser
import Treewalk.Type.Descriptor
import Treewalk.Type.Modifiers
import Treewalk.Tree

/-!
Type annotations, modifiers and parameters.
-/

namespace Treewalk.Grammar

open Treewalk.Grammar.Parser

def modifierOf : TokenKind → Option Modifiers
  | .kwConst => some { const := true }
  | .kwStatic => some { static := true }
  | .kwOperator => some { operator := true }
  | .kwCast => some { cast := true }
  | .kwUnsigned => some { unsigned := true }
  | _ => none

/-- The modifiers at the start of a list of tokens, in any order and number, and what follows them. -/
def modifiersIn (seen : Modifiers) : List Token → Modifiers × List Token
  | [] => (seen, [])
  | t :: rest =>
    match modifierOf t.kind with
    | some modifier => modifiersIn (seen.union modifier) rest
    | none => (seen, t :: rest)

def modifiers : Parser Modifiers := fun s =>
  let (found, rest) := modifiersIn .none s.rest
  (some found, { s with rest := rest })

/-- The type with a dimension for each pair of brackets at the start of a list of tokens, and what
follows them. -/
def dimensionsIn (desc : TypeDesc) : List Token → TypeDesc × List Token
  | first :: second :: rest =>
    if first.kind = .leftBracket ∧ second.kind = .rightBracket then
      dimensionsIn desc.arrayOf rest
    else
      (desc, first :: second :: rest)
  | rest => (desc, rest)

def dimensions (desc : TypeDesc) : Parser TypeDesc := fun s =>
  let (extended, rest) := dimensionsIn desc s.rest
  (some extended, { s with rest := rest })

/-- The parameters and the result of a function type. `inner` reads a type that follows the given
token. -/
def functionType (inner : Name → Parser (TypeDesc × Modifiers)) : Parser TypeDesc := do
  let paren ← require .leftParen "'(' in function type"
  let params ← match ← peekKind with
    | some .rightParen => pure []
    | _ => paramTypes paren.name (← budget)
  let _ ← require .rightParen "')' after parameter types"
  let colon ← require .colon "':' before return type"
  let (returns, _) ← inner colon.name
  return TypeDesc.function params returns
where
  paramTypes (before : Name) : Budget → Parser (List TypeDesc)
    | [] => giveUp
    | _ :: fuel => do
      let (first, _) ← inner before
      match ← accept .comma with
      | some comma => return first :: (← paramTypes comma.name fuel)
      | none => return [first]

/-- The type that starts with a token of the given kind, and the range that it implies. -/
def typeStart (inner : Name → Parser (TypeDesc × Modifiers)) (first : Token) :
    Parser (TypeDesc × Modifiers) :=
  match first.kind with
  | .typeNum => return (.number, .none)
  | .typeString => return (.string, .none)
  | .typeBool => return (.boolean, .none)
  | .typeVoid => return (.void, .none)
  | .typeAny => return (.any, .none)
  | .typeType => return (.typeValue, .none)
  | .typeByte => return (.number, { byte := true })
  | .typeObj => do
    if ← accepts .kwFun then
      return (← functionType inner, .none)
    else
      let name ← require .identifier "class name after 'obj'"
      return (.object name.lexeme, .none)
  | _ => do
    reportAt first.name (.expected "type")
    giveUp

/-- A type annotation. At the end of the text the token before it is at fault. -/
def typeAfter : Budget → Name → Parser (TypeDesc × Modifiers)
  | [], _ => giveUp
  | _ :: fuel, before => do
    match ← peek with
    | none =>
      reportAt before (.expected "type")
      giveUp
    | some first =>
      skip
      let (desc, range) ← typeStart (typeAfter fuel) first
      return (← dimensions desc, range)

def writtenTypeAfter (before : Name) : Parser (TypeDesc × Modifiers) := do
  typeAfter (← budget) before

/-- A type annotation where one may stand, if the next token starts one. -/
def writtenType? : Parser (Option (TypeDesc × Modifiers)) := do
  match ← peek with
  | some first =>
    if first.kind.isTypeName then
      return some (← writtenTypeAfter first.name)
    else
      return none
  | none => return none

def parameter : Parser Param := do
  let given ← modifiers
  let (declared, range) := (← writtenType?).getD (.any, .none)
  let name ← require .identifier "parameter name"
  return { name := name.name, declared := declared, modifiers := given.union range }

end Treewalk.Grammar
