import Treewalk.Grammar.Declaration

/-!
Statements, and the grammar as a whole.
-/

namespace Treewalk.Grammar

open Treewalk.Grammar.Parser

def expressionStatement (r : Rules) : Parser Stmt := do
  let e ← assignment r
  let _ ← require .semicolon "';' after expression"
  return .expr e

def ifStatement (r : Rules) : Parser Stmt := do
  let condition ← parenthesized r "if"
  let yes ← r.statement
  let no ← optional .kwElse r.statement
  return .ifElse condition yes no

def whileStatement (r : Rules) : Parser Stmt := do
  let condition ← parenthesized r "while"
  return .whileLoop condition (← r.statement) none []

def whenStatement (r : Rules) : Parser Stmt := do
  let condition ← parenthesized r "when"
  let body ← r.statement
  let finish ← optional .kwFinally r.statement
  return .whenLoop condition body finish

def startsDeclaration (kind : TokenKind) : Bool :=
  kind = .kwVar || kind.isTypeName || (modifierOf kind).isSome

def forInitializer (r : Rules) : Parser (Option Stmt) := do
  match ← peekKind with
  | some .semicolon =>
    skip
    return none
  | some kind =>
    if startsDeclaration kind then some <$> r.declaration else some <$> expressionStatement r
  | none => some <$> expressionStatement r

/-- The variables that every iteration gets its own copy of. -/
def loopNames : Option Stmt → List Name
  | some (.var decl) => [decl.name]
  | _ => []

/-- A `for` loop is a block of its initializer and a loop with an increment. -/
def forStatement (r : Rules) : Parser Stmt := do
  let _ ← require .leftParen "'(' after 'for'"
  let initializer ← forInitializer r
  let condition ← unlessNext .semicolon (.literal (.bool true)) r.expression
  let _ ← require .semicolon "';' after loop condition"
  let increment ← unlessNext .rightParen none (some <$> r.expression)
  let _ ← require .rightParen "')' after for clauses"
  let body ← r.statement
  let loop := Stmt.whileLoop condition body increment (loopNames initializer)
  match initializer with
  | some first => return .block [first, loop]
  | none => return loop

structure Branches where
  cases : List (Expr × Stmt) := []
  default : Option Stmt := none

def defaultOnce (branches : Branches) (keyword : Name) : Parser Unit :=
  if branches.default.isSome then reportAt keyword .defaultDefined else pure ()

def branchesFrom (r : Rules) (branches : Branches) : Budget → Parser Branches
  | [] => giveUp
  | _ :: fuel => do
    match ← peek with
    | none => return branches
    | some t =>
      match t.kind with
      | .rightBrace => return branches
      | .kwCase =>
        skip
        let candidate ← parenthesized r "case"
        let body ← r.statement
        branchesFrom r { branches with cases := branches.cases ++ [(candidate, body)] } fuel
      | .kwDefault =>
        skip
        defaultOnce branches t.name
        let body ← r.statement
        branchesFrom r { branches with default := some body } fuel
      | _ => fail (.expected "'case' or 'default'")

def switchStatement (r : Rules) (line : Line) : Parser Stmt := do
  let value ← parenthesized r "switch"
  let _ ← require .leftBrace "'\x7b' before switch body"
  let branches ← branchesFrom r {} (← budget)
  let _ ← require .rightBrace "'\x7d' after switch body"
  return .switch line value branches.cases branches.default

def tryStatement (r : Rules) : Parser Stmt := do
  let body ← r.statement
  let _ ← require .kwCatch "'catch' after try body"
  let name ← optional .leftParen do
    let name ← require .identifier "error name"
    let _ ← require .rightParen "')' after error name"
    return name.name
  let _ ← require .leftBrace "'\x7b' before catch body"
  return .tryCatch body name (← block r)

def testStatement (r : Rules) (line : Line) : Parser Stmt := do
  let name ← parenthesized r "test"
  return .test line name (← r.statement)

def expectStatement (r : Rules) (line : Line) : Parser Stmt := do
  let value ← r.expression
  let _ ← require .semicolon "';' after expectation"
  return .expect line value

def returnStatement (r : Rules) (line : Line) : Parser Stmt := do
  let value ← unlessNext .semicolon none (some <$> r.expression)
  let _ ← require .semicolon "';' after return value"
  return .returning line value

def moduleStatement (line : Line) : Parser Stmt := do
  let name ← require .identifier "module name"
  let _ ← require .semicolon "';' after module name"
  return .moduleName line name.name

def statement (r : Rules) : Parser Stmt := do
  match ← peek with
  | none => expressionStatement r
  | some t =>
    match t.kind with
    | .kwIf =>
      skip
      ifStatement r
    | .kwWhile =>
      skip
      whileStatement r
    | .kwFor =>
      skip
      forStatement r
    | .kwWhen =>
      skip
      whenStatement r
    | .kwSwitch =>
      skip
      switchStatement r t.line
    | .kwTry =>
      skip
      tryStatement r
    | .kwTest =>
      skip
      testStatement r t.line
    | .kwExpect =>
      skip
      expectStatement r t.line
    | .kwReturn =>
      skip
      returnStatement r t.line
    | .kwBreak =>
      skip
      let _ ← require .semicolon "';' after 'break'"
      return .breaking t.line
    | .kwContinue =>
      skip
      let _ ← require .semicolon "';' after 'continue'"
      return .continuing t.line
    | .kwModule =>
      skip
      moduleStatement t.line
    | .leftBrace =>
      skip
      return .block (← block r)
    | _ => expressionStatement r

/-- What may follow modifiers. A function has its name right after the keyword; without a name the
keyword starts a lambda. -/
def declaration (r : Rules) : Parser Stmt := do
  let given ← modifiers
  match ← peekTwo with
  | (some .kwVar, _) =>
    skip
    return .var (← varDeclaration r given)
  | (some .kwFun, some .identifier) =>
    skip
    return .function (← function r "function" given)
  | (some .kwClass, _) =>
    skip
    return .classDecl (← classDeclaration r)
  | (some .kwInterface, _) =>
    skip
    return .interfaceDecl (← interfaceDeclaration r)
  | (some .kwEnum, _) =>
    skip
    enumDeclaration
  | (first, _) =>
    match ← writtenType? with
    | some (declared, range) =>
      return Field.stmt (← typedDeclaration r (given.union range) declared)
    | none =>
      if given = .none then
        statement r
      else if first = some .identifier then
        return .var (← varDeclaration r given)
      else
        fail (.expected "declaration after modifiers")

/-- Whether a token starts a new statement after a mistake. -/
def startsAfresh : TokenKind → Bool
  | .kwClass | .kwInterface | .kwEnum | .kwFun | .kwVar | .kwConst | .kwFor | .kwIf | .kwWhile
  | .kwWhen | .kwSwitch | .kwTry | .kwTest | .kwReturn => true
  | _ => false

/-- Skips at least one token, up to the end of a statement or the start of a new one. -/
def skipToFreshStart : List Token → List Token
  | [] => []
  | t :: rest =>
    if t.kind = .semicolon then rest
    else match rest with
      | [] => []
      | next :: _ => if startsAfresh next.kind then rest else skipToFreshStart rest

/-- A declaration; after a mistake the text is skipped up to a new start. -/
def recovering (p : Parser α) : Parser α := fun s =>
  match p s with
  | (some a, after) => (some a, after)
  | (none, after) => (none, { after with rest := skipToFreshStart after.rest })

/-- The grammar, unrolled as often as the fuel says. -/
def rules : Nat → Rules
  | 0 => .empty
  | fuel + 1 =>
    {
      expression := fun s => assignment (rules fuel) s
      ternary := fun s => ternary (rules fuel) s
      unary := fun s => unary (rules fuel) s
      statement := fun s => statement (rules fuel) s
      declaration := fun s => declaration (rules fuel) s
      blockItem := fun s => recovering (declaration (rules fuel)) s
    }

def declarationsFrom (r : Rules) : Nat → State → List Stmt × State
  | 0, s => ([], s)
  | fuel + 1, s =>
    if s.rest.isEmpty then ([], s)
    else match recovering (declaration r) s with
      | (some first, after) =>
        let (others, final) := declarationsFrom r fuel after
        (first :: others, final)
      | (none, after) => declarationsFrom r fuel after

end Grammar

open Grammar in
/-- Parses the tokens of a text. A rule that comes back to the grammar has taken a token, so unrolling
the grammar once for every token is enough. -/
def parse (source : Tokens) : Except (List ParseError) (List Stmt) :=
  let fuel := source.tokens.length + 1
  let (program, final) := declarationsFrom (rules fuel) fuel ⟨source.tokens, source.endLine, []⟩
  if final.errors.isEmpty then .ok program else .error final.errors

end Treewalk
