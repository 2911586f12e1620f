import Treewalk.Eval.Declare

/-!
Statements, and the activities as a whole.
-/

namespace Treewalk

namespace Evaluator

open Run

/-- Runs a body as long as the condition holds, with the increment after each time that the loop goes
on. -/
def whileLoop (condition : Expr) (body : Run Signal) (increment : Option Expr) :
    Nat → Run Signal
  | 0 => stop .outOfFuel
  | fuel + 1 => do
    if (← eval condition).isTruthy then
      match ← body with
      | .breaking => return .normal
      | .normal | .continuing =>
        let _ ← option increment
        whileLoop condition body increment fuel
      | signal => return signal
    else
      return .normal

def untilLoop (condition : Expr) (body : Stmt) : Nat → Run Signal
  | 0 => stop .outOfFuel
  | fuel + 1 => do
    if (← eval condition).isTruthy then
      return .normal
    else
      match ← exec body with
      | .breaking => return .normal
      | .normal | .continuing => untilLoop condition body fuel
      | signal => return signal

def copyNames (source target : Ref .scope) : List Name → Run Unit
  | [] => return ()
  | name :: rest => do
    match ← reading (·.here? source name.text) with
    | some cell => update (·.define target name.text cell)
    | none => pure ()
    copyNames source target rest

/-- One time round a loop, in a scope with copies of the loop variables. The copies are written back
afterwards, so that what the body captured stays as it was. -/
def iteration (body : Stmt) (names : List Name) : Run Signal := do
  let outer ← currentScope
  let copies ← reading (·.copies outer names)
  let scope ← allocate (·.addScope { enclosing := some outer, names := copies })
  let signal ← block scope [body]
  copyNames scope outer names
  return signal

def runWhile (fuel : Nat) (condition : Expr) (body : Stmt) (increment : Option Expr)
    (names : List Name) : Run Signal :=
  if names.isEmpty then
    whileLoop condition (exec body) increment fuel
  else
    whileLoop condition (iteration body names) increment fuel

/-- The loop ends with its last part however it was left, unless by a signal that goes further out. -/
def runWhen (fuel : Nat) (condition : Expr) (body : Stmt) (finish : Option Stmt) :
    Run Signal := do
  match ← untilLoop condition body fuel with
  | .normal =>
    match finish with
    | some s => exec s
    | none => return .normal
  | signal => return signal

/-- The body of the first case that equals the value, or the default. -/
def selectCase (line : Line) (value : Value) (default : Option Stmt) :
    List (Expr × Stmt) → Run (Option Stmt)
  | [] => return default
  | (candidate, body) :: rest => do
    let other ← eval candidate
    if (← operation .equal "switch" line value other).isTruthy then
      return some body
    else
      selectCase line value default rest

def runSwitch (line : Line) (value : Expr) (cases : List (Expr × Stmt))
    (default : Option Stmt) : Run Signal := do
  let value ← eval value
  match ← selectCase line value default cases with
  | none => return .normal
  | some body =>
    match ← exec body with
    | .breaking => return .normal
    | signal => return signal

/-- The handler of a fault, which sees its message. -/
def handle (name : Option Name) (handler : List Stmt) (e : RuntimeError) :
    Run Signal := do
  let outer ← currentScope
  let names := match name with
    | some name => NameMap.empty.insert name.text (Cell.ofValue (.str e.message))
    | none => .empty
  let scope ← allocate (·.addScope { enclosing := some outer, names := names })
  block scope handler

/-- Whether a test passes whose body ended with a signal: it fails when its expectation is not met, and
passes when it has none. -/
def passes (line : Line) : Signal → Run Bool
  | .expecting value => return value.isTruthy
  | .returning _ => raise line .returnFromTest
  | _ => return true

def runTest (line : Line) (name : Expr) (body : Stmt) : Run Signal := do
  match ← eval name with
  | .str name =>
    let signal ← exec body
    let verdict := if ← passes line signal then "passed" else "failed"
    printOut s!"Test {name} {verdict}\n"
    return .normal
  | _ => raise line .testNameNotString

def evalStmt (fuel : Nat) (s : Stmt) : Run Signal := do
  match s with
  | .expr e =>
    let _ ← eval e
    return .normal
  | .var decl =>
    declareVariable decl
    return .normal
  | .property decl =>
    declareProperty decl
    return .normal
  | .function decl =>
    declareFunction decl
    return .normal
  | .classDecl decl =>
    declareClass decl
    return .normal
  | .interfaceDecl decl =>
    declareInterface decl
    return .normal
  | .enumDecl name elements =>
    declareEnum name elements
    return .normal
  | .block body =>
    let outer ← currentScope
    block (← allocate (·.child outer)) body
  | .ifElse condition yes no =>
    if (← eval condition).isTruthy then
      exec yes
    else
      match no with
      | some s => exec s
      | none => return .normal
  | .whileLoop condition body increment names => runWhile fuel condition body increment names
  | .whenLoop condition body finish => runWhen fuel condition body finish
  | .switch line value cases default => runSwitch line value cases default
  | .tryCatch body name handler => catching (exec body) (handle name handler)
  | .test line name body => runTest line name body
  | .expect _ value => return .expecting (← eval value)
  | .returning _ value => return .returning ((← option value).getD .nil)
  | .breaking _ => return .breaking
  | .continuing _ => return .continuing
  | .moduleName .. => return .normal

end Evaluator

open Evaluator in
/-- The plan of an activity. A loop may run as often as the fuel says. -/
def Activity.plan (fuel : Nat) : (a : Activity) → Run a.Result
  | .expr e => evalExpr e
  | .stmt s => evalStmt fuel s
  | .call f args generics line => callFunction f args generics line
  | .text value => textOf value

/-- Performs an activity. So many activities may be going on inside each other as the fuel says. -/
def perform : Nat → (a : Activity) → Machine → Outcome a.Result
  | 0, _, m => .error .outOfFuel m
  | fuel + 1, a, m => (a.plan fuel m).outcome (perform fuel)

end Treewalk
