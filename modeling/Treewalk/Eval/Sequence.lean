import Treewalk.Run

/-!
Lists and options of expressions, and lists of statements.
-/

namespace Treewalk.Evaluator

open Run

def exprs : List Expr → Run (List Value)
  | [] => return []
  | e :: rest => do
    let value ← eval e
    return value :: (← exprs rest)

def option (e : Option Expr) : Run (Option Value) :=
  e.mapM eval

/-- Runs statements up to the first that does not end normally. -/
def stmts : List Stmt → Run Signal
  | [] => return .normal
  | s :: rest => do
    match ← exec s with
    | .normal => stmts rest
    | signal => return signal

def block (r : Ref .scope) (body : List Stmt) : Run Signal :=
  inScope r (stmts body)

end Treewalk.Evaluator
