import Treewalk.Proofs.Composition

/-!
Properties that all activities have. A property that is kept when computations are put together, and also where
names are bound, members are written, instances are made, scopes are entered and faults are taken, is a property
of the plan of every activity. Only the declaration of a class is looked at by itself.
-/

namespace Treewalk

structure Pervasive (K : {α : Type} → Run α → Prop) : Prop extends Compositional K where
  exec (s : Stmt) : K (Run.exec s)
  define (r : Ref .scope) (name : String) (cell : Cell) : K (Run.update (·.define r name cell))
  addObject (o : Object) : K (Run.allocate (·.addObject o))
  setFields (o : Ref .object) (cells : NameMap Cell) : K (Run.update (·.setFields o cells))
  setField (o : Ref .object) (name : String) (cell : Cell) : K (Run.update (·.setField o name cell))
  setClassField (c : Ref .cls) (name : String) (cell : Cell) : K (Run.update (·.setClassField c name cell))
  inScope {α : Type} (r : Ref .scope) {c : Run α} (inner : K c) : K (Run.inScope r c)
  catching {α : Type} {body : Run α} {handler : RuntimeError → Run α} (inner : K body) (handles : ∀ e, K (handler e)) :
    K (Run.catching body handler)
  declareClass (decl : ClassDecl) : K (Evaluator.declareClass decl)

namespace Pervasive

variable {K : {α : Type} → Run α → Prop} (perv : Pervasive K)

include perv

theorem block (scope : Ref .scope) (body : List Stmt) : K (Evaluator.block scope body) :=
  perv.inScope scope (perv.stmts fun s _ => perv.exec s)

theorem evalExpr (e : Expr) : K (Evaluator.evalExpr e) := by
  have comp := perv.toCompositional
  apply comp.evalExpr
  · intro ref site value _
    exact comp.assign (comp.writeVariable perv.define) ref site value
  · intro object name site value qualified _
    exact comp.setProperty (comp.setMember perv.setField perv.setClassField) object name site value qualified
  · exact comp.construct perv.addObject perv.setFields

theorem evalStmt (fuel : Nat) (s : Stmt) : K (Evaluator.evalStmt fuel s) := by
  have comp := perv.toCompositional
  cases declares : s.declares? with
  | some name =>
    exact comp.evalDeclaration (by rw [declares]; rfl) perv.define (fun decl _ => perv.declareClass decl) fuel
  | none =>
    apply comp.evalStmt declares perv.exec
    · intro names body
      exact comp.bind comp.currentScope fun _ => comp.bind (comp.addScope _) fun scope => perv.block scope body
    · exact fun body _ => comp.iteration perv.define perv.block body _
    · exact fun _ _ => perv.catching

theorem plan (a : Activity) (fuel : Nat) : K (a.plan fuel) := by
  cases a with
  | expr e => exact perv.evalExpr e
  | stmt s => exact perv.evalStmt fuel s
  | call f args generics line =>
    apply perv.toCompositional.callFunction
    exact fun body closure _ cells => perv.bind (perv.addScope _) fun scope => perv.block scope body
  | text value => exact perv.textOf value

end Pervasive

end Treewalk
