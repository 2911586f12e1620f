import Treewalk.Scoping.Scopes

/-!
Resolution that yields a program: the depth of every reference is filled in where it stands, and what surrounds a
place is handed down to it. A mistake abandons the top-level statement in which it stands; the next one starts afresh.
The resolver that runs keeps both in a state of its own. It comes to the same, and what is shown of programs that pass
starts from this form.
-/

namespace Treewalk.Scoping

mutual

def resolveExpr (c : Context) : Expr → Resolve Expr
  | .literal value => return .literal value
  | .group inner => return .group (← resolveExpr c inner)
  | .unary op line operand => return .unary op line (← resolveExpr c operand)
  | .binary op line left right => do
    let left ← resolveExpr c left
    let right ← resolveExpr c right
    return .binary op line left right
  | .logical op line left right => do
    let left ← resolveExpr c left
    let right ← resolveExpr c right
    return .logical op line left right
  | .ternary line condition yes no => do
    let condition ← resolveExpr c condition
    let yes ← resolveExpr c yes
    let no ← resolveExpr c no
    return .ternary line condition yes no
  | .use ref => return .use (← resolveUse ref)
  | .this ref => return .this (← resolveThis c ref)
  | .value ref => return .value (← resolveValue c ref)
  | .super ref method => return .super (← resolveSuper c ref) method
  | .assign ref site value => do
    let value ← resolveOption c value
    return .assign (← locate ref) site value
  | .call callee line args generics nullSafe => do
    let callee ← resolveExpr c callee
    let args ← resolveExprs c args
    let generics ← resolveExprs c generics
    return .call callee line args generics nullSafe
  | .get object name nullSafe => return .get (← resolveExpr c object) name nullSafe
  | .staticGet object name => return .staticGet (← resolveExpr c object) name
  | .set object name site value => do
    let object ← resolveExpr c object
    let value ← resolveOption c value
    return .set object name site value
  | .staticSet object name site value => do
    let object ← resolveExpr c object
    let value ← resolveOption c value
    return .staticSet object name site value
  | .index object line position => do
    let object ← resolveExpr c object
    let position ← resolveExpr c position
    return .index object line position
  | .indexSet object line position site value => do
    let object ← resolveExpr c object
    let position ← resolveExpr c position
    let value ← resolveOption c value
    return .indexSet object line position site value
  | .cast operand line target => do
    let operand ← resolveExpr c operand
    let target ← resolveExpr c target
    return .cast operand line target
  | .array line elementType elements => return .array line elementType (← resolveExprs c elements)
  | .sizedArray line elementType size => return .sizedArray line elementType (← resolveExpr c size)
  | .lambda decl => return .lambda (← resolveFunction c .function decl)
  | .type line desc => return .type line desc
  | .length line operand => return .length line (← resolveExpr c operand)
  | .typeOf line operand => return .typeOf line (← resolveExpr c operand)
termination_by structural e => e

def resolveOption (c : Context) : Option Expr → Resolve (Option Expr)
  | none => return none
  | some e => return some (← resolveExpr c e)
termination_by structural e => e

def resolveExprs (c : Context) : List Expr → Resolve (List Expr)
  | [] => return []
  | e :: rest => do
    let e ← resolveExpr c e
    let rest ← resolveExprs c rest
    return e :: rest
termination_by structural es => es

def resolveStmt (c : Context) : Stmt → Resolve Stmt
  | .expr e => return .expr (← resolveExpr c e)
  | .var decl => return .var (← resolveVar c decl)
  | .property decl => do
    declareDefined decl.name
    return .property (← resolveProperty c decl)
  | .function decl => do
    declareDefined decl.name
    return .function (← resolveFunction c .function decl)
  | .classDecl decl => return .classDecl (← resolveClass c decl)
  | .interfaceDecl decl => return .interfaceDecl (← resolveInterface c decl)
  | .enumDecl name elements => do
    declareDefined name
    return .enumDecl name elements
  | .block body => return .block (← inScope [] (resolveStmts c body))
  | .ifElse condition yes no => do
    let condition ← resolveExpr c condition
    let yes ← resolveStmt c yes
    let no ← resolveStmtOption c no
    return .ifElse condition yes no
  | .whileLoop condition body increment perIteration => do
    let condition ← resolveExpr c condition
    let increment ← resolveOption c increment
    let inside := { c with inLoop := true }
    let body ← match perIteration with
      | [] => resolveStmt inside body
      | names => inScope [] do
        declareAll names
        resolveStmt inside body
    return .whileLoop condition body increment perIteration
  | .whenLoop condition body finish => do
    let condition ← resolveExpr c condition
    let body ← resolveStmt { c with inLoop := true } body
    let finish ← resolveStmtOption c finish
    return .whenLoop condition body finish
  | .switch line value cases default => do
    let value ← resolveExpr c value
    let inside := { c with inSwitch := true }
    let cases ← resolveCases inside cases
    let default ← resolveStmtOption inside default
    return .switch line value cases default
  | .tryCatch body name handler => do
    let body ← resolveStmt c body
    let handler ← inScope [] do
      declareAll name.toList
      resolveStmts c handler
    return .tryCatch body name handler
  | .test line name body => do
    let name ← resolveExpr c name
    let body ← resolveStmt { c with inTest := true } body
    return .test line name body
  | .expect line value =>
    if c.inTest then
      return .expect line (← resolveExpr c value)
    else
      mistake .expectOutsideTest ⟨"expect", line⟩
  | .returning line value =>
    if c.function = .none then
      mistake .returnAtTopLevel ⟨"return", line⟩
    else if value.isSome ∧ c.function = .constructor then
      mistake .returnFromConstructor ⟨"return", line⟩
    else
      return .returning line (← resolveOption c value)
  | .breaking line =>
    if c.inLoop || c.inSwitch then
      return .breaking line
    else
      mistake .breakOutside ⟨"break", line⟩
  | .continuing line =>
    if c.inLoop then
      return .continuing line
    else
      mistake .continueOutside ⟨"continue", line⟩
  | .moduleName line name => do
    match (← get).moduleName with
    | some existing => mistake (.moduleDeclared existing) name
    | none =>
      modify fun s => { s with moduleName := some name.text }
      return .moduleName line name
termination_by structural s => s

def resolveStmtOption (c : Context) : Option Stmt → Resolve (Option Stmt)
  | none => return none
  | some s => return some (← resolveStmt c s)
termination_by structural s => s

def resolveStmts (c : Context) : List Stmt → Resolve (List Stmt)
  | [] => return []
  | s :: rest => do
    let s ← resolveStmt c s
    let rest ← resolveStmts c rest
    return s :: rest
termination_by structural ss => ss

def resolveCases (c : Context) : List (Expr × Stmt) → Resolve (List (Expr × Stmt))
  | [] => return []
  | (candidate, body) :: rest => do
    let candidate ← resolveExpr c candidate
    let body ← resolveStmt c body
    let rest ← resolveCases c rest
    return (candidate, body) :: rest
termination_by structural cases => cases

def resolveVar (c : Context) : VarDecl → Resolve VarDecl
  | ⟨name, modifiers, declared, initializer⟩ => do
    declare name
    let initializer ← resolveOption c initializer
    define name
    return ⟨name, modifiers, declared, initializer⟩
termination_by structural decl => decl

def resolveFieldVar (c : Context) : VarDecl → Resolve VarDecl
  | ⟨name, modifiers, declared, initializer⟩ => do
    let initializer ← resolveOption c initializer
    return ⟨name, modifiers, declared, initializer⟩
termination_by structural decl => decl

def resolveFunction (c : Context) (role : FunctionRole) : FunctionDecl → Resolve FunctionDecl
  | ⟨name, params, returns, modifiers, body⟩ => do
    let body ← resolveBody (c.inFunction role) (params.map Param.name) body
    return ⟨name, params, returns, modifiers, body⟩
termination_by structural decl => decl

def resolveBody (c : Context) (params : List Name) :
    Option (List Stmt) → Resolve (Option (List Stmt))
  | none => return none
  | some body => inScope [] do
    declareAll params
    return some (← resolveStmts c body)
termination_by structural body => body

def resolveFunctionOption (c : Context) (role : FunctionRole) :
    Option FunctionDecl → Resolve (Option FunctionDecl)
  | none => return none
  | some decl => return some (← resolveFunction c role decl)
termination_by structural decl => decl

def resolveMethods (c : Context) (role : Name → FunctionRole) :
    List FunctionDecl → Resolve (List FunctionDecl)
  | [] => return []
  | decl :: rest => do
    let decl ← resolveFunction c (role decl.name) decl
    let rest ← resolveMethods c role rest
    return decl :: rest
termination_by structural decls => decls

def resolveProperty (c : Context) : PropertyDecl → Resolve PropertyDecl
  | ⟨name, modifiers, declared, getter, setter⟩ => do
    let getter ← resolveFunction c .accessor getter
    let setter ← resolveFunctionOption c .accessor setter
    return ⟨name, modifiers, declared, getter, setter⟩
termination_by structural decl => decl

def resolveFields (c : Context) : List Field → Resolve (List Field)
  | [] => return []
  | .var decl :: rest => do
    let decl ← resolveFieldVar c decl
    let rest ← resolveFields c rest
    return .var decl :: rest
  | .property decl :: rest => do
    let decl ← inScope ["this"] (resolveProperty c decl)
    let rest ← resolveFields c rest
    return .property decl :: rest
termination_by structural fields => fields

def resolveInterfaceVars (c : Context) : List Field → Resolve (List (Option VarDecl))
  | [] => return []
  | .var decl :: rest => do
    let decl ← resolveFieldVar c decl
    let rest ← resolveInterfaceVars c rest
    return some decl :: rest
  | .property _ :: rest => do
    let rest ← resolveInterfaceVars c rest
    return none :: rest
termination_by structural fields => fields

def resolveInterfaceProperties (c : Context) : List Field → List (Option VarDecl) →
    Resolve (List Field)
  | .property decl :: rest, _ :: vars => do
    let decl ← resolveProperty c decl
    let rest ← resolveInterfaceProperties c rest vars
    return .property decl :: rest
  | .var _ :: rest, some decl :: vars => do
    let rest ← resolveInterfaceProperties c rest vars
    return .var decl :: rest
  | _, _ => return []
termination_by structural fields => fields

def resolveClass (c : Context) : ClassDecl → Resolve ClassDecl
  | ⟨name, superclass, interfaces, templates, fields, methods⟩ => do
    declareDefined name
    let superclass ← resolveSuperclass name superclass
    let interfaces ← resolveUses interfaces
    let inside := { c with owner := if superclass.isSome then .derived else .base }
    let (fields, methods) ← inScope ["super"] do
      declareAll templates
      let fields ← resolveFields inside fields
      let methods ← inScope ["this"] (resolveMethods inside methodRole methods)
      return (fields, methods)
    return ⟨name, superclass, interfaces, templates, fields, methods⟩
termination_by structural decl => decl

def resolveInterface (c : Context) : InterfaceDecl → Resolve InterfaceDecl
  | ⟨name, fields, methods⟩ => do
    let inside := { c with owner := .interface }
    declareDefined name
    let vars ← resolveInterfaceVars inside fields
    inScope ["this"] do
      let fields ← resolveInterfaceProperties inside fields vars
      let methods ← resolveMethods inside (fun _ => .method) methods
      return ⟨name, fields, methods⟩
termination_by structural decl => decl

end

/-- Resolves statements from the outermost scope on, each from empty scopes. Returns the statements
without a mistake and the mistakes of the others. -/
def resolveEach (moduleName : Option String) : List Stmt → List Stmt × List ScopeError
  | [] => ([], [])
  | s :: rest =>
    match (resolveStmt {} s).run ⟨[], moduleName⟩ with
    | .ok resolved after =>
      let (others, errors) := resolveEach after.moduleName rest
      (resolved :: others, errors)
    | .error e after =>
      let (others, errors) := resolveEach after.moduleName rest
      (others, e :: errors)

end Scoping

def resolve (program : List Stmt) : Except (List Scoping.ScopeError) (List Stmt) :=
  match Scoping.resolveEach none program with
  | (resolved, []) => .ok resolved
  | (_, errors) => .error errors

end Treewalk
