import Treewalk.Tree

/-!
Ids for references. Each reference of a tree gets the next number, in the order in which names are resolved, so
that no two of a session have the same.
-/

namespace Treewalk.Scoping

abbrev Numbering := StateM Nat

def numberRef (ref : Reference) : Numbering Reference := do
  let id ← get
  set (id + 1)
  return { ref with id := id }

def numberRefOption : Option Reference → Numbering (Option Reference)
  | none => return none
  | some ref => return some (← numberRef ref)

def numberRefs : List Reference → Numbering (List Reference)
  | [] => return []
  | ref :: rest => do
    let ref ← numberRef ref
    let rest ← numberRefs rest
    return ref :: rest

mutual

def numberExpr : Expr → Numbering Expr
  | .literal value => return .literal value
  | .group inner => return .group (← numberExpr inner)
  | .unary op line operand => return .unary op line (← numberExpr operand)
  | .binary op line left right => do
    let left ← numberExpr left
    let right ← numberExpr right
    return .binary op line left right
  | .logical op line left right => do
    let left ← numberExpr left
    let right ← numberExpr right
    return .logical op line left right
  | .ternary line condition yes no => do
    let condition ← numberExpr condition
    let yes ← numberExpr yes
    let no ← numberExpr no
    return .ternary line condition yes no
  | .use ref => return .use (← numberRef ref)
  | .this ref => return .this (← numberRef ref)
  | .value ref => return .value (← numberRef ref)
  | .super ref method => return .super (← numberRef ref) method
  | .assign ref site value => do
    let value ← numberOption value
    let ref ← numberRef ref
    return .assign ref site value
  | .call callee line args generics nullSafe => do
    let callee ← numberExpr callee
    let args ← numberExprs args
    let generics ← numberExprs generics
    return .call callee line args generics nullSafe
  | .get object name nullSafe => return .get (← numberExpr object) name nullSafe
  | .staticGet object name => return .staticGet (← numberExpr object) name
  | .set object name site value => do
    let object ← numberExpr object
    let value ← numberOption value
    return .set object name site value
  | .staticSet object name site value => do
    let object ← numberExpr object
    let value ← numberOption value
    return .staticSet object name site value
  | .index object line position => do
    let object ← numberExpr object
    let position ← numberExpr position
    return .index object line position
  | .indexSet object line position site value => do
    let object ← numberExpr object
    let position ← numberExpr position
    let value ← numberOption value
    return .indexSet object line position site value
  | .cast operand line target => do
    let operand ← numberExpr operand
    let target ← numberExpr target
    return .cast operand line target
  | .array line elementType elements => return .array line elementType (← numberExprs elements)
  | .sizedArray line elementType size => return .sizedArray line elementType (← numberExpr size)
  | .lambda decl => return .lambda (← numberFunction decl)
  | .type line desc => return .type line desc
  | .length line operand => return .length line (← numberExpr operand)
  | .typeOf line operand => return .typeOf line (← numberExpr operand)
termination_by structural e => e

def numberOption : Option Expr → Numbering (Option Expr)
  | none => return none
  | some e => return some (← numberExpr e)
termination_by structural e => e

def numberExprs : List Expr → Numbering (List Expr)
  | [] => return []
  | e :: rest => do
    let e ← numberExpr e
    let rest ← numberExprs rest
    return e :: rest
termination_by structural es => es

def numberStmt : Stmt → Numbering Stmt
  | .expr e => return .expr (← numberExpr e)
  | .var decl => return .var (← numberVar decl)
  | .property decl => return .property (← numberProperty decl)
  | .function decl => return .function (← numberFunction decl)
  | .classDecl decl => return .classDecl (← numberClass decl)
  | .interfaceDecl decl => return .interfaceDecl (← numberInterface decl)
  | .enumDecl name elements => return .enumDecl name elements
  | .block body => return .block (← numberStmts body)
  | .ifElse condition yes no => do
    let condition ← numberExpr condition
    let yes ← numberStmt yes
    let no ← numberStmtOption no
    return .ifElse condition yes no
  | .whileLoop condition body increment perIteration => do
    let condition ← numberExpr condition
    let increment ← numberOption increment
    let body ← numberStmt body
    return .whileLoop condition body increment perIteration
  | .whenLoop condition body finish => do
    let condition ← numberExpr condition
    let body ← numberStmt body
    let finish ← numberStmtOption finish
    return .whenLoop condition body finish
  | .switch line value cases default => do
    let value ← numberExpr value
    let cases ← numberCases cases
    let default ← numberStmtOption default
    return .switch line value cases default
  | .tryCatch body name handler => do
    let body ← numberStmt body
    let handler ← numberStmts handler
    return .tryCatch body name handler
  | .test line name body => do
    let name ← numberExpr name
    let body ← numberStmt body
    return .test line name body
  | .expect line value => return .expect line (← numberExpr value)
  | .returning line value => return .returning line (← numberOption value)
  | .breaking line => return .breaking line
  | .continuing line => return .continuing line
  | .moduleName line name => return .moduleName line name
termination_by structural s => s

def numberStmtOption : Option Stmt → Numbering (Option Stmt)
  | none => return none
  | some s => return some (← numberStmt s)
termination_by structural s => s

def numberStmts : List Stmt → Numbering (List Stmt)
  | [] => return []
  | s :: rest => do
    let s ← numberStmt s
    let rest ← numberStmts rest
    return s :: rest
termination_by structural ss => ss

def numberCases : List (Expr × Stmt) → Numbering (List (Expr × Stmt))
  | [] => return []
  | (candidate, body) :: rest => do
    let candidate ← numberExpr candidate
    let body ← numberStmt body
    let rest ← numberCases rest
    return (candidate, body) :: rest
termination_by structural cases => cases

def numberVar : VarDecl → Numbering VarDecl
  | ⟨name, modifiers, declared, initializer⟩ => do
    let initializer ← numberOption initializer
    return ⟨name, modifiers, declared, initializer⟩
termination_by structural decl => decl

def numberFunction : FunctionDecl → Numbering FunctionDecl
  | ⟨name, params, returns, modifiers, body⟩ => do
    let body ← numberBody body
    return ⟨name, params, returns, modifiers, body⟩
termination_by structural decl => decl

def numberBody : Option (List Stmt) → Numbering (Option (List Stmt))
  | none => return none
  | some body => return some (← numberStmts body)
termination_by structural body => body

def numberFunctionOption : Option FunctionDecl → Numbering (Option FunctionDecl)
  | none => return none
  | some decl => return some (← numberFunction decl)
termination_by structural decl => decl

def numberFunctions : List FunctionDecl → Numbering (List FunctionDecl)
  | [] => return []
  | decl :: rest => do
    let decl ← numberFunction decl
    let rest ← numberFunctions rest
    return decl :: rest
termination_by structural decls => decls

def numberProperty : PropertyDecl → Numbering PropertyDecl
  | ⟨name, modifiers, declared, getter, setter⟩ => do
    let getter ← numberFunction getter
    let setter ← numberFunctionOption setter
    return ⟨name, modifiers, declared, getter, setter⟩
termination_by structural decl => decl

def numberFields : List Field → Numbering (List Field)
  | [] => return []
  | .var decl :: rest => do
    let decl ← numberVar decl
    let rest ← numberFields rest
    return .var decl :: rest
  | .property decl :: rest => do
    let decl ← numberProperty decl
    let rest ← numberFields rest
    return .property decl :: rest
termination_by structural fields => fields

/-- The variables among the fields of an interface, in order, each in the place of its field. -/
def numberInterfaceVars : List Field → Numbering (List (Option VarDecl))
  | [] => return []
  | .var decl :: rest => do
    let decl ← numberVar decl
    let rest ← numberInterfaceVars rest
    return some decl :: rest
  | .property _ :: rest => do
    let rest ← numberInterfaceVars rest
    return none :: rest
termination_by structural fields => fields

/-- The properties among the fields of an interface, put back between its variables. -/
def numberInterfaceProperties : List Field → List (Option VarDecl) → Numbering (List Field)
  | .property decl :: rest, _ :: vars => do
    let decl ← numberProperty decl
    let rest ← numberInterfaceProperties rest vars
    return .property decl :: rest
  | .var _ :: rest, some decl :: vars => do
    let rest ← numberInterfaceProperties rest vars
    return .var decl :: rest
  | _, _ => return []
termination_by structural fields => fields

def numberClass : ClassDecl → Numbering ClassDecl
  | ⟨name, superclass, interfaces, templates, fields, methods⟩ => do
    let superclass ← numberRefOption superclass
    let interfaces ← numberRefs interfaces
    let fields ← numberFields fields
    let methods ← numberFunctions methods
    return ⟨name, superclass, interfaces, templates, fields, methods⟩
termination_by structural decl => decl

/-- The variables of an interface are resolved before everything else in it. -/
def numberInterface : InterfaceDecl → Numbering InterfaceDecl
  | ⟨name, fields, methods⟩ => do
    let vars ← numberInterfaceVars fields
    let fields ← numberInterfaceProperties fields vars
    let methods ← numberFunctions methods
    return ⟨name, fields, methods⟩
termination_by structural decl => decl

end

end Treewalk.Scoping
