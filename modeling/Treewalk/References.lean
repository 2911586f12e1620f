import Treewalk.Tree

/-!
The references of a tree, all changed in the same way. The tree keeps its form.
-/

namespace Treewalk

section

variable (f : Reference → Reference)

mutual

def Expr.relabel : Expr → Expr
  | .literal value => .literal value
  | .group inner => .group inner.relabel
  | .unary op line operand => .unary op line operand.relabel
  | .binary op line left right => .binary op line left.relabel right.relabel
  | .logical op line left right => .logical op line left.relabel right.relabel
  | .ternary line condition yes no => .ternary line condition.relabel yes.relabel no.relabel
  | .use ref => .use (f ref)
  | .this ref => .this (f ref)
  | .value ref => .value (f ref)
  | .super ref method => .super (f ref) method
  | .assign ref site value => .assign (f ref) site (Expr.relabelOption value)
  | .call callee line args generics nullSafe =>
    .call callee.relabel line (Expr.relabelAll args) (Expr.relabelAll generics) nullSafe
  | .get object name nullSafe => .get object.relabel name nullSafe
  | .staticGet object name => .staticGet object.relabel name
  | .set object name site value => .set object.relabel name site (Expr.relabelOption value)
  | .staticSet object name site value => .staticSet object.relabel name site (Expr.relabelOption value)
  | .index object line position => .index object.relabel line position.relabel
  | .indexSet object line position site value =>
    .indexSet object.relabel line position.relabel site (Expr.relabelOption value)
  | .cast operand line target => .cast operand.relabel line target.relabel
  | .array line elementType elements => .array line elementType (Expr.relabelAll elements)
  | .sizedArray line elementType size => .sizedArray line elementType size.relabel
  | .lambda decl => .lambda decl.relabel
  | .type line desc => .type line desc
  | .length line operand => .length line operand.relabel
  | .typeOf line operand => .typeOf line operand.relabel
termination_by structural e => e

def Expr.relabelOption : Option Expr → Option Expr
  | none => none
  | some e => some e.relabel
termination_by structural e => e

def Expr.relabelAll : List Expr → List Expr
  | [] => []
  | e :: rest => e.relabel :: Expr.relabelAll rest
termination_by structural es => es

def Stmt.relabel : Stmt → Stmt
  | .expr e => .expr e.relabel
  | .var decl => .var decl.relabel
  | .property decl => .property decl.relabel
  | .function decl => .function decl.relabel
  | .classDecl decl => .classDecl decl.relabel
  | .interfaceDecl decl => .interfaceDecl decl.relabel
  | .enumDecl name elements => .enumDecl name elements
  | .block body => .block (Stmt.relabelAll body)
  | .ifElse condition yes no => .ifElse condition.relabel yes.relabel (Stmt.relabelOption no)
  | .whileLoop condition body increment perIteration =>
    .whileLoop condition.relabel body.relabel (Expr.relabelOption increment) perIteration
  | .whenLoop condition body finish => .whenLoop condition.relabel body.relabel (Stmt.relabelOption finish)
  | .switch line value cases default =>
    .switch line value.relabel (Stmt.relabelCases cases) (Stmt.relabelOption default)
  | .tryCatch body name handler => .tryCatch body.relabel name (Stmt.relabelAll handler)
  | .test line name body => .test line name.relabel body.relabel
  | .expect line value => .expect line value.relabel
  | .returning line value => .returning line (Expr.relabelOption value)
  | .breaking line => .breaking line
  | .continuing line => .continuing line
  | .moduleName line name => .moduleName line name
termination_by structural s => s

def Stmt.relabelOption : Option Stmt → Option Stmt
  | none => none
  | some s => some s.relabel
termination_by structural s => s

def Stmt.relabelAll : List Stmt → List Stmt
  | [] => []
  | s :: rest => s.relabel :: Stmt.relabelAll rest
termination_by structural ss => ss

def Stmt.relabelCases : List (Expr × Stmt) → List (Expr × Stmt)
  | [] => []
  | (candidate, body) :: rest => (candidate.relabel, body.relabel) :: Stmt.relabelCases rest
termination_by structural cases => cases

def Stmt.relabelBody : Option (List Stmt) → Option (List Stmt)
  | none => none
  | some body => some (Stmt.relabelAll body)
termination_by structural body => body

def VarDecl.relabel : VarDecl → VarDecl
  | ⟨name, modifiers, declared, initializer⟩ => ⟨name, modifiers, declared, Expr.relabelOption initializer⟩
termination_by structural decl => decl

def FunctionDecl.relabel : FunctionDecl → FunctionDecl
  | ⟨name, params, returns, modifiers, body⟩ => ⟨name, params, returns, modifiers, Stmt.relabelBody body⟩
termination_by structural decl => decl

def FunctionDecl.relabelOption : Option FunctionDecl → Option FunctionDecl
  | none => none
  | some decl => some decl.relabel
termination_by structural decl => decl

def FunctionDecl.relabelAll : List FunctionDecl → List FunctionDecl
  | [] => []
  | decl :: rest => decl.relabel :: FunctionDecl.relabelAll rest
termination_by structural decls => decls

def PropertyDecl.relabel : PropertyDecl → PropertyDecl
  | ⟨name, modifiers, declared, getter, setter⟩ =>
    ⟨name, modifiers, declared, getter.relabel, FunctionDecl.relabelOption setter⟩
termination_by structural decl => decl

def Field.relabel : Field → Field
  | .var decl => .var decl.relabel
  | .property decl => .property decl.relabel
termination_by structural field => field

def Field.relabelAll : List Field → List Field
  | [] => []
  | field :: rest => field.relabel :: Field.relabelAll rest
termination_by structural fields => fields

def ClassDecl.relabel : ClassDecl → ClassDecl
  | ⟨name, superclass, interfaces, templates, fields, methods⟩ =>
    ⟨name, superclass.map f, interfaces.map f, templates, Field.relabelAll fields,
      FunctionDecl.relabelAll methods⟩
termination_by structural decl => decl

def InterfaceDecl.relabel : InterfaceDecl → InterfaceDecl
  | ⟨name, fields, methods⟩ => ⟨name, Field.relabelAll fields, FunctionDecl.relabelAll methods⟩
termination_by structural decl => decl

end

end

end Treewalk
