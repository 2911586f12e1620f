import Treewalk.Source.Token
import Treewalk.Type.Descriptor
import Treewalk.Type.Modifiers

/-!
Programs as trees. A reference to a variable carries the number of scopes between the place where it
stands and the scope that binds it; a tree fresh from its source has none of these depths, and a
reference without one denotes a global.
-/

namespace Treewalk

inductive UnaryOp where
  | not
  | negate
  deriving DecidableEq, Repr, Inhabited

/-- The operators that a class can give a meaning of its own. -/
inductive Operator where
  | add | subtract | multiply | divide
  | equal | notEqual | less | lessEqual | greater | greaterEqual
  deriving DecidableEq, Repr, Inhabited

inductive BinaryOp where
  | operator (op : Operator)
  /-- The left operand unless it is nil, and then the right one. -/
  | orElse
  /-- Equality that is nil when an operand is. -/
  | nilEqual
  deriving DecidableEq, Repr, Inhabited

inductive LogicalOp where
  | and
  | or
  deriving DecidableEq, Repr, Inhabited

/-- How an assignment changes its target. The last two take no value. -/
inductive AssignOp where
  | set | add | subtract | multiply | divide | power | increment | decrement
  deriving DecidableEq, Repr, Inhabited

def AssignOp.takesValue : AssignOp → Bool
  | increment | decrement => false
  | _ => true

def UnaryOp.symbol : UnaryOp → String
  | not => "!"
  | negate => "-"

def Operator.symbol : Operator → String
  | add => "+"
  | subtract => "-"
  | multiply => "*"
  | divide => "/"
  | equal => "=="
  | notEqual => "!="
  | less => "<"
  | lessEqual => "<="
  | greater => ">"
  | greaterEqual => ">="

def BinaryOp.symbol : BinaryOp → String
  | operator op => op.symbol
  | orElse => "??"
  | nilEqual => "?="

def LogicalOp.symbol : LogicalOp → String
  | and => "and"
  | or => "or"

def AssignOp.symbol : AssignOp → String
  | set => "="
  | add => "+="
  | subtract => "-="
  | multiply => "*="
  | divide => "/="
  | power => "**="
  | increment => "++"
  | decrement => "--"

/-- A use of a variable, with the number of scopes out to its binding once that is known. Its id tells it apart
from all other references of a session. -/
structure Reference where
  name : Name
  depth : Option Nat := none
  id : Nat := 0
  deriving DecidableEq, Repr, Inhabited

/-- The reference is as the grammar leaves it, neither resolved nor numbered. -/
def Reference.Fresh (ref : Reference) : Prop :=
  ref.depth = none ∧ ref.id = 0

structure Param where
  name : Name
  declared : TypeDesc := .any
  modifiers : Modifiers := {}
  deriving DecidableEq, Repr, Inhabited

structure AssignSite where
  op : AssignOp
  line : Line
  deriving DecidableEq, Repr, Inhabited

mutual

inductive Expr where
  | literal (value : Literal)
  | group (inner : Expr)
  | unary (op : UnaryOp) (line : Line) (operand : Expr)
  | binary (op : BinaryOp) (line : Line) (left right : Expr)
  | logical (op : LogicalOp) (line : Line) (left right : Expr)
  | ternary (line : Line) (condition yes no : Expr)
  | use (ref : Reference)
  | this (ref : Reference)
  | value (ref : Reference)
  | super (ref : Reference) (method : Name)
  | assign (ref : Reference) (site : AssignSite) (value : Option Expr)
  | call (callee : Expr) (line : Line) (args generics : List Expr) (nullSafe : Bool)
  | get (object : Expr) (name : Name) (nullSafe : Bool)
  | staticGet (object : Expr) (name : Name)
  | set (object : Expr) (name : Name) (site : AssignSite) (value : Option Expr)
  | staticSet (object : Expr) (name : Name) (site : AssignSite) (value : Option Expr)
  | index (object : Expr) (line : Line) (position : Expr)
  | indexSet (object : Expr) (line : Line) (position : Expr) (site : AssignSite) (value : Option Expr)
  | cast (operand : Expr) (line : Line) (target : Expr)
  | array (line : Line) (elementType : Option TypeDesc) (elements : List Expr)
  | sizedArray (line : Line) (elementType : TypeDesc) (size : Expr)
  | lambda (decl : FunctionDecl)
  | type (line : Line) (desc : TypeDesc)
  | length (line : Line) (operand : Expr)
  | typeOf (line : Line) (operand : Expr)

inductive Stmt where
  | expr (e : Expr)
  | var (decl : VarDecl)
  | property (decl : PropertyDecl)
  | function (decl : FunctionDecl)
  | classDecl (decl : ClassDecl)
  | interfaceDecl (decl : InterfaceDecl)
  | enumDecl (name : Name) (elements : List Name)
  | block (body : List Stmt)
  | ifElse (condition : Expr) (yes : Stmt) (no : Option Stmt)
  | whileLoop (condition : Expr) (body : Stmt) (increment : Option Expr) (perIteration : List Name)
  | whenLoop (condition : Expr) (body : Stmt) (finish : Option Stmt)
  | switch (line : Line) (value : Expr) (cases : List (Expr × Stmt)) (default : Option Stmt)
  | tryCatch (body : Stmt) (name : Option Name) (handler : List Stmt)
  | test (line : Line) (name : Expr) (body : Stmt)
  | expect (line : Line) (value : Expr)
  | returning (line : Line) (value : Option Expr)
  | breaking (line : Line)
  | continuing (line : Line)
  | moduleName (line : Line) (name : Name)

structure VarDecl where
  name : Name
  modifiers : Modifiers
  declared : Option TypeDesc
  initializer : Option Expr

/-- A function without a body only announces its signature. -/
structure FunctionDecl where
  name : Name
  params : List Param
  returns : TypeDesc
  modifiers : Modifiers
  body : Option (List Stmt)

structure PropertyDecl where
  name : Name
  modifiers : Modifiers
  declared : TypeDesc
  getter : FunctionDecl
  setter : Option FunctionDecl

inductive Field where
  | var (decl : VarDecl)
  | property (decl : PropertyDecl)

structure ClassDecl where
  name : Name
  superclass : Option Reference
  interfaces : List Reference
  templates : List Name
  fields : List Field
  methods : List FunctionDecl

structure InterfaceDecl where
  name : Name
  fields : List Field
  methods : List FunctionDecl

end

instance : Inhabited Expr := ⟨.literal .nil⟩

instance : Inhabited Stmt := ⟨.block []⟩

/-- The name of the method that sets up a new instance. -/
def constructorName : String := "constructor"

end Treewalk
