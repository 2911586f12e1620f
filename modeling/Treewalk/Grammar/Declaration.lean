import Treewalk.Grammar.Expression

/-!
Declarations: variables, properties, functions, classes, interfaces and enumerations.
-/

namespace Treewalk.Grammar

open Treewalk.Grammar.Parser

def varRest (r : Rules) (name : Name) (given : Modifiers) (declared : Option TypeDesc) :
    Parser VarDecl := do
  let initializer ← optional .equal r.expression
  let _ ← require .semicolon "';' after variable declaration"
  return ⟨name, given, declared, initializer⟩

def varDeclaration (r : Rules) (given : Modifiers) : Parser VarDecl := do
  let name ← require .identifier "variable name"
  varRest r name.name given none

structure Accessors where
  getter : Option FunctionDecl := none
  setter : Option FunctionDecl := none

/-- An accessor is a function of one parameter, the value that it is handed. -/
def accessorDecl (name : Name) (given : Modifiers) (body : List Stmt) : FunctionDecl :=
  {
    name := name
    params := [{ name := ⟨"value", name.line⟩ }]
    returns := .any
    modifiers := given
    body := some body
  }

def Accessors.add (accessors : Accessors) (decl : FunctionDecl) : Parser Accessors := do
  match decl.name.text, accessors with
  | "get", ⟨none, setter⟩ => return ⟨some decl, setter⟩
  | "set", ⟨getter, none⟩ => return ⟨getter, some decl⟩
  | "get", _ | "set", _ =>
    reportAt decl.name .accessorDefined
    return accessors
  | _, _ =>
    reportAt decl.name (.expected "'get' or 'set'")
    return accessors

def accessorsFrom (r : Rules) (given : Modifiers) (accessors : Accessors) : Budget → Parser Accessors
  | [] => giveUp
  | _ :: fuel => do
    match ← peekKind with
    | none | some .rightBrace => return accessors
    | _ =>
      let name ← require .identifier "'get' or 'set'"
      let _ ← require .leftBrace "'\x7b' before accessor body"
      let body ← block r
      accessorsFrom r given (← accessors.add (accessorDecl name.name given body)) fuel

/-- The accessors of a property; the opening brace is already taken. -/
def propertyRest (r : Rules) (name : Name) (given : Modifiers) (declared : TypeDesc) :
    Parser PropertyDecl := do
  let accessors ← accessorsFrom r given {} (← budget)
  let _ ← require .rightBrace "'\x7d' after property accessors"
  match accessors.getter with
  | some getter => return ⟨name, given, declared, getter, accessors.setter⟩
  | none =>
    reportAt name .getterMissing
    giveUp

def typedDeclaration (r : Rules) (given : Modifiers) (declared : TypeDesc) : Parser Field := do
  let name ← require .identifier "name after type"
  if ← accepts .leftBrace then
    return .property (← propertyRest r name.name given declared)
  else
    return .var (← varRest r name.name given (some declared))

inductive Member where
  | field (decl : Field)
  | method (decl : FunctionDecl)

def Member.field? : Member → Option Field
  | .field decl => some decl
  | .method _ => none

def Member.method? : Member → Option FunctionDecl
  | .field _ => none
  | .method decl => some decl

def member (r : Rules) (kind : String) : Parser Member := do
  let given ← modifiers
  if ← accepts .kwMethod then
    return .method (← function r "method" given)
  else if ← accepts .kwVar then
    return .field (.var (← varDeclaration r given))
  else match ← writtenType? with
    | some (declared, range) =>
      return .field (← typedDeclaration r (given.union range) declared)
    | none =>
      if given ≠ .none ∧ (← peekKind) = some .identifier then
        return .field (.var (← varDeclaration r given))
      else
        fail (.expected s!"method or field in {kind} body")

/-- The members of a class or interface; the opening brace is already taken. -/
def members (r : Rules) (kind : String) : Parser (List Member) := do
  let items ← untilBrace (member r kind) (← budget)
  let _ ← require .rightBrace s!"'\x7d' after {kind} body"
  return items

def reference (what : String) : Parser Reference := do
  return { name := (← require .identifier what).name }

def templates : Parser (List Name) := do
  if ← accepts .colon then
    let _ ← require .less "'<' before template names"
    let names ← commaSeparated (Token.name <$> require .identifier "template name") (← budget)
    let _ ← require .greater "'>' after template names"
    return names
  else
    return []

def classDeclaration (r : Rules) : Parser ClassDecl := do
  let name ← require .identifier "class name"
  let superclass ← optional .leftArrow (reference "superclass name")
  let interfaces ← optional .arrow do
    commaSeparated (reference "interface name") (← budget)
  let names ← templates
  let _ ← require .leftBrace "'\x7b' before class body"
  let items ← members r "class"
  return ⟨name.name, superclass, interfaces.getD [], names, items.filterMap Member.field?,
    items.filterMap Member.method?⟩

def interfaceDeclaration (r : Rules) : Parser InterfaceDecl := do
  let name ← require .identifier "interface name"
  let _ ← require .leftBrace "'\x7b' before interface body"
  let items ← members r "interface"
  return ⟨name.name, items.filterMap Member.field?, items.filterMap Member.method?⟩

/-- Names up to a closing brace, with commas between them and perhaps one at the end. -/
def enumElements : Budget → Parser (List Name)
  | [] => giveUp
  | _ :: fuel => do
    match ← peekKind with
    | some .rightBrace => return []
    | _ =>
      let name ← require .identifier "enum element name"
      if ← accepts .comma then
        return name.name :: (← enumElements fuel)
      else
        return [name.name]

def enumDeclaration : Parser Stmt := do
  let name ← require .identifier "enum name"
  let _ ← require .leftBrace "'\x7b' before enum body"
  let elements ← enumElements (← budget)
  let _ ← require .rightBrace "'\x7d' after enum elements"
  return .enumDecl name.name elements

def Field.stmt : Field → Stmt
  | .var decl => .var decl
  | .property decl => .property decl

end Treewalk.Grammar
