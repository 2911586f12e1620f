import Treewalk.Eval.Expr

/-!
Declarations. A class is complete before it enters the heap: its methods are collected, bodies that it
leaves out are taken from its interfaces, its fields are evaluated in its scope, and only then is it
checked against its interfaces.
-/

namespace Treewalk

def Ref.objectClass : Ref .cls := ⟨0⟩

namespace Evaluator

open Run

/-- Binds a name in the current scope. Nothing static can be bound in the global one. -/
def defineChecked (name : Name) (cell : Cell) : Run Unit := do
  let global ← inGlobalScope
  demand (!(cell.modifiers.static && global)) name.line (.staticGlobal name.text)
  let scope ← currentScope
  update (·.define scope name.text cell)

/-- The value of an initializer, checked against the type and the modifiers of what it initializes.
Without an initializer the value is nil, and nothing is checked. -/
def initialValue (decl : VarDecl) (scope : Ref .scope) :
    Run (Value × Option TypeDesc) := do
  let value ← option decl.initializer
  let h ← heap
  let declared := decl.declared.map fun t => h.resolveType t scope
  match value with
  | none => return (.nil, declared)
  | some value =>
    orRaise decl.name.line (h.checkType declared decl.name.text value)
    orRaise decl.name.line (Heap.checkRange decl.modifiers decl.name.text value)
    return (value, declared)

def declareVariable (decl : VarDecl) : Run Unit := do
  let (value, declared) ← initialValue decl (← currentScope)
  defineChecked decl.name
    { content := .plain value, modifiers := decl.modifiers, declared := declared }

def declaredProperty (decl : PropertyDecl) (closure : Ref .scope) (declared : TypeDesc) :
    Run Property := do
  let getter ← allocate (·.addFunction (.ofDecl decl.getter closure false))
  let setter ← decl.setter.mapM fun f => allocate (·.addFunction (.ofDecl f closure false))
  return {
    name := decl.name.text
    getter := getter
    setter := setter
    modifiers := decl.modifiers
    declared := some declared
    cache := .nil
  }

/-- The cell of a property whose type is resolved where it is declared. -/
def resolvedPropertyCell (decl : PropertyDecl) (closure : Ref .scope) : Run Cell := do
  let declared ← reading (·.resolveType decl.declared closure)
  propertyCell (← declaredProperty decl closure declared)

def declareProperty (decl : PropertyDecl) : Run Unit := do
  let cell ← resolvedPropertyCell decl (← currentScope)
  defineChecked decl.name cell

/-- A function closes over the scope that it is declared in. -/
def declareFunction (decl : FunctionDecl) : Run Unit := do
  let closure ← currentScope
  let f ← allocate (·.addFunction (.ofDecl decl closure false))
  defineChecked decl.name { content := .plain (.function f), modifiers := decl.modifiers }

def declareEnum (name : Name) (elements : List Name) : Run Unit := do
  let e ← allocate (·.addEnumeration ⟨name.text, elements.map Name.text⟩)
  let scope ← currentScope
  update (·.define scope name.text
    { content := .plain (.enumeration e), modifiers := { const := true } })

/-- An operator method takes two parameters and a cast method none. -/
def checkShape (className : String) (f : Function) : Except Fault Unit :=
  if f.modifiers.operator && f.arity ≠ 2 then .error (.operatorArity className f.name)
  else if f.modifiers.cast && f.arity ≠ 0 then .error (.castArity className f.name)
  else .ok ()

def declaredMethod (className : String) (scope : Ref .scope) (interfaces : List (Ref .interface))
    (decl : FunctionDecl) : Run (Ref .function) := do
  let f := Function.ofDecl decl scope (decl.name.text = constructorName)
  orRaise decl.name.line (checkShape className f)
  if f.hasBody then
    allocate (·.addFunction f)
  else
    let h ← heap
    match interfaces.findSome? (h.defaultFor? f) with
    | some supplied => return supplied
    | none => raise decl.name.line (.bodyMissing className f.name)

def declaredMethods (className : String) (scope : Ref .scope) (interfaces : List (Ref .interface)) :
    List FunctionDecl → NameMap (Ref .function) → Run (NameMap (Ref .function))
  | [], methods => return methods
  | decl :: rest, methods => do
    let method ← declaredMethod className scope interfaces decl
    declaredMethods className scope interfaces rest (methods.insert decl.name.text method)

/-- Adds the methods with a body of the interfaces, where neither the class nor a superclass has a method
of that name. -/
def addDefaults (h : Heap) (superclass : Ref .cls) (interfaces : List (Ref .interface))
    (methods : NameMap (Ref .function)) : NameMap (Ref .function) :=
  (interfaces.flatMap h.defaults).foldl (fun methods (name, f) =>
    if methods.contains name || (h.findMethod? superclass name).isSome then methods
    else methods.insert name f) methods

def fieldProperty (scope : Ref .scope) (decl : PropertyDecl) : Run Cell := do
  if decl.modifiers.static then
    resolvedPropertyCell decl scope
  else
    propertyCell (← declaredProperty decl scope decl.declared)

/-- The cell of a field. A static field has its type resolved now, and a field of instances when an
instance is made. -/
def fieldCell (scope : Ref .scope) : Field → Run (String × Cell)
  | .var decl => do
    let (value, resolved) ← initialValue decl scope
    let declared := if decl.modifiers.static then resolved else decl.declared
    return (decl.name.text,
      { content := .plain value, modifiers := decl.modifiers, declared := declared })
  | .property decl => return (decl.name.text, ← fieldProperty scope decl)

def fieldCells (scope : Ref .scope) :
    List Field → NameMap Cell → Run (NameMap Cell)
  | [], cells => return cells
  | field :: rest, cells => do
    let (name, cell) ← fieldCell scope field
    fieldCells scope rest (cells.insert name cell)

/-- The cell of a field in its class. A static property sees the class itself as `this`. -/
def bindStatic (receiver : Value) (cell : Cell) : Run Cell :=
  match cell.content with
  | .plain _ => return cell
  | .computed p => do
    if cell.modifiers.static then
      let bound ← bindProperty (← reading (·.property p)) receiver
      propertyCell bound
    else
      return cell

def bindStatics (receiver : Value) : List (String × Cell) → Run (List (String × Cell))
  | [] => return []
  | (name, cell) :: rest => do
    let cell ← bindStatic receiver cell
    return (name, cell) :: (← bindStatics receiver rest)

def evalSuperclass (decl : ClassDecl) : Run (Ref .cls) := do
  match decl.superclass with
  | none => return .objectClass
  | some ref =>
    match ← eval (.use ref) with
    | .cls c =>
      demand (c ≠ .objectClass) decl.name.line .inheritsObject
      return c
    | _ => raise decl.name.line .superclassNotClass

def evalInterfaces (name : Name) : List Reference → Run (List (Ref .interface))
  | [] => return []
  | ref :: rest => do
    match ← eval (.use ref) with
    | .interface i => return i :: (← evalInterfaces name rest)
    | value => raise name.line (.notAnInterface name.text ((← heap).text value))

def classNames (superclass : Ref .cls) (templates : List Name) : NameMap Cell :=
  bindTemplates (NameMap.empty.insert "super" (Cell.ofValue (.cls superclass)))
    (templates.map Name.text) (templates.map fun _ => .any)

/-- Puts a finished class into the heap. It gets its fields when it has its place there, so that its
static properties can be bound to it. -/
def addClass (cls : Class) : Run (Ref .cls) := do
  let c ← allocate (·.addClass { cls with fields := .empty })
  let fields ← bindStatics (.cls c) cls.fields.entries
  update (·.setClassFields c ⟨fields⟩)
  return c

def declaredClass (decl : ClassDecl) (superclass : Ref .cls) (interfaces : List (Ref .interface))
    (scope : Ref .scope) : Run Class := do
  let declared ← declaredMethods decl.name.text scope interfaces decl.methods .empty
  let methods := addDefaults (← heap) superclass interfaces declared
  let fields ← inScope scope (fieldCells scope decl.fields .empty)
  let cls : Class := {
    name := decl.name.text
    superclass := some superclass
    methods := methods
    fields := fields
    scope := scope
    templates := decl.templates.map Name.text
    interfaces := interfaces
  }
  let h ← heap
  orRaise decl.name.line (interfaces.forM fun i => h.checkConformance cls (h.interface i))
  return cls

def declareClass (decl : ClassDecl) : Run Unit := do
  let superclass ← evalSuperclass decl
  let interfaces ← evalInterfaces decl.name decl.interfaces
  let outer ← currentScope
  update (·.define outer decl.name.text (Cell.ofValue .nil))
  let scope ← allocate
    (·.addScope { enclosing := some outer, names := classNames superclass decl.templates })
  let cls ← declaredClass decl superclass interfaces scope
  let c ← addClass cls
  update (·.define outer decl.name.text (Cell.ofValue (.cls c)))

def interfaceMethods (closure : Ref .scope) :
    List FunctionDecl → NameMap (Ref .function) → Run (NameMap (Ref .function))
  | [], methods => return methods
  | decl :: rest, methods => do
    let f ← allocate (·.addFunction (.ofDecl decl closure false))
    interfaceMethods closure rest (methods.insert decl.name.text f)

/-- The cell of a required field. Its initializer is evaluated and not checked. -/
def requiredCell (closure : Ref .scope) : Field → Run (String × Cell)
  | .var decl => do
    let value ← option decl.initializer
    return (decl.name.text,
      { content := .plain (value.getD .nil), modifiers := decl.modifiers, declared := decl.declared })
  | .property decl => return (decl.name.text, ← resolvedPropertyCell decl closure)

def requiredCells (closure : Ref .scope) :
    List Field → NameMap Cell → Run (NameMap Cell)
  | [], cells => return cells
  | field :: rest, cells => do
    let (name, cell) ← requiredCell closure field
    requiredCells closure rest (cells.insert name cell)

def declareInterface (decl : InterfaceDecl) : Run Unit := do
  let scope ← currentScope
  let methods ← interfaceMethods scope decl.methods .empty
  let fields ← requiredCells scope decl.fields .empty
  let i ← allocate (·.addInterface ⟨decl.name.text, methods, fields⟩)
  update (·.define scope decl.name.text (Cell.ofValue (.interface i)))

end Evaluator

end Treewalk
