import Treewalk.References
import Treewalk.Scoping.Scopes

/-!
The resolver. It goes through a program, keeps account of what surrounds the place where it is, and writes into a
table how many scopes out the name of each reference is bound. A mistake abandons the top-level statement in
which it stands, and with it the account; what has been written stays.
-/

namespace Treewalk.Scoping

/-- The distances of references, by their ids. A reference that is not in it denotes a global. -/
abbrev Locals := List (Nat × Nat)

end Scoping

/-- The reference with the distance that the table has for it. -/
def Reference.link (locals : Scoping.Locals) (ref : Reference) : Reference :=
  { ref with depth := locals.lookup ref.id }

namespace Scoping

/-- How many loops, switches and tests are around a place within its function. -/
structure Surroundings where
  loops : Nat := 0
  switches : Nat := 0
  tests : Nat := 0
  deriving DecidableEq, Repr

structure Resolver where
  scopes : Scopes := {}
  function : FunctionRole := .none
  owner : ClassRole := .none
  around : Surroundings := {}
  locals : Locals := []

abbrev Record := EStateM ScopeError Resolver

def onScopes (c : Resolve α) : Record α := fun r =>
  match c r.scopes with
  | .ok a scopes => .ok a { r with scopes := scopes }
  | .error e scopes => .error e { r with scopes := scopes }

/-- Goes through `body` with one more scope, which holds the given names. -/
def withScope (names : List String) (body : Record Unit) : Record Unit := do
  let frame := names.foldl (fun frame name => frame.insert name true) NameMap.empty
  modify fun r => { r with scopes := { r.scopes with frames := frame :: r.scopes.frames } }
  body
  modify fun r => { r with scopes := { r.scopes with frames := r.scopes.frames.tail } }

def setOwner (owner : ClassRole) : Record Unit :=
  modify fun r => { r with owner := owner }

/-- Goes through a class and back to what is around it. -/
def asOwner (owner : ClassRole) (body : Record Unit) : Record Unit := do
  let enclosing := (← get).owner
  setOwner owner
  body
  setOwner enclosing

/-- Goes through a function, which starts with nothing around it, and back to what is around the function. -/
def asFunction (role : FunctionRole) (body : Record Unit) : Record Unit := do
  let enclosing ← get
  modify fun r => { r with function := role, around := {} }
  body
  modify fun r => { r with function := enclosing.function, around := enclosing.around }

def withLoop (body : Record Unit) : Record Unit := do
  modify fun r => { r with around := { r.around with loops := r.around.loops + 1 } }
  body
  modify fun r => { r with around := { r.around with loops := r.around.loops - 1 } }

def withSwitch (body : Record Unit) : Record Unit := do
  modify fun r => { r with around := { r.around with switches := r.around.switches + 1 } }
  body
  modify fun r => { r with around := { r.around with switches := r.around.switches - 1 } }

def withTest (body : Record Unit) : Record Unit := do
  modify fun r => { r with around := { r.around with tests := r.around.tests + 1 } }
  body
  modify fun r => { r with around := { r.around with tests := r.around.tests - 1 } }

def refuse (m : Mistake) (place : Name) : Record α :=
  throw ⟨m, place⟩

/-- Writes down the distance of a reference, if some scope binds its name. -/
def recordLocal (ref : Reference) : Record Bool := do
  let r ← get
  match depthOf r.scopes.frames ref.name.text with
  | some depth =>
    set { r with locals := (ref.id, depth) :: r.locals }
    return true
  | none => return false

def recordBound (ref : Reference) (otherwise : Mistake) : Record Unit := do
  if ← recordLocal ref then
    return ()
  else
    refuse otherwise ref.name

/-- A variable must not be read while it is being initialized. -/
def recordUse (ref : Reference) : Record Unit := do
  let r ← get
  if (r.scopes.frames.head?.bind (·.find? ref.name.text)) = some false then
    refuse .readInOwnInitializer ref.name
  else
    let _ ← recordLocal ref

def recordUses : List Reference → Record Unit
  | [] => return ()
  | ref :: rest => do
    recordUse ref
    recordUses rest

def recordThis (ref : Reference) : Record Unit := do
  if (← get).owner = .none then
    refuse .thisOutsideClass ref.name
  else
    recordBound ref .thisOutsideMethod

def recordValue (ref : Reference) : Record Unit := do
  if (← get).function = .accessor then
    recordBound ref .valueHere
  else
    refuse .valueOutsideAccessor ref.name

def recordSuper (ref : Reference) : Record Unit := do
  match (← get).owner with
  | .none => refuse .superOutsideClass ref.name
  | .interface => refuse .superInInterface ref.name
  | .base => refuse .superWithoutSuperclass ref.name
  | .derived => recordBound ref .superHere

def recordSuperclass (name : Name) : Option Reference → Record Unit
  | none => return ()
  | some ref =>
    if ref.name.text = name.text then
      refuse .inheritsItself ref.name
    else do
      setOwner .derived
      recordUse ref

def checkReturn (line : Line) (hasValue : Bool) : Record Unit := do
  let r ← get
  if r.function = .none then
    refuse .returnAtTopLevel ⟨"return", line⟩
  else if hasValue ∧ r.function = .constructor then
    refuse .returnFromConstructor ⟨"return", line⟩
  else
    return ()

mutual

def recordExpr : Expr → Record Unit
  | .literal _ | .type .. => return ()
  | .group e | .unary _ _ e | .get e _ _ | .staticGet e _ | .sizedArray _ _ e | .length _ e | .typeOf _ e =>
    recordExpr e
  | .binary _ _ left right | .logical _ _ left right | .index left _ right | .cast left _ right => do
    recordExpr left
    recordExpr right
  | .ternary _ condition yes no => do
    recordExpr condition
    recordExpr yes
    recordExpr no
  | .use ref => recordUse ref
  | .this ref => recordThis ref
  | .value ref => recordValue ref
  | .super ref _ => recordSuper ref
  | .assign ref _ value => do
    recordOption value
    let _ ← recordLocal ref
  | .call callee _ args generics _ => do
    recordExpr callee
    recordExprs args
    recordExprs generics
  | .set object _ _ value | .staticSet object _ _ value => do
    recordExpr object
    recordOption value
  | .indexSet object _ position _ value => do
    recordExpr object
    recordExpr position
    recordOption value
  | .array _ _ elements => recordExprs elements
  | .lambda decl => recordFunction .function decl
termination_by structural e => e

def recordOption : Option Expr → Record Unit
  | none => return ()
  | some e => recordExpr e
termination_by structural e => e

def recordExprs : List Expr → Record Unit
  | [] => return ()
  | e :: rest => do
    recordExpr e
    recordExprs rest
termination_by structural es => es

def recordStmt : Stmt → Record Unit
  | .expr e => recordExpr e
  | .var decl => recordVar decl
  | .property decl => do
    onScopes (declareDefined decl.name)
    recordProperty decl
  | .function decl => do
    onScopes (declareDefined decl.name)
    recordFunction .function decl
  | .classDecl decl => recordClass decl
  | .interfaceDecl decl => recordInterface decl
  | .enumDecl name _ => onScopes (declareDefined name)
  | .block body => withScope [] (recordStmts body)
  | .ifElse condition yes no => do
    recordExpr condition
    recordStmt yes
    recordStmtOption no
  | .whileLoop condition body increment perIteration => do
    recordExpr condition
    recordOption increment
    match perIteration with
    | [] => withLoop (recordStmt body)
    | names => withScope [] do
      onScopes (declareAll names)
      withLoop (recordStmt body)
  | .whenLoop condition body finish => do
    recordExpr condition
    withLoop (recordStmt body)
    recordStmtOption finish
  | .switch _ value cases default => do
    recordExpr value
    withSwitch do
      recordCases cases
      recordStmtOption default
  | .tryCatch body name handler => do
    recordStmt body
    withScope [] do
      onScopes (declareAll name.toList)
      recordStmts handler
  | .test _ name body => do
    recordExpr name
    withTest (recordStmt body)
  | .expect line value => do
    if (← get).around.tests = 0 then
      refuse .expectOutsideTest ⟨"expect", line⟩
    else
      recordExpr value
  | .returning line value => do
    checkReturn line value.isSome
    recordOption value
  | .breaking line => do
    let around := (← get).around
    if around.loops = 0 ∧ around.switches = 0 then
      refuse .breakOutside ⟨"break", line⟩
    else
      return ()
  | .continuing line => do
    if (← get).around.loops = 0 then
      refuse .continueOutside ⟨"continue", line⟩
    else
      return ()
  | .moduleName _ name => do
    let r ← get
    match r.scopes.moduleName with
    | some existing => refuse (.moduleDeclared existing) name
    | none => set { r with scopes := { r.scopes with moduleName := some name.text } }
termination_by structural s => s

def recordStmtOption : Option Stmt → Record Unit
  | none => return ()
  | some s => recordStmt s
termination_by structural s => s

def recordStmts : List Stmt → Record Unit
  | [] => return ()
  | s :: rest => do
    recordStmt s
    recordStmts rest
termination_by structural ss => ss

def recordCases : List (Expr × Stmt) → Record Unit
  | [] => return ()
  | (candidate, body) :: rest => do
    recordExpr candidate
    recordStmt body
    recordCases rest
termination_by structural cases => cases

/-- A variable is declared before its initializer is resolved and readable only afterwards. -/
def recordVar : VarDecl → Record Unit
  | ⟨name, _, _, initializer⟩ => do
    onScopes (declare name)
    recordOption initializer
    onScopes (define name)
termination_by structural decl => decl

/-- A field is no variable of the scope of its class. -/
def recordFieldVar : VarDecl → Record Unit
  | ⟨_, _, _, initializer⟩ => recordOption initializer
termination_by structural decl => decl

/-- Parameters and body share one scope, around which there is no loop, switch or test. -/
def recordFunction (role : FunctionRole) : FunctionDecl → Record Unit
  | ⟨_, params, _, _, body⟩ => recordBody role (params.map Param.name) body
termination_by structural decl => decl

def recordBody (role : FunctionRole) (params : List Name) : Option (List Stmt) → Record Unit
  | none => return ()
  | some body => asFunction role (withScope [] do
    onScopes (declareAll params)
    recordStmts body)
termination_by structural body => body

def recordFunctionOption (role : FunctionRole) : Option FunctionDecl → Record Unit
  | none => return ()
  | some decl => recordFunction role decl
termination_by structural decl => decl

def recordMethods (role : Name → FunctionRole) : List FunctionDecl → Record Unit
  | [] => return ()
  | decl :: rest => do
    recordFunction (role decl.name) decl
    recordMethods role rest
termination_by structural decls => decls

def recordProperty : PropertyDecl → Record Unit
  | ⟨_, _, _, getter, setter⟩ => do
    recordFunction .accessor getter
    recordFunctionOption .accessor setter
termination_by structural decl => decl

/-- Fields of a class, in order; an accessor has `this` in a scope of its own. -/
def recordFields : List Field → Record Unit
  | [] => return ()
  | .var decl :: rest => do
    recordFieldVar decl
    recordFields rest
  | .property decl :: rest => do
    withScope ["this"] (recordProperty decl)
    recordFields rest
termination_by structural fields => fields

def recordInterfaceVars : List Field → Record Unit
  | [] => return ()
  | .var decl :: rest => do
    recordFieldVar decl
    recordInterfaceVars rest
  | .property _ :: rest => recordInterfaceVars rest
termination_by structural fields => fields

def recordInterfaceProperties : List Field → Record Unit
  | [] => return ()
  | .var _ :: rest => recordInterfaceProperties rest
  | .property decl :: rest => do
    recordProperty decl
    recordInterfaceProperties rest
termination_by structural fields => fields

/-- The scope of a class holds `super` and the template names; its methods have `this` in one more
scope. -/
def recordClass : ClassDecl → Record Unit
  | ⟨name, superclass, interfaces, templates, fields, methods⟩ => asOwner .base do
    onScopes (declareDefined name)
    recordSuperclass name superclass
    recordUses interfaces
    withScope ["super"] do
      onScopes (declareAll templates)
      recordFields fields
      withScope ["this"] (recordMethods methodRole methods)
termination_by structural decl => decl

/-- The variables of an interface are resolved outside its scope, before everything else in it. -/
def recordInterface : InterfaceDecl → Record Unit
  | ⟨name, fields, methods⟩ => asOwner .interface do
    onScopes (declareDefined name)
    recordInterfaceVars fields
    withScope ["this"] do
      recordInterfaceProperties fields
      recordMethods (fun _ => .method) methods
termination_by structural decl => decl

end

/-- The resolver after a mistake. It forgets where it was, but not the name of the module. -/
def Resolver.recovered (r : Resolver) : Resolver :=
  { scopes := { moduleName := r.scopes.moduleName }, locals := r.locals }

/-- Resolves the statements of a program one after another, and collects the mistakes. -/
def record : List Stmt → Resolver → List ScopeError × Resolver
  | [], r => ([], r)
  | s :: rest, r =>
    match recordStmt s r with
    | .ok _ after => record rest after
    | .error e after =>
      let (errors, last) := record rest after.recovered
      (e :: errors, last)

end Treewalk.Scoping
