import Treewalk.NameMap
import Treewalk.Tree

/-!
The static scopes around a place in a program, innermost first, and the mistakes in the use of names
and of statements that depend on where they stand. A name is bound in its scope before it may be read.
-/

namespace Treewalk.Scoping

inductive Mistake where
  | alreadyDeclared
  | readInOwnInitializer
  | inheritsItself
  | superOutsideClass
  | superInInterface
  | superWithoutSuperclass
  | superHere
  | thisOutsideClass
  | thisOutsideMethod
  | valueOutsideAccessor
  | valueHere
  | expectOutsideTest
  | returnAtTopLevel
  | returnFromConstructor
  | breakOutside
  | continueOutside
  | moduleDeclared (existing : String)
  deriving DecidableEq, Repr

def Mistake.message : Mistake → String
  | alreadyDeclared => "Already a variable with this name in this scope."
  | readInOwnInitializer => "Can't read local variable in its own initializer."
  | inheritsItself => "A class can't inherit from itself."
  | superOutsideClass => "Can't use 'super' outside of a class."
  | superInInterface => "Can't use 'super' in an interface."
  | superWithoutSuperclass => "Can't use 'super' in a class with no superclass."
  | superHere => "Can't use 'super' here."
  | thisOutsideClass => "Can't use 'this' outside of a class."
  | thisOutsideMethod => "Can't use 'this' outside of a method."
  | valueOutsideAccessor => "Can't use 'value' outside of a property accessor."
  | valueHere => "Can't use 'value' here."
  | expectOutsideTest => "Can't use 'expect' outside of a test."
  | returnAtTopLevel => "Can't return from top-level code."
  | returnFromConstructor => "Can't return a value from a constructor."
  | breakOutside => "Can't use 'break' outside of a loop or switch."
  | continueOutside => "Can't use 'continue' outside of a loop."
  | moduleDeclared existing => s!"Module '{existing}' is already declared for this file."

structure ScopeError where
  mistake : Mistake
  place : Name
  deriving DecidableEq, Repr

def ScopeError.text (e : ScopeError) : String :=
  s!"[line {e.place.line}] Error at '{e.place.text}': {e.mistake.message}"

inductive FunctionRole where
  | none | function | constructor | method | accessor
  deriving DecidableEq, Repr

inductive ClassRole where
  | none | base | derived | interface
  deriving DecidableEq, Repr

/-- A method of this name sets up instances. -/
def methodRole (name : Name) : FunctionRole :=
  if name.text = constructorName then .constructor else .method

/-- What surrounds a place. A function body starts with no loop, switch or test around it. -/
structure Context where
  function : FunctionRole := .none
  owner : ClassRole := .none
  inLoop : Bool := false
  inSwitch : Bool := false
  inTest : Bool := false
  deriving DecidableEq, Repr

def Context.inFunction (c : Context) (role : FunctionRole) : Context :=
  { function := role, owner := c.owner }

/-- The names of one scope, each with whether it may be read yet. -/
abbrev Frame := NameMap Bool

/-- The scopes around a place, innermost first; none of them is the global one. The name of the module
outlives every scope. -/
structure Scopes where
  frames : List Frame := []
  moduleName : Option String := none
  deriving Repr

abbrev Resolve := EStateM ScopeError Scopes

def mistake (m : Mistake) (place : Name) : Resolve α :=
  throw ⟨m, place⟩

/-- The number of scopes from the innermost one out to the one that binds the name. -/
def depthOf (frames : List Frame) (name : String) : Option Nat :=
  frames.findIdx? (·.contains name)

/-- Runs `body` with one more scope, which holds the given names. -/
def inScope (names : List String) (body : Resolve α) : Resolve α := do
  let frame := names.foldl (fun frame name => frame.insert name true) NameMap.empty
  modify fun s => { s with frames := frame :: s.frames }
  let result ← body
  modify fun s => { s with frames := s.frames.tail }
  return result

/-- Binds a name in the innermost scope, not yet to be read. Globals may be declared again. -/
def declare (name : Name) : Resolve Unit := do
  let s ← get
  match s.frames with
  | [] => return
  | frame :: outer =>
    if frame.contains name.text then
      mistake .alreadyDeclared name
    else
      set { s with frames := frame.insert name.text false :: outer }

def define (name : Name) : Resolve Unit :=
  modify fun s =>
    match s.frames with
    | [] => s
    | frame :: outer => { s with frames := frame.insert name.text true :: outer }

def declareDefined (name : Name) : Resolve Unit := do
  declare name
  define name

def declareAll : List Name → Resolve Unit
  | [] => pure ()
  | name :: rest => do
    declareDefined name
    declareAll rest

def locate (ref : Reference) : Resolve Reference := do
  return { ref with depth := depthOf (← get).frames ref.name.text }

def locateBound (ref : Reference) (otherwise : Mistake) : Resolve Reference := do
  let found ← locate ref
  if found.depth.isSome then
    return found
  else
    mistake otherwise ref.name

def resolveUse (ref : Reference) : Resolve Reference := do
  let s ← get
  if (s.frames.head?.bind (·.find? ref.name.text)) = some false then
    mistake .readInOwnInitializer ref.name
  else
    locate ref

def resolveThis (c : Context) (ref : Reference) : Resolve Reference :=
  if c.owner = .none then mistake .thisOutsideClass ref.name
  else locateBound ref .thisOutsideMethod

def resolveValue (c : Context) (ref : Reference) : Resolve Reference :=
  if c.function = .accessor then locateBound ref .valueHere
  else mistake .valueOutsideAccessor ref.name

def resolveSuper (c : Context) (ref : Reference) : Resolve Reference :=
  match c.owner with
  | .none => mistake .superOutsideClass ref.name
  | .interface => mistake .superInInterface ref.name
  | .base => mistake .superWithoutSuperclass ref.name
  | .derived => locateBound ref .superHere

def resolveSuperclass (name : Name) : Option Reference → Resolve (Option Reference)
  | none => pure none
  | some ref =>
    if ref.name.text = name.text then mistake .inheritsItself ref.name
    else do return some (← resolveUse ref)

def resolveUses : List Reference → Resolve (List Reference)
  | [] => pure []
  | ref :: rest => do
    let ref ← resolveUse ref
    let rest ← resolveUses rest
    return ref :: rest

end Treewalk.Scoping
