import Treewalk.Eval.Cast

/-!
Making instances. An instance owns a copy of every field that is not static, with the templates of its
class bound to the generic arguments; then the constructor runs.
-/

namespace Treewalk.Evaluator

open Run

def bindProperty (property : Property) (receiver : Value) : Run Property := do
  let getter ← bindFunction property.getter receiver
  let setter ← property.setter.mapM (bindFunction · receiver)
  return { property with getter := getter, setter := setter }

def propertyCell (property : Property) : Run Cell := do
  let p ← allocate (·.addProperty property)
  return { content := .computed p, modifiers := property.modifiers, declared := property.declared }

/-- The cell of an instance for a field of its class. Its type is resolved in `scope`. -/
def ownCell (cell : Cell) (scope : Ref .scope) (receiver : Value) : Run Cell := do
  let declared ← cell.declared.mapM (typeIn · scope)
  match cell.content with
  | .plain _ => return { cell with declared := declared }
  | .computed p =>
    let bound ← bindProperty (← reading (·.property p)) receiver
    propertyCell { bound with declared := declared }

def ownCells (receiver : Value) : List (String × Cell × Ref .scope) → Run (List (String × Cell))
  | [] => return []
  | (name, cell, scope) :: rest => do
    let cell ← ownCell cell scope receiver
    return (name, cell) :: (← ownCells receiver rest)

def typeArguments (line : Line) : List Value → Run (List TypeDesc)
  | [] => return []
  | value :: rest => do
    let t ← typeArgument value line
    return t :: (← typeArguments line rest)

/-- Names bound to types, on top of what the names are bound to already. -/
def bindTemplates (names : NameMap Cell) (templates : List String) (types : List TypeDesc) :
    NameMap Cell :=
  (templates.zip types).foldl (fun names (template, t) =>
    names.insert template (Cell.ofValue (.type t))) names

/-- The scope of an instance: a copy of the scope of its class in which the templates are bound. A class
without templates needs none. -/
def templateScope (c : Class) (generics : List Value) (line : Line) : Run (Option (Ref .scope)) := do
  if c.templates.isEmpty then
    return none
  else
    let types ← typeArguments line generics
    let base ← reading (·.scope c.scope)
    some <$> allocate
      (·.addScope { base with names := bindTemplates base.names c.templates types })

/-- Gives a new instance the fields of its class. Those of the class itself have their types resolved in
the scope of the instance, if it has one. -/
def fillFields (o : Ref .object) (c : Ref .cls) (scope : Option (Ref .scope)) : Run Unit := do
  let h ← heap
  let own := (h.instanceFields c).entries.map fun (name, cell, home) =>
    (name, cell, if home = (h.cls c).scope then scope.getD home else home)
  let cells ← ownCells (.object o) own
  update (·.setFields o ⟨cells⟩)

/-- Runs the constructor of a new instance. A class without one takes no arguments. -/
def runConstructor (o : Ref .object) (c : Ref .cls) (args : List Value) (line : Line) : Run Value := do
  match ← reading (·.constructor? c) with
  | some method => callMethod method (.object o) args line
  | none =>
    demand args.isEmpty line (.argumentCount 0 args.length)
    return .object o

def construct (c : Ref .cls) (args generics : List Value) (line : Line) :
    Run Value := do
  let cls ← reading (·.cls c)
  demand (generics.length = cls.templates.length) line
    (.genericCount cls.name cls.templates.length generics.length)
  let scope ← templateScope cls generics line
  let o ← allocate (·.addObject { cls := c, fields := .empty, templateScope := scope })
  fillFields o c scope
  runConstructor o c args line

end Treewalk.Evaluator
