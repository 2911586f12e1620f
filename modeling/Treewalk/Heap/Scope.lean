import Treewalk.Heap.Conform

/-!
Scopes along their chain of enclosing scopes, which ends at the global one. A name denotes the binding
in the nearest scope that has one; a known depth leads there directly.
-/

namespace Treewalk

def Ref.globals : Ref .scope := ⟨0⟩

namespace Heap

def isGlobal (h : Heap) (r : Ref .scope) : Bool :=
  (h.scope r).enclosing.isNone

/-- A scope and those around it, as far as the fuel reaches. -/
def outwardFrom (h : Heap) : Nat → Ref .scope → List (Ref .scope)
  | 0, _ => []
  | fuel + 1, r =>
    r :: match (h.scope r).enclosing with
      | some parent => outwardFrom h fuel parent
      | none => []

/-- A scope and those around it, innermost first. An enclosing scope is older than what it encloses. -/
def outward (h : Heap) (r : Ref .scope) : List (Ref .scope) :=
  outwardFrom h (r.index + 1) r

def ancestor? (h : Heap) : Nat → Ref .scope → Option (Ref .scope)
  | 0, r => some r
  | distance + 1, r => (h.scope r).enclosing.bind (ancestor? h distance)

/-- The scope a number of links out, where one link is the least. -/
def enclosingAt (h : Heap) (r : Ref .scope) (distance : Nat) : Option (Ref .scope) :=
  h.ancestor? (max 1 distance) r

/-- What a name is bound to in a scope itself. -/
def here? (h : Heap) (r : Ref .scope) (name : String) : Option Cell :=
  (h.scope r).names.find? name

def binder? (h : Heap) (r : Ref .scope) (name : String) : Option (Ref .scope) :=
  (h.outward r).find? fun s => (h.scope s).names.contains name

def lookup (h : Heap) (r : Ref .scope) (name : String) : Except Fault Cell :=
  match (h.binder? r name).bind fun s => h.here? s name with
  | some cell => .ok cell
  | none => .error (.undefinedVariable name)

def lookupAt (h : Heap) (r : Ref .scope) (distance : Nat) (name : String) : Except Fault Cell :=
  match (h.ancestor? distance r).bind fun s => h.here? s name with
  | some cell => .ok cell
  | none => .error (.undefinedVariable name)

/-- What an assignment comes to: a new cell for a name of a scope, or the property whose setter has to be
run. -/
inductive Assigned where
  | stored (target : Ref .scope) (cell : Cell)
  | computed (property : Ref .property)

/-- Writes to a name that is bound in a scope itself. No static binding of the global scope can be
written. -/
def assignHere (h : Heap) (r : Ref .scope) (name : String) (value : Value) : Except Fault Assigned :=
  match h.here? r name with
  | none => .error (.undefinedVariable name)
  | some cell =>
    if h.isGlobal r && cell.modifiers.static then .error (.staticGlobal name)
    else match h.writeCell cell name value with
      | .error fault => .error fault
      | .ok (.stored written) => .ok (.stored r written)
      | .ok (.computed property) => .ok (.computed property)

def assign (h : Heap) (r : Ref .scope) (name : String) (value : Value) : Except Fault Assigned :=
  match h.binder? r name with
  | some s => h.assignHere s name value
  | none => .error (.undefinedVariable name)

def assignAt (h : Heap) (r : Ref .scope) (distance : Nat) (name : String) (value : Value) :
    Except Fault Assigned :=
  match h.ancestor? distance r with
  | some s => h.assignHere s name value
  | none => .error (.undefinedVariable name)

def copies (h : Heap) (r : Ref .scope) : List Name → NameMap Cell
  | [] => .empty
  | name :: rest =>
    match h.here? r name.text with
    | some cell => (copies h r rest).insert name.text cell
    | none => copies h r rest

def child (h : Heap) (r : Ref .scope) : Ref .scope × Heap :=
  h.addScope { enclosing := some r }

/-- A new scope beside another, with copies of its bindings. -/
def fork (h : Heap) (r : Ref .scope) : Ref .scope × Heap :=
  h.addScope (h.scope r)

/-- A type with its template name replaced by what the name is bound to, dimension by dimension. A name
that is bound to no type stands for itself. -/
def resolveType (h : Heap) (t : TypeDesc) (r : Ref .scope) : TypeDesc :=
  if t.kind ≠ .object ∨ t.isNull ∨ t.isFunction then t
  else match h.lookup r t.base.name with
    | .ok { content := .plain (.type bound), .. } => .arrayOfAt t.dimensions bound
    | _ => t

end Heap

end Treewalk
