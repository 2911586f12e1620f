/-!
Type descriptors: a kind and a name. An array type has one pair of brackets at the end of its name for
each dimension, and a function type spells out its signature.
-/

namespace Treewalk

inductive TypeKind where
  | object
  | string
  | number
  | boolean
  | void
  | typeValue
  | any
  deriving DecidableEq, Repr, Inhabited

structure TypeDesc where
  kind : TypeKind
  name : String
  deriving DecidableEq, Repr, Inhabited

namespace TypeDesc

def any : TypeDesc := ⟨.any, "any"⟩

def number : TypeDesc := ⟨.number, "num"⟩

def string : TypeDesc := ⟨.string, "string"⟩

def boolean : TypeDesc := ⟨.boolean, "bool"⟩

def void : TypeDesc := ⟨.void, "void"⟩

def typeValue : TypeDesc := ⟨.typeValue, "type"⟩

def object (name : String) : TypeDesc := ⟨.object, name⟩

def null : TypeDesc := object "null"

def function (params : List TypeDesc) (returns : TypeDesc) : TypeDesc :=
  object ("func(" ++ ",".intercalate (params.map name) ++ "):" ++ returns.name)

def arrayOf (t : TypeDesc) : TypeDesc :=
  ⟨t.kind, t.name ++ "[]"⟩

/-- The characters of a name without the brackets of its last dimension. The name is taken from its
end. -/
def dropBrackets? : List Char → Option (List Char)
  | ']' :: '[' :: rest => some rest
  | _ => none

def countBrackets : List Char → Nat
  | ']' :: '[' :: rest => countBrackets rest + 1
  | _ => 0

def isArray (t : TypeDesc) : Bool :=
  (dropBrackets? t.name.toList.reverse).isSome

def dimensions (t : TypeDesc) : Nat :=
  countBrackets t.name.toList.reverse

/-- The type of the elements of an array type; any other type is returned as it is. -/
def element (t : TypeDesc) : TypeDesc :=
  match dropBrackets? t.name.toList.reverse with
  | some rest => ⟨t.kind, String.ofList rest.reverse⟩
  | none => t

def elementAt : Nat → TypeDesc → TypeDesc
  | 0, t => t
  | count + 1, t => elementAt count t.element

def base (t : TypeDesc) : TypeDesc :=
  elementAt t.dimensions t

def arrayOfAt : Nat → TypeDesc → TypeDesc
  | 0, t => t
  | count + 1, t => arrayOfAt count t.arrayOf

def isNull (t : TypeDesc) : Bool :=
  t.kind = .object ∧ t.name = "null"

def isFunction (t : TypeDesc) : Bool :=
  t.kind = .object ∧ "func(".toList.isPrefixOf t.name.toList

def isPlainAny (t : TypeDesc) : Bool :=
  t.kind = .any ∧ !t.isArray

/-- Agreement of two types of which at most one is an array. Objects agree by name, nil agrees with
every object, with every array and with void, and all other types agree only with themselves. -/
def agreesFlat (a b : TypeDesc) : Bool :=
  if a.isArray || b.isArray then a.isNull || b.isNull
  else if a.kind = .object ∧ b.kind = .object then a.name = b.name || a.isNull || b.isNull
  else if a.kind = .void ∧ b.isNull then true
  else if b.kind = .void ∧ a.isNull then true
  else a = b

/-- Compares the elements of arrays with the elements of arrays, through at most `depth` dimensions. -/
def agreesWithin : Nat → TypeDesc → TypeDesc → Bool
  | 0, a, b => a.isPlainAny || b.isPlainAny || agreesFlat a b
  | depth + 1, a, b =>
    a.isPlainAny || b.isPlainAny ||
      if a.isArray && b.isArray then agreesWithin depth a.element b.element else agreesFlat a b

/-- Whether two types may stand for each other: the unrestricted type agrees with everything, and
arrays agree by their elements. -/
def agrees (a b : TypeDesc) : Bool :=
  agreesWithin a.dimensions a b

end TypeDesc

end Treewalk
