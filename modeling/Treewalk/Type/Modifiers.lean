/-!
Qualifiers of a variable, field, method or parameter, as a set of six flags.
-/

namespace Treewalk

structure Modifiers where
  const : Bool := false
  static : Bool := false
  operator : Bool := false
  cast : Bool := false
  unsigned : Bool := false
  byte : Bool := false
  deriving DecidableEq, Repr, Inhabited

namespace Modifiers

def none : Modifiers := {}

def union (a b : Modifiers) : Modifiers :=
  {
    const := a.const || b.const
    static := a.static || b.static
    operator := a.operator || b.operator
    cast := a.cast || b.cast
    unsigned := a.unsigned || b.unsigned
    byte := a.byte || b.byte
  }

/-- The modifiers that take part in the comparison of signatures. The other two describe ranges of
values, not the shape of a declaration. -/
def signature (m : Modifiers) : Modifiers :=
  { m with unsigned := false, byte := false }

/-- The names of the modifiers in the set, in their fixed order. -/
def names (m : Modifiers) : List String :=
  [(m.const, "const"), (m.static, "static"), (m.operator, "operator"), (m.cast, "cast"),
    (m.unsigned, "unsigned"), (m.byte, "byte")].filterMap
    fun (present, name) => if present then some name else Option.none

def text (m : Modifiers) : String :=
  if m.names.isEmpty then "none" else " ".intercalate m.names

/-- The set that holds one modifier, by its name. -/
def named? : String → Option Modifiers
  | "const" => some { const := true }
  | "static" => some { static := true }
  | "operator" => some { operator := true }
  | "cast" => some { cast := true }
  | "unsigned" => some { unsigned := true }
  | "byte" => some { byte := true }
  | _ => Option.none

end Modifiers

end Treewalk
