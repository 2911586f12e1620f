import Treewalk.Number.Text

/-!
Rounding to the nearest whole number, halves away from zero. A rounded number keeps its sign, since a
small negative number rounds to a negative zero.
-/

namespace Treewalk.Number

inductive Rounded where
  | nan
  | infinite (negative : Bool)
  | whole (negative : Bool) (magnitude : Nat)
  deriving DecidableEq, Repr

def Parts.rounded : Parts → Rounded
  | .nan => .nan
  | .infinite negative => .infinite negative
  | .finite negative mantissa exponent =>
    if 0 ≤ exponent then .whole negative (mantissa * twoTo exponent.toNat)
    else
      let unit := twoTo (-exponent).toNat
      .whole negative ((2 * mantissa + unit) / (2 * unit))

def rounded (x : Float) : Rounded :=
  (parts x).rounded

/-- The natural number that a number rounds to; a negative zero counts as zero. -/
def Rounded.natural? : Rounded → Option Nat
  | .whole negative magnitude => if negative ∧ magnitude ≠ 0 then none else some magnitude
  | _ => none

/-- The text of a number after rounding. A number without fraction bits is its own rounding. -/
def roundedText (x : Float) : String :=
  match parts x with
  | .finite negative mantissa exponent =>
    if 0 ≤ exponent then text x
    else match Parts.rounded (.finite negative mantissa exponent) with
      | .whole _ magnitude => signed negative magnitude.repr.toList
      | _ => text x
  | _ => text x

end Treewalk.Number
