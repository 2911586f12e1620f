/-!
A number taken apart: sign, whole mantissa and power of two. Everything that must be exact about
numbers (their text, their rounding) is computed from these parts in whole-number arithmetic.
-/

namespace Treewalk.Number

def twoTo (k : Nat) : Nat :=
  Nat.pow 2 k

def tenTo (k : Nat) : Nat :=
  Nat.pow 10 k

/-- A finite number is `mantissa * 2 ^ exponent`, with its sign beside it so that both zeros are kept
apart. -/
inductive Parts where
  | nan
  | infinite (negative : Bool)
  | finite (negative : Bool) (mantissa : Nat) (exponent : Int)
  deriving DecidableEq, Repr

/-- Reads the sign bit, the eleven exponent bits and the fifty-two fraction bits. The least exponent
has no implied leading bit. -/
def partsOfBits (bits : Nat) : Parts :=
  let negative := decide (bits / twoTo 63 % 2 = 1)
  let exponent : Nat := bits / twoTo 52 % twoTo 11
  let fraction := bits % twoTo 52
  if exponent = 2047 then
    if fraction = 0 then .infinite negative else .nan
  else if exponent = 0 then
    .finite negative fraction (-1074)
  else
    .finite negative (twoTo 52 + fraction) ((exponent : Int) - 1075)

def parts (x : Float) : Parts :=
  partsOfBits x.toBits.toNat

end Treewalk.Number
