import Treewalk.Number.Parts

/-!
The shortest decimal that reads back as a given number. The reals that round to
`mantissa * 2 ^ exponent` form an interval whose ends belong to it when the mantissa is even. On the
grid of one significant digit, then two, and so on, the two neighbours of the number are tried; the
first grid with a neighbour inside the interval wins, the nearer of two neighbours is taken, and of
two equally near ones the larger.
-/

namespace Treewalk.Number

structure Decimal where
  digits : Nat
  exponent : Int
  deriving DecidableEq, Repr

/-- A number and the ends of its rounding interval, as numerators over one denominator. -/
structure Rounding where
  low : Nat
  value : Nat
  high : Nat
  denominator : Nat
  closed : Bool

/-- The gap below a power of two is half as wide as the gap above it, except at the bottom of the
range. -/
def rounding (mantissa : Nat) (exponent : Int) : Rounding :=
  let scale := twoTo (exponent - 2).toNat
  let below := if mantissa = twoTo 52 ∧ exponent > -1074 then 1 else 2
  {
    low := (4 * mantissa - below) * scale
    value := 4 * mantissa * scale
    high := (4 * mantissa + 2) * scale
    denominator := twoTo (2 - exponent).toNat
    closed := mantissa % 2 = 0
  }

/-- Whether a candidate lies in the interval, all three as numerators over one denominator. -/
def Rounding.admits (closed : Bool) (low high candidate : Nat) : Bool :=
  if closed then low ≤ candidate && candidate ≤ high else low < candidate && candidate < high

/-- The number of places before the point, counted down from zero when the number is below one. -/
def magnitudeBelowOne (numerator denominator : Nat) : Nat → Int
  | 0 => 0
  | fuel + 1 =>
    if denominator ≤ numerator * 10 then 0
    else magnitudeBelowOne (numerator * 10) denominator fuel - 1

/-- The `p` with `10 ^ (p - 1) ≤ numerator / denominator < 10 ^ p`, for a positive numerator. -/
def places (numerator denominator : Nat) : Int :=
  if denominator ≤ numerator then
    ((numerator / denominator).repr.length : Int)
  else
    magnitudeBelowOne numerator denominator 400

/-- The neighbour of the number on the grid of multiples of `10 ^ exponent` that reads back, if one
does. -/
def neighbour (r : Rounding) (exponent : Int) : Option Nat :=
  let unit := r.denominator * tenTo exponent.toNat
  let tenths := tenTo (-exponent).toNat
  let value := r.value * tenths
  let below := value / unit
  let remainder := value % unit
  let admits := Rounding.admits r.closed (r.low * tenths) (r.high * tenths)
  let down := admits (below * unit)
  let up := admits ((below + 1) * unit)
  if up && (!down || unit ≤ 2 * remainder) then some (below + 1)
  else if down then some below
  else none

/-- Tries the grids from `exponent` on, each ten times finer than the one before. -/
def firstNeighbour (r : Rounding) (exponent : Int) : Nat → Decimal
  | 0 => ⟨r.value / r.denominator, 0⟩
  | fuel + 1 =>
    match neighbour r exponent with
    | some digits => ⟨digits, exponent⟩
    | none => firstNeighbour r (exponent - 1) fuel

/-- The shortest decimal for `mantissa * 2 ^ exponent`; seventeen digits always suffice. -/
def shortest (mantissa : Nat) (exponent : Int) : Decimal :=
  if mantissa = 0 then ⟨0, 0⟩
  else
    let r := rounding mantissa exponent
    firstNeighbour r (places r.value r.denominator - 1) 18

end Treewalk.Number
