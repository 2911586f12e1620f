import Treewalk.Number.Shortest

/-!
The text of a number: the shortest digits that read back, always written out in places, with no point
after a whole number. Reading accepts an optional sign, digits with an optional point, an optional
power of ten, and the words for infinity and for no number in any case.
-/

namespace Treewalk.Number

def zeros (count : Nat) : List Char :=
  List.replicate count '0'

/-- Drops the zeros at the end of a digit list, for a fraction that was carried over. -/
def dropTrailingZeros (digits : List Char) : List Char :=
  (digits.reverse.dropWhile (· == '0')).reverse

def Decimal.text (d : Decimal) : List Char :=
  let digits := d.digits.repr.toList
  if 0 ≤ d.exponent then digits ++ zeros d.exponent.toNat
  else
    let places := (-d.exponent).toNat
    let padded := zeros (places + 1 - digits.length) ++ digits
    let whole := padded.take (padded.length - places)
    let fraction := dropTrailingZeros (padded.drop (padded.length - places))
    if fraction.isEmpty then whole else whole ++ '.' :: fraction

def signed (negative : Bool) (text : List Char) : String :=
  String.ofList (if negative then '-' :: text else text)

def text (x : Float) : String :=
  match parts x with
  | .nan => "NaN"
  | .infinite negative => signed negative "inf".toList
  | .finite negative mantissa exponent => signed negative (shortest mantissa exponent).text

def digitsValue (digits : List Char) : Nat :=
  digits.foldl (fun value c => value * 10 + (c.toNat - '0'.toNat)) 0

/-- The number nearest to `mantissa * 10 ^ exponent`. Far outside the range the answer is known without
computing the power. -/
def ofDecimal (mantissa : Nat) (exponent : Int) : Float :=
  let size := (mantissa.repr.length : Int) + exponent
  if mantissa = 0 ∨ size < -400 then 0.0
  else if 400 < size then 1.0 / 0.0
  else Float.ofScientific mantissa (decide (exponent < 0)) exponent.natAbs

/-- A power of ten: a mark, an optional sign and at least one digit; nothing at all stands for zero. -/
def readExponent? : List Char → Option Int
  | [] => some 0
  | mark :: rest =>
    if mark = 'e' ∨ mark = 'E' then
      match rest with
      | '-' :: digits => (natural? digits).map (fun n => -(n : Int))
      | '+' :: digits => (natural? digits).map (fun n => (n : Int))
      | digits => (natural? digits).map (fun n => (n : Int))
    else none
where
  natural? (digits : List Char) : Option Nat :=
    if digits.isEmpty || !digits.all Char.isDigit then none else some (digitsValue digits)

def readDecimal? (cs : List Char) : Option Float :=
  let whole := cs.takeWhile Char.isDigit
  let afterWhole := cs.dropWhile Char.isDigit
  let (fraction, rest) := match afterWhole with
    | '.' :: tail => (tail.takeWhile Char.isDigit, tail.dropWhile Char.isDigit)
    | tail => ([], tail)
  if whole.isEmpty && fraction.isEmpty then none
  else (readExponent? rest).map fun exponent =>
    ofDecimal (digitsValue (whole ++ fraction)) (exponent - fraction.length)

def readUnsigned? (cs : List Char) : Option Float :=
  let word := cs.map Char.toLower
  if word = "inf".toList ∨ word = "infinity".toList then some (1.0 / 0.0)
  else if word = "nan".toList then some (0.0 / 0.0)
  else readDecimal? cs

def read? (s : String) : Option Float :=
  match s.toList with
  | '-' :: rest => (readUnsigned? rest).map (fun x => -x)
  | '+' :: rest => readUnsigned? rest
  | cs => readUnsigned? cs

end Treewalk.Number
