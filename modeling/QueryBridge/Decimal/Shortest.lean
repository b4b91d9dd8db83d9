import QueryBridge.Text.Byte

/-!
# The shortest decimal of a float

A finite float stands for every real number that rounds to it. Its shortest decimal is the one
with the fewest digits among them and, of those, the nearest to the float; of two that are equally
near, the even one. The search runs over the decimal grids of one, two, and more digits in exact
arithmetic; on each grid only the two neighbours of the value can be the answer.
-/

namespace QueryBridge

/-- A positive decimal: the digits as a number, times a power of ten. -/
structure Decimal where
  /-- The digits. -/
  digits : Nat
  /-- The power of ten of the last digit. -/
  scale : Int
deriving DecidableEq, Repr

namespace Decimal

/-- Drops trailing zeros, at most as many as the fuel allows. -/
def dropZeros : Nat → Decimal → Decimal
  | 0, d => d
  | fuel + 1, d =>
    if d.digits % 10 == 0 && d.digits != 0 then dropZeros fuel ⟨d.digits / 10, d.scale + 1⟩ else d

/-- How many digits a number has. -/
def digitCount (n : Nat) : Nat := (Nat.toDigits 10 n).length

/-- The exponent of the first digit. -/
def exponent (d : Decimal) : Int := d.scale + digitCount d.digits - 1

/-- The greatest power of ten that is at most a positive fraction. -/
def magnitude (num den : Nat) : Int :=
  if den ≤ num then digitCount (num / den) - 1
  else
    let places := digitCount (den / num)
    if den ≤ num * Nat.pow 10 (places - 1) then -(places - 1 : Nat) else -(places : Int)

end Decimal

/-- A positive float as a binary number: the value is the significand times two to the
exponent. -/
structure Binary where
  /-- The significand. -/
  significand : Nat
  /-- The power of two. -/
  exponent : Int
  /-- Whether the float below is only half as far away as the one above. -/
  narrowBelow : Bool
deriving DecidableEq, Repr

namespace Binary

/-- The finite float with these bits, without its sign; none for infinities and NaN. -/
def ofBits? (bits : Nat) : Option Binary :=
  let fraction : Nat := bits % Nat.pow 2 52
  let field : Nat := bits / Nat.pow 2 52 % Nat.pow 2 11
  if field == 2047 then none
  else if field == 0 then some ⟨fraction, -1074, false⟩
  else some ⟨Nat.pow 2 52 + fraction, (field : Int) - 1075, fraction == 0 && field != 1⟩

/-- So many quarters of the last place of the float, as a fraction. -/
def quarters (b : Binary) (count : Nat) : Nat × Nat :=
  let power := b.exponent - 2
  (count * Nat.pow 2 power.toNat, Nat.pow 2 (-power).toNat)

/-- The unit of the last of `count` digits of the value. -/
def unit (b : Binary) (count : Nat) : Int :=
  let (num, den) := b.quarters (4 * b.significand)
  Decimal.magnitude num den - (count - 1 : Nat)

/-- So many quarters of the last place, multiplied by the common denominator with the grid. -/
def onGrid (b : Binary) (unit : Int) (count : Nat) : Nat :=
  (b.quarters count).1 * Nat.pow 10 (-unit).toNat

/-- The distance of two points of the grid, multiplied by the common denominator. -/
def spacing (b : Binary) (unit : Int) : Nat := Nat.pow 10 unit.toNat * (b.quarters 1).2

/-- The start of the interval of the float, in quarters of the last place. -/
def lowQuarters (b : Binary) : Nat :=
  if b.narrowBelow then 4 * b.significand - 1 else 4 * b.significand - 2

/-- The end of the interval of the float, in quarters of the last place. -/
def highQuarters (b : Binary) : Nat := 4 * b.significand + 2

/-- Whether a point of the grid rounds to the float. The ends of the interval round to an even
significand. -/
def roundsAt (b : Binary) (unit : Int) (n : Nat) : Bool :=
  let closed := b.significand % 2 == 0
  let point := n * b.spacing unit
  let low := b.onGrid unit b.lowQuarters
  let high := b.onGrid unit b.highQuarters
  (low < point || (closed && low == point)) && (point < high || (closed && point == high))

/-- The points of the grid next to the value, the nearest first and of two equally near the even
one. -/
def neighbours (b : Binary) (unit : Int) : List Nat :=
  let value := b.onGrid unit (4 * b.significand)
  let below := value / b.spacing unit
  let above := below + 1
  let middle := (below + above) * b.spacing unit
  if 2 * value < middle || (2 * value == middle && below % 2 == 0) then [below, above]
  else [above, below]

/-- The candidates with `count` digits: the neighbours of the value on their grid that round to the
float. -/
def candidates (b : Binary) (count : Nat) : List Decimal :=
  let unit := b.unit count
  ((b.neighbours unit).filter (b.roundsAt unit)).map fun n => ⟨n, unit⟩

/-- The shortest decimal that rounds to the float. Seventeen digits always suffice. -/
def shortest (b : Binary) : Decimal :=
  let found := (List.range 17).findSome? fun n => (b.candidates (n + 1)).head?
  (found.getD ⟨b.significand, 0⟩).dropZeros 400

end Binary

/-- How a float is spelled: plainly while the exponent of its first digit lies between these
bounds, with an exponent otherwise. -/
structure FloatSpelling where
  /-- The least exponent spelled plainly. -/
  least : Int
  /-- The greatest exponent spelled plainly. -/
  greatest : Int
deriving DecidableEq, Repr

namespace FloatSpelling

/-- A decimal in plain notation, always with a fraction. -/
def plain (d : Decimal) : Text :=
  let digits := Text.ofNat d.digits
  if 0 ≤ d.scale then digits ++ List.replicate d.scale.toNat Byte.zero ++ ".0"
  else
    let places := (-d.scale).toNat
    if places < digits.length then
      digits.take (digits.length - places) ++ "." ++ digits.drop (digits.length - places)
    else "0." ++ List.replicate (places - digits.length) Byte.zero ++ digits

/-- A decimal with an exponent, which always carries its sign. -/
def scientific (d : Decimal) : Text :=
  let digits := Text.ofNat d.digits
  let fraction : Text := if digits.length ≤ 1 then [] else Byte.dot :: digits.drop 1
  let sign : Text := if d.exponent < 0 then "e-" else "e+"
  digits.take 1 ++ fraction ++ sign ++ Text.ofNat d.exponent.natAbs

/-- The spelling of a float from its bits; none for infinities and NaN. -/
def spell? (spelling : FloatSpelling) (bits : Nat) : Option Text :=
  (Binary.ofBits? bits).map fun b =>
    let sign : Text := if bits / Nat.pow 2 63 % 2 == 1 then "-" else []
    if b.significand == 0 then sign ++ "0.0"
    else
      let d := b.shortest
      if spelling.least ≤ d.exponent && d.exponent ≤ spelling.greatest then sign ++ plain d
      else sign ++ scientific d

end FloatSpelling

end QueryBridge
