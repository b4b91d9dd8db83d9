import QueryBridge.Text.Byte

/-!
# Reading decimals

A decimal is read in two ways. The exact way gives the float nearest to it. The scaled way
keeps the digits that fit a 64 bit word and moves the point by floating-point products, which
is how numbers of a JSON text get their value.
-/

namespace QueryBridge

/-- The greatest number that a 64 bit word without sign holds. -/
def maxWord : Nat := 18446744073709551615

/-- The least integer that a 64 bit word with a sign holds. -/
def leastSigned : Int := -9223372036854775808

/-- The greatest integer that a 64 bit word with a sign holds. -/
def greatestSigned : Int := 9223372036854775807

/-- Whether an integer fits a 64 bit word with a sign. -/
def isSigned (n : Int) : Bool := leastSigned ≤ n && n ≤ greatestSigned

/-- Whether an integer fits a 64 bit word without sign. -/
def isUnsigned (n : Int) : Bool := 0 ≤ n && n ≤ maxWord

/-- The number spelled by decimal digits. -/
def Text.toNat (digits : Text) : Nat := digits.foldl (fun n b => n * 10 + (b.toNat - 48)) 0

/-- The integer spelled by digits with an optional sign. -/
def Text.toInt? (text : Text) : Option Int :=
  let (negative, digits) :=
    match text with
    | Byte.hyphen :: rest => (true, rest)
    | Byte.plus :: rest => (false, rest)
    | _ => (false, text)
  if digits.isEmpty || !digits.all Byte.isDigit then none
  else if negative then some (-(Text.toNat digits : Int))
  else some (Text.toNat digits)

/-- The integer spelled, if it fits a 64 bit word with a sign. -/
def Text.toWord? (text : Text) : Option Int := text.toInt?.filter isSigned

/-- The float nearest to an integer divided by a power of ten. -/
def nearestFloat (n : Int) (places : Nat) : Float :=
  let magnitude := Float.ofScientific n.natAbs true places
  if n < 0 then -magnitude else magnitude

/-- Appends digits to a number while the result fits a 64 bit word; the other digits remain. -/
def absorbDigits (n : Nat) : Text → Nat × Text
  | [] => (n, [])
  | b :: digits =>
    let next := n * 10 + (b.toNat - 48)
    if next ≤ maxWord then absorbDigits next digits else (n, b :: digits)

/-- A power of ten as a float. -/
def powerOfTen (n : Nat) : Float := Float.ofScientific 1 false n

/-- Moves the point of a float; none when the result is too large. An exponent below the least
power of ten is reached in steps of that power, and three steps bring every word to zero. -/
def scaleFloat : Nat → Float → Int → Option Float
  | steps, x, exponent =>
    if exponent.natAbs ≤ 308 then
      let y := if exponent < 0 then x / powerOfTen exponent.natAbs
        else x * powerOfTen exponent.natAbs
      if y.isInf then none else some y
    else if x == 0 then some x
    else if 0 ≤ exponent then none
    else
      match steps with
      | 0 => some 0
      | steps + 1 => scaleFloat steps (x / powerOfTen 308) (exponent + 308)

/-- The float of a decimal with an integer part, a fraction and an exponent, read the scaled
way; none when it is too large. -/
def scaledFloat? (negative : Bool) (whole fraction : Text) (exponent : Int) : Option Float :=
  let (n, left) := absorbDigits 0 whole
  let (m, rest) := absorbDigits n fraction
  let shift := (left.length : Int) - (fraction.length - rest.length : Nat)
  (scaleFloat 3 m.toUInt64.toFloat (shift + exponent)).map fun x => if negative then -x else x

end QueryBridge
