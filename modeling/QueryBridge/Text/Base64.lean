import QueryBridge.Text.Byte

/-!
# Base 64

Bytes in the alphabet of sixty-four letters, three bytes as four letters, with equals signs in
place of the letters that a short last group does not fill.
-/

namespace QueryBridge

namespace Base64

/-- The letter of a number below sixty-four. -/
def letter (n : Nat) : UInt8 :=
  if n < 26 then (65 + n).toUInt8
  else if n < 52 then (71 + n).toUInt8
  else if n < 62 then (n - 4).toUInt8
  else if n == 62 then Byte.plus
  else Byte.slash

/-- The letters of some bytes. -/
def encode : List UInt8 → Text
  | [] => []
  | [a] => [letter (a.toNat / 4), letter (a.toNat % 4 * 16), Byte.equals, Byte.equals]
  | [a, b] =>
    [letter (a.toNat / 4), letter (a.toNat % 4 * 16 + b.toNat / 16), letter (b.toNat % 16 * 4),
      Byte.equals]
  | a :: b :: c :: bytes =>
    [letter (a.toNat / 4), letter (a.toNat % 4 * 16 + b.toNat / 16),
      letter (b.toNat % 16 * 4 + c.toNat / 64), letter (c.toNat % 64)] ++ encode bytes

end Base64

end QueryBridge
