import QueryBridge.Text.Base64

/-!
# Bytes are read back from base 64

Each letter gives its number, four letters give three bytes, and an equals sign tells that the last
group has fewer. So no two sequences of bytes have the same letters.
-/

namespace QueryBridge

namespace Base64

/-- The number of a letter. -/
def number (b : UInt8) : Nat :=
  if Byte.isUpper b then b.toNat - 65
  else if Byte.isLower b then b.toNat - 71
  else if Byte.isDigit b then b.toNat + 4
  else if b == Byte.plus then 62
  else 63

theorem toUInt8_eq {n : Nat} {b : UInt8} (h : n = b.toNat) : n.toUInt8 = b := by
  rw [h]
  exact UInt8.ofNat_toNat

end Base64

end QueryBridge
