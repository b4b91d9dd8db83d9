import QueryBridge.Text.Byte

/-!
# Numbers of fixed width

A number with zeros in front, as dates and times are written.
-/

namespace QueryBridge

namespace Text

/-- The decimal digits of a number, with zeros in front up to a width. -/
def padded (width n : Nat) : Text :=
  let digits := ofNat n
  List.replicate (width - digits.length) Byte.zero ++ digits

end Text

end QueryBridge
