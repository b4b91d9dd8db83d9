/-!
# Floats of four bytes

Every float of four bytes is a float of eight bytes too. The field of its exponent is moved to the
other bias and its fraction gets zeros at the end. A float below the least exponent of four bytes
has a leading digit in eight bytes.
-/

namespace QueryBridge

/-- The field of the exponent in the bits of a float. -/
theorem toNat_unpackExponent (bits : UInt64) :
    (@Float.Model.UnpackedFloat.unpackExponent .binary64 bits.toBitVec).toNat =
      bits.toNat / Nat.pow 2 52 % Nat.pow 2 11 := by
  simp [Float.Model.UnpackedFloat.unpackExponent, Nat.shiftRight_eq_div_pow]

/-- The parts of a finite float of eight bytes. -/
structure FloatParts where
  /-- Whether the float has a minus sign. -/
  negative : Bool
  /-- The field of the exponent. -/
  field : Nat
  /-- The fraction. -/
  fraction : Nat
  field_lt : field < 2047
  fraction_lt : fraction < Nat.pow 2 52
deriving DecidableEq

namespace FloatParts

/-- The bits of a float from its parts. -/
def bits (parts : FloatParts) : Nat :=
  (if parts.negative then Nat.pow 2 63 else 0) + parts.field * Nat.pow 2 52 + parts.fraction

theorem bits_lt (parts : FloatParts) : parts.bits < Nat.pow 2 64 := by
  have hfield := parts.field_lt
  have hfraction := parts.fraction_lt
  unfold bits
  simp only [Nat.pow_eq] at hfraction ⊢
  split <;> omega

theorem bits_div (parts : FloatParts) : parts.bits / Nat.pow 2 52 % Nat.pow 2 11 = parts.field := by
  have hfield := parts.field_lt
  have hfraction := parts.fraction_lt
  unfold bits
  simp only [Nat.pow_eq] at hfraction ⊢
  split <;> omega

theorem toNat_ofNat_bits (parts : FloatParts) :
    (UInt64.ofNat parts.bits).toNat = parts.bits :=
  UInt64.toNat_ofNat_of_lt' parts.bits_lt

/-- A field that is not full belongs to no infinity and not to NaN. -/
theorem valid_bits (parts : FloatParts) :
    Float.Model.Format.binary64.Valid (UInt64.ofNat parts.bits).toBitVec := by
  have hones : (-BitVec.ofNat Float.Model.Format.binary64.exponentBits 1).toNat = 2047 := rfl
  have hfield := toNat_unpackExponent (UInt64.ofNat parts.bits)
  rw [toNat_ofNat_bits, bits_div] at hfield
  refine ⟨fun hfull => ?_⟩
  rw [hfull, hones] at hfield
  exact absurd hfield.symm (Nat.ne_of_lt parts.field_lt)

/-- The float with these parts. -/
def toFloat (parts : FloatParts) : Float := .ofModel ⟨.ofNat parts.bits, parts.valid_bits⟩

/-- What is behind the leading digit of a small fraction fits the place behind the point. -/
theorem shifted_lt {fraction : Nat} (hpos : fraction ≠ 0) (hfraction : fraction < Nat.pow 2 23) :
    (fraction - Nat.pow 2 fraction.log2) * Nat.pow 2 (52 - fraction.log2) < Nat.pow 2 52 := by
  have hlog : fraction.log2 < 23 := (Nat.log2_lt hpos).mpr hfraction
  have hbehind : fraction - Nat.pow 2 fraction.log2 < Nat.pow 2 fraction.log2 := by
    have := Nat.lt_log2_self (n := fraction)
    simp only [Nat.pow_eq]
    omega
  calc (fraction - Nat.pow 2 fraction.log2) * Nat.pow 2 (52 - fraction.log2)
      < Nat.pow 2 fraction.log2 * Nat.pow 2 (52 - fraction.log2) :=
        Nat.mul_lt_mul_of_pos_right hbehind (Nat.two_pow_pos _)
    _ = Nat.pow 2 52 := by
      rw [Nat.pow_eq, Nat.pow_eq, ← Nat.pow_add, Nat.add_sub_of_le (by omega), Nat.pow_eq]

/-- The fraction of a float of four bytes fits the place of that of a float of eight bytes. -/
theorem shifted_normal_lt {fraction : Nat} (hfraction : fraction < Nat.pow 2 23) :
    fraction * Nat.pow 2 29 < Nat.pow 2 52 := by
  simp only [Nat.pow_eq] at hfraction ⊢
  omega

/-- The parts of a float of four bytes in eight bytes. -/
def ofSingle (negative : Bool) (field fraction : Nat) (hfield : field < 255)
    (hfraction : fraction < Nat.pow 2 23) : FloatParts :=
  if field ≠ 0 then
    ⟨negative, field + 896, fraction * Nat.pow 2 29, by omega, shifted_normal_lt hfraction⟩
  else if hpos : fraction ≠ 0 then
    ⟨negative, fraction.log2 + 874,
      (fraction - Nat.pow 2 fraction.log2) * Nat.pow 2 (52 - fraction.log2),
      Nat.add_lt_add_right (Nat.lt_trans ((Nat.log2_lt hpos).mpr hfraction) (by decide)) 874,
      shifted_lt hpos hfraction⟩
  else ⟨negative, 0, 0, by decide, by decide⟩

end FloatParts

/-- A float of four bytes in eight bytes. -/
def widen (x : Float32) : Float :=
  let bits := x.toBits.toNat
  let negative := bits / Nat.pow 2 31 == 1
  let field := bits / Nat.pow 2 23 % Nat.pow 2 8
  let fraction := bits % Nat.pow 2 23
  if hfield : field < 255 then
    (FloatParts.ofSingle negative field fraction hfield (Nat.mod_lt _ (by decide))).toFloat
  else if fraction ≠ 0 then .ofBits 0x7FF8000000000000
  else if negative then .ofBits 0xFFF0000000000000
  else .ofBits 0x7FF0000000000000

end QueryBridge
