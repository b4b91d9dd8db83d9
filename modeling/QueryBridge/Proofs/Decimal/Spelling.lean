import QueryBridge.Decimal.Widening
import QueryBridge.Json.Writer
import QueryBridge.Proofs.Decimal.Shortest
import QueryBridge.Proofs.Text.Cut
import QueryBridge.Proofs.Text.Decimal

/-!
# Floats are told apart by their texts

The text of a decimal spells the number of the decimal, plainly or with an exponent. So the text of a
float spells a number that rounds to the float, and no two finite floats are written alike.
-/

namespace QueryBridge

namespace Decimal

open Text

/-- The decimal that a text spells: digits, perhaps with a point among them and an exponent behind
the letter e. -/
def ofText (text : Text) : Decimal :=
  let (mantissa, exponent) := (text.cut? 101).getD (text, [])
  let (whole, fraction) := (mantissa.cut? Byte.dot).getD (mantissa, [])
  ⟨toNat (whole ++ fraction), (toInt? exponent).getD 0 - fraction.length⟩

section OfText

variable {whole fraction : Text}

theorem notMem_of_digits {digits : Text} {b : UInt8} (h : ∀ b ∈ digits, Byte.isDigit b = true)
    (hb : Byte.isDigit b = false) : b ∉ digits := fun hmem => by
  rw [h b hmem] at hb
  cases hb

theorem ofText_digits (h : ∀ b ∈ whole, Byte.isDigit b = true) :
    ofText whole = ⟨toNat whole, 0⟩ := by
  unfold ofText
  simp [cut?_eq_none (notMem_of_digits (b := 101) h (by decide)),
    cut?_eq_none (notMem_of_digits (b := Byte.dot) h (by decide)), toInt?]

theorem ofText_dot (hwhole : ∀ b ∈ whole, Byte.isDigit b = true)
    (hfraction : ∀ b ∈ fraction, Byte.isDigit b = true) :
    ofText (whole ++ Byte.dot :: fraction) =
      ⟨toNat (whole ++ fraction), -(fraction.length : Int)⟩ := by
  have hletter : (101 : UInt8) ∉ whole ++ Byte.dot :: fraction := by
    simp only [List.mem_append, List.mem_cons, not_or]
    exact ⟨notMem_of_digits hwhole (by decide), by decide, notMem_of_digits hfraction (by decide)⟩
  unfold ofText
  simp [cut?_eq_none hletter, cut?_append (notMem_of_digits (b := Byte.dot) hwhole (by decide)),
    toInt?]

/-- A point among digits is as far from their end as the scale says. -/
theorem ofText_take_drop {digits : Text} (h : ∀ b ∈ digits, Byte.isDigit b = true) (place : Nat) :
    ofText (digits.take place ++ Byte.dot :: digits.drop place) =
      ⟨toNat digits, -(digits.length - place : Nat)⟩ := by
  rw [ofText_dot (fun b hb => h b (List.mem_of_mem_take hb))
    (fun b hb => h b (List.mem_of_mem_drop hb)), List.take_append_drop, List.length_drop]

/-- An exponent moves the point. -/
theorem ofText_power {mantissa exponent : Text} {places : Int} (hmantissa : 101 ∉ mantissa)
    (hexponent : toInt? exponent = some places) :
    ofText (mantissa ++ 101 :: exponent) =
      ⟨(ofText mantissa).digits, (ofText mantissa).scale + places⟩ := by
  have hnil : toInt? [] = none := rfl
  unfold ofText
  simp only [cut?_append hmantissa, cut?_eq_none hmantissa, Option.getD_some, Option.getD_none,
    hexponent, hnil]
  congr 1
  omega

end OfText

theorem isDigit_of_mem_replicate (count : Nat) :
    ∀ b ∈ List.replicate count Byte.zero, Byte.isDigit b = true := by
  intro b hb
  rw [List.eq_of_mem_replicate hb]
  rfl

theorem toNat_ofNat_append_zeros (n count : Nat) :
    toNat (ofNat n ++ List.replicate count Byte.zero) = n * 10 ^ count := by
  rw [toNat_append, toNat_ofNat, toNat_replicate_zero, List.length_replicate, Nat.add_zero]

theorem toNat_zeros_append_ofNat (n count : Nat) :
    toNat (List.replicate count Byte.zero ++ ofNat n) = n := by
  rw [toNat_append, toNat_ofNat, toNat_replicate_zero, Nat.zero_mul, Nat.zero_add]

/-- The zeros between the digits and the point belong to the number. -/
theorem value_ofText_whole (n zeros : Nat) :
    (ofText (ofNat n ++ List.replicate zeros Byte.zero ++ Byte.dot :: [Byte.zero])).value =
      (⟨n, zeros⟩ : Decimal).value := by
  have hfront : ∀ b ∈ ofNat n ++ List.replicate zeros Byte.zero, Byte.isDigit b = true :=
    List.forall_mem_append.mpr ⟨isDigit_of_mem_ofNat, isDigit_of_mem_replicate _⟩
  rw [ofText_dot hfront (by decide), toNat_append, toNat_ofNat_append_zeros, value, value,
    zpow_natCast]
  simp only [List.length_singleton, pow_one, show toNat [Byte.zero] = 0 from rfl]
  push_cast
  field_simp
  ring

/-- The zeros between the point and the digits make the number smaller. -/
theorem ofText_fraction (n zeros : Nat) :
    ofText (Byte.zero :: Byte.dot :: (List.replicate zeros Byte.zero ++ ofNat n)) =
      ⟨n, -(zeros + (ofNat n).length : Nat)⟩ := by
  have hfraction := List.forall_mem_append.mpr
    ⟨isDigit_of_mem_replicate zeros, @isDigit_of_mem_ofNat n⟩
  have hdigits : toNat ([Byte.zero] ++ (List.replicate zeros Byte.zero ++ ofNat n)) = n :=
    toNat_zeros_append_ofNat n (zeros + 1)
  have hread := @ofText_dot [Byte.zero] _ (by decide) hfraction
  rwa [List.length_append, List.length_replicate, hdigits] at hread

/-- The plain text of a decimal spells its number. -/
theorem value_ofText_plain (d : Decimal) :
    (ofText (FloatSpelling.plain d)).value = d.value := by
  unfold FloatSpelling.plain
  dsimp only
  split
  next hscale =>
    have hend : ofString ".0" = Byte.dot :: [Byte.zero] := by decide
    rw [hend, value_ofText_whole, Int.toNat_of_nonneg hscale]
  next hscale =>
    split
    next hinside =>
      -- The point stands among the digits.
      have hpoint : ofString "." = [Byte.dot] := by decide
      have hscale : -(((ofNat d.digits).length -
          ((ofNat d.digits).length - (-d.scale).toNat) : Nat) : Int) = d.scale := by omega
      rw [hpoint, List.append_assoc, List.singleton_append,
        ofText_take_drop isDigit_of_mem_ofNat, toNat_ofNat, hscale]
    next hinside =>
      -- All digits are behind the point.
      have hlead : ofString "0." = [Byte.zero, Byte.dot] := by decide
      have hscale : -(((-d.scale).toNat - (ofNat d.digits).length + (ofNat d.digits).length : Nat) :
          Int) = d.scale := by omega
      rw [hlead, List.append_assoc]
      refine (congrArg value (ofText_fraction d.digits _)).trans ?_
      rw [hscale]

/-- An exponent is read with the sign behind its letter. -/
theorem exists_exponent_eq (places : Int) : ∃ exponent,
    (if places < 0 then ofString "e-" else ofString "e+") ++ ofNat places.natAbs =
      101 :: exponent ∧ toInt? exponent = some places := by
  split
  next hneg =>
    have hsign : ofString "e-" = 101 :: [Byte.hyphen] := by decide
    refine ⟨Byte.hyphen :: ofNat places.natAbs, by rw [hsign]; rfl, ?_⟩
    rw [toInt?_hyphen (ofNat_ne_nil _) isDigit_of_mem_ofNat, toNat_ofNat]
    congr 1
    omega
  next hnonneg =>
    have hsign : ofString "e+" = 101 :: [Byte.plus] := by decide
    refine ⟨Byte.plus :: ofNat places.natAbs, by rw [hsign]; rfl, ?_⟩
    rw [toInt?_plus (ofNat_ne_nil _) isDigit_of_mem_ofNat, toNat_ofNat]
    congr 1
    omega

/-- A point, if there is one, stands behind the first digit. -/
theorem exists_mantissa_eq {digits : Text} (h : ∀ b ∈ digits, Byte.isDigit b = true) : ∃ mantissa,
    digits.take 1 ++ (if digits.length ≤ 1 then [] else Byte.dot :: digits.drop 1) = mantissa ∧
      101 ∉ mantissa ∧ ofText mantissa = ⟨toNat digits, -(digits.length - 1 : Nat)⟩ := by
  split
  next hone =>
    rw [List.append_nil, List.take_of_length_le hone]
    refine ⟨_, rfl, notMem_of_digits h (by decide), ?_⟩
    rw [ofText_digits h, Nat.sub_eq_zero_of_le hone]
    rfl
  next =>
    refine ⟨_, rfl, ?_, ofText_take_drop h 1⟩
    simp only [List.mem_append, List.mem_cons, not_or]
    exact ⟨fun hmem => notMem_of_digits h (by decide) (List.mem_of_mem_take hmem),
      by decide, fun hmem => notMem_of_digits h (by decide) (List.mem_of_mem_drop hmem)⟩

/-- The text of a decimal with an exponent spells its number. -/
theorem value_ofText_scientific (d : Decimal) :
    (ofText (FloatSpelling.scientific d)).value = d.value := by
  obtain ⟨exponent, htext, hread⟩ := exists_exponent_eq d.exponent
  obtain ⟨mantissa, hfront, hletter, hvalue⟩ := exists_mantissa_eq (@isDigit_of_mem_ofNat d.digits)
  have hscale : -(((ofNat d.digits).length - 1 : Nat) : Int) + d.exponent = d.scale := by
    have hpos := List.length_pos_iff.mpr (ofNat_ne_nil d.digits)
    have hlength : digitCount d.digits = (ofNat d.digits).length := by
      rw [ofNat, List.length_map, digitCount]
    rw [Decimal.exponent, hlength]
    omega
  unfold FloatSpelling.scientific
  dsimp only
  rw [List.append_assoc _ _ (ofNat _), htext, hfront, ofText_power hletter hread, hvalue,
    toNat_ofNat, hscale]

end Decimal

namespace FloatSpelling

open Text

/-- The text of a positive float or zero. -/
def unsignedText (spelling : FloatSpelling) (b : Binary) : Text :=
  if b.significand == 0 then "0.0"
  else if spelling.least ≤ b.shortest.exponent && b.shortest.exponent ≤ spelling.greatest then
    plain b.shortest
  else scientific b.shortest

/-- A float is written as its sign and its magnitude. -/
theorem spell?_eq (spelling : FloatSpelling) (bits : Nat) :
    spelling.spell? bits = (Binary.ofBits? bits).map fun b =>
      (if bits / 2 ^ 63 % 2 = 1 then ofString "-" else []) ++ spelling.unsignedText b := by
  unfold spell? unsignedText
  congr 1
  funext b
  rw [Nat.pow_eq]
  simp only [beq_iff_eq]
  split
  · rfl
  · split <;> rfl

/-- The text of a decimal starts with a digit. -/
theorem isDigit_head?_plain (d : Decimal) : (plain d).head?.any Byte.isDigit = true := by
  obtain ⟨b, digits, hcons⟩ := List.exists_cons_of_ne_nil (ofNat_ne_nil d.digits)
  have hb : Byte.isDigit b = true := isDigit_of_mem_ofNat b (hcons ▸ List.mem_cons_self)
  unfold plain
  dsimp only
  rw [hcons]
  split
  · exact hb
  · split
    next hinside =>
      obtain ⟨count, hcount⟩ := Nat.exists_eq_add_one_of_ne_zero (Nat.sub_ne_zero_of_lt hinside)
      rw [hcount]
      exact hb
    next => rfl

theorem isDigit_head?_scientific (d : Decimal) : (scientific d).head?.any Byte.isDigit = true := by
  obtain ⟨b, digits, hcons⟩ := List.exists_cons_of_ne_nil (ofNat_ne_nil d.digits)
  have hb : Byte.isDigit b = true := isDigit_of_mem_ofNat b (hcons ▸ List.mem_cons_self)
  unfold scientific
  dsimp only
  rw [hcons]
  exact hb

theorem isDigit_head?_unsignedText (spelling : FloatSpelling) (b : Binary) :
    (spelling.unsignedText b).head?.any Byte.isDigit = true := by
  unfold unsignedText
  split
  · rfl
  · split
    · exact isDigit_head?_plain _
    · exact isDigit_head?_scientific _

/-- A point or an exponent tells the text of a float from that of an integer. -/
theorem exists_mem_unsignedText (spelling : FloatSpelling) (b : Binary) :
    Byte.dot ∈ spelling.unsignedText b ∨ 101 ∈ spelling.unsignedText b := by
  have hpoint : Byte.dot ∈ ofString "." := by decide
  have hend : Byte.dot ∈ ofString ".0" := by decide
  have hlead : Byte.dot ∈ ofString "0." := by decide
  have hsign (d : Decimal) :
      (101 : UInt8) ∈ (if d.exponent < 0 then ofString "e-" else ofString "e+") := by
    split <;> decide
  unfold unsignedText
  split
  · exact .inl (by decide)
  · split
    · left
      unfold plain
      dsimp only
      split
      · simp [hend]
      · split
        · simp [hpoint]
        · simp [hlead]
    · right
      simp [scientific, hsign]

/-- The text of a float spells a number that rounds to the float. -/
theorem rounds_unsignedText (spelling : FloatSpelling) {b : Binary} (hb : b.IsFloat) :
    b.Rounds (Decimal.ofText (spelling.unsignedText b)).value := by
  unfold unsignedText
  split
  next hzero =>
    have hread : Decimal.ofText (ofString "0.0") = ⟨0, -1⟩ := by decide
    rw [hread, Decimal.value, Nat.cast_zero, zero_mul]
    exact hb.rounds_zero (beq_iff_eq.mp hzero)
  next hzero =>
    have hpos : b.significand ≠ 0 := fun heq => hzero (beq_iff_eq.mpr heq)
    split
    · rw [Decimal.value_ofText_plain]
      exact Binary.rounds_shortest hb hpos
    · rw [Decimal.value_ofText_scientific]
      exact Binary.rounds_shortest hb hpos

/-- The first byte of a text tells whether a sign was written. -/
theorem sign_append_unsignedText_inj {spelling : FloatSpelling} {b c : Binary} {p q : Prop}
    [Decidable p] [Decidable q]
    (h : (if p then ofString "-" else []) ++ spelling.unsignedText b =
      (if q then ofString "-" else []) ++ spelling.unsignedText c) :
    (p ↔ q) ∧ spelling.unsignedText b = spelling.unsignedText c := by
  have hminus : ofString "-" = [Byte.hyphen] := by decide
  have hne (b : Binary) (rest : Text) : spelling.unsignedText b ≠ Byte.hyphen :: rest := by
    intro heq
    have hdigit := isDigit_head?_unsignedText spelling b
    rw [heq] at hdigit
    cases hdigit
  rw [hminus] at h
  by_cases hp : p <;> by_cases hq : q <;>
    simp only [hp, hq, if_true, if_false, List.singleton_append, List.nil_append] at h
  · exact ⟨iff_of_true hp hq, (List.cons.inj h).2⟩
  · exact absurd h.symm (hne _ _)
  · exact absurd h (hne _ _)
  · exact ⟨iff_of_false hp hq, h⟩

/-- Two floats with one text have the same bits. -/
theorem spell?_inj {spelling : FloatSpelling} {m n : Nat} {text : Text}
    (hm : spelling.spell? m = some text) (hn : spelling.spell? n = some text) :
    m % 2 ^ 64 = n % 2 ^ 64 := by
  rw [spell?_eq, Binary.ofBits?_eq, Option.map_eq_some_iff] at hm hn
  obtain ⟨b, hb, hmText⟩ := hm
  obtain ⟨c, hc, hnText⟩ := hn
  obtain ⟨-, hb⟩ := Option.ite_none_left_eq_some.mp hb
  obtain ⟨-, hc⟩ := Option.ite_none_left_eq_some.mp hc
  obtain rfl := Option.some.inj hb
  obtain rfl := Option.some.inj hc
  obtain ⟨hsign, htext⟩ := sign_append_unsignedText_inj (hmText.trans hnText.symm)
  have hrounds := rounds_unsignedText spelling (Binary.isFloat_ofMagnitude (m % 2 ^ 63))
  rw [htext] at hrounds
  have hmagnitude := hrounds.inj
    (rounds_unsignedText spelling (Binary.isFloat_ofMagnitude (n % 2 ^ 63)))
  omega

end FloatSpelling

/-! ### Floats of eight bytes -/

/-- The bits of a number are those of a finite number unless all bits of the exponent are set. -/
theorem isFinite_unpack {format : Float.Model.Format} (bits : BitVec format.numBits) :
    (Float.Model.UnpackedFloat.unpack format bits).isFinite = true ↔
      Float.Model.UnpackedFloat.unpackExponent bits ≠ -BitVec.ofNat format.exponentBits 1 := by
  unfold Float.Model.UnpackedFloat.unpack
  by_cases hfull : Float.Model.UnpackedFloat.unpackExponent bits = -BitVec.ofNat format.exponentBits 1
  · rw [if_pos hfull]
    refine iff_of_false ?_ (not_not.mpr hfull)
    by_cases hfraction : Float.Model.UnpackedFloat.unpackMantissa bits = BitVec.ofNat _ 0
    · rw [if_pos hfraction]
      exact Bool.false_ne_true
    · rw [if_neg hfraction]
      exact Bool.false_ne_true
  · rw [if_neg hfull]
    refine iff_of_true ?_ hfull
    by_cases hsmall : Float.Model.UnpackedFloat.unpackExponent bits = BitVec.ofNat _ 0
    · rw [if_pos hsmall]
      by_cases hfraction : Float.Model.UnpackedFloat.unpackMantissa bits = BitVec.ofNat _ 0
      · rw [dif_pos hfraction]
        rfl
      · rw [dif_neg hfraction]
        rfl
    · rw [if_neg hsmall]
      rfl

theorem isFinite_iff (x : Float) :
    x.isFinite = true ↔ x.toBits.toNat / 2 ^ 52 % 2 ^ 11 ≠ 2047 := by
  refine (@isFinite_unpack .binary64 x.toBits.toBitVec).trans ?_
  rw [Ne, ← BitVec.toNat_inj, toNat_unpackExponent]
  rfl

theorem toBits_inj {x y : Float} : x.toBits = y.toBits ↔ x = y := by
  refine ⟨fun h => ?_, congrArg Float.toBits⟩
  obtain ⟨⟨m, hm⟩⟩ := x
  obtain ⟨⟨n, hn⟩⟩ := y
  cases h
  rfl

namespace Json

theorem spell?_toBits {x : Float} (h : x.isFinite = true) :
    floatSpelling.spell? x.toBits.toNat =
      some ((if x.toBits.toNat / 2 ^ 63 % 2 = 1 then Text.ofString "-" else []) ++
        floatSpelling.unsignedText (.ofMagnitude (x.toBits.toNat % 2 ^ 63))) := by
  rw [FloatSpelling.spell?_eq, Binary.ofBits?_eq, if_neg ((isFinite_iff x).mp h), Option.map_some]

theorem floatText_eq {x : Float} (h : x.isFinite = true) : floatText x =
    (if x.toBits.toNat / 2 ^ 63 % 2 = 1 then Text.ofString "-" else []) ++
      floatSpelling.unsignedText (.ofMagnitude (x.toBits.toNat % 2 ^ 63)) := by
  rw [floatText, spell?_toBits h, Option.getD_some]

/-- No two finite floats are written alike. -/
theorem floatText_inj {x y : Float} (hx : x.isFinite = true) (hy : y.isFinite = true) :
    floatText x = floatText y ↔ x = y := by
  have hspell {x : Float} (hx : x.isFinite = true) :
      floatSpelling.spell? x.toBits.toNat = some (floatText x) := by
    rw [spell?_toBits hx, floatText_eq hx]
  refine ⟨fun h => ?_, congrArg floatText⟩
  have hbits := FloatSpelling.spell?_inj (hspell hx) (h ▸ hspell hy)
  have hxBits := x.toBits.toNat_lt
  have hyBits := y.toBits.toNat_lt
  rw [Nat.mod_eq_of_lt hxBits, Nat.mod_eq_of_lt hyBits] at hbits
  exact toBits_inj.mp (UInt64.toNat_inj.mp hbits)

theorem exists_floatText_eq_cons {x : Float} (h : x.isFinite = true) :
    ∃ b rest, floatText x = b :: rest ∧ (Byte.isDigit b || b == Byte.hyphen) = true := by
  rw [floatText_eq h]
  split
  · exact ⟨Byte.hyphen, _, rfl, rfl⟩
  · have hhead := FloatSpelling.isDigit_head?_unsignedText floatSpelling
      (.ofMagnitude (x.toBits.toNat % 2 ^ 63))
    rw [List.nil_append]
    cases htext : floatSpelling.unsignedText (.ofMagnitude (x.toBits.toNat % 2 ^ 63)) with
    | nil =>
      rw [htext] at hhead
      cases hhead
    | cons b rest =>
      rw [htext] at hhead
      exact ⟨b, rest, rfl, by simpa using .inl hhead⟩

/-- No integer is written like a finite float. -/
theorem ofInt_ne_floatText {n : Int} {x : Float} (h : x.isFinite = true) :
    Text.ofInt n ≠ floatText x := by
  intro heq
  have hdot : Byte.dot ∉ Text.ofInt n := Text.notMem_ofInt (by decide) (by decide)
  have hletter : 101 ∉ Text.ofInt n := Text.notMem_ofInt (by decide) (by decide)
  rw [heq, floatText_eq h] at hdot hletter
  rcases FloatSpelling.exists_mem_unsignedText floatSpelling
      (.ofMagnitude (x.toBits.toNat % 2 ^ 63)) with hmem | hmem
  · exact hdot (List.mem_append_right _ hmem)
  · exact hletter (List.mem_append_right _ hmem)

end Json

end QueryBridge
