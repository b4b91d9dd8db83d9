import QueryBridge.Proofs.Duration

/-!
# The reading of an interval

Behind a P stand the years, months and days of an interval, each of them a number with a sign, and
behind a T its hours, minutes and seconds. Any of them may be missing. The text of an interval is read
in this way, in one way only, and what is read denotes the interval.
-/

namespace QueryBridge

namespace Interval

open Text

/-! ### Numbers with a sign -/

/-- A number that stands before its letter: a minus sign or nothing, and digits. -/
@[ext] structure Amount where
  /-- Whether there is a minus sign. -/
  negative : Bool
  /-- The digits. -/
  digits : Text
  nonempty : digits ≠ []
  isDigit : ∀ b ∈ digits, Byte.isDigit b = true

/-- A number of seconds, which may have a point with up to nine digits behind it. -/
@[ext] structure Seconds extends Amount where
  /-- The digits behind the point. A number without a point has none. -/
  fraction : Text
  isDigit_fraction : ∀ b ∈ fraction, Byte.isDigit b = true
  length_fraction : fraction.length ≤ 9

/-- What is read behind the T. -/
@[ext] structure Time where
  /-- The hours. -/
  hours : Option Amount
  /-- The minutes. -/
  minutes : Option Amount
  /-- The seconds. -/
  seconds : Option Seconds

/-- What is read behind the P. -/
@[ext] structure Reading where
  /-- The years. -/
  years : Option Amount
  /-- The months. -/
  months : Option Amount
  /-- The days. -/
  days : Option Amount
  /-- The time, if there is a T. -/
  time : Option Time

/-- The number with its sign. -/
def Amount.text (amount : Amount) : Text := Text.when amount.negative "-" ++ amount.digits

/-- The integer that a number with its sign denotes. -/
def Amount.value (amount : Amount) : Int :=
  if amount.negative then -(toNat amount.digits : Int) else toNat amount.digits

/-- The number with its sign and its fraction. -/
def Seconds.text (seconds : Seconds) : Text :=
  seconds.toAmount.text ++ Text.when (!seconds.fraction.isEmpty) ("." ++ seconds.fraction)

/-- The seconds in nanoseconds. The sign applies to the fraction too. -/
def Seconds.nanos (seconds : Seconds) : Int :=
  let nanos : Nat := toNat seconds.digits * nanosPerSecond +
    toNat seconds.fraction * 10 ^ (9 - seconds.fraction.length)
  if seconds.negative then -(nanos : Int) else nanos

/-- A number that may be missing, with its letter. -/
def field (letter : Text) : Option Text → Text
  | none => []
  | some number => number ++ letter

namespace Time

/-- The hours, minutes and seconds in their order. -/
def text (time : Time) : Text :=
  field "H" (time.hours.map Amount.text) ++ field "M" (time.minutes.map Amount.text) ++
    field "S" (time.seconds.map Seconds.text)

/-- The time in nanoseconds. -/
def nanos (time : Time) : Int :=
  time.hours.elim 0 Amount.value * (3600 * nanosPerSecond) +
    time.minutes.elim 0 Amount.value * (60 * nanosPerSecond) + time.seconds.elim 0 Seconds.nanos

/-- Minutes and seconds do not make up what is written before them, a fraction has no zero at its end,
and there is a component behind the T. -/
structure IsReduced (time : Time) : Prop where
  minutes_lt : ∀ minutes ∈ time.minutes, minutes.value.natAbs < 60
  seconds_lt : ∀ seconds ∈ time.seconds, seconds.toAmount.value.natAbs < 60
  fraction_last : ∀ seconds ∈ time.seconds, seconds.fraction.getLast? ≠ some Byte.zero
  nonempty : time.hours.isSome ∨ time.minutes.isSome ∨ time.seconds.isSome

end Time

namespace Reading

/-- The time with its T, if there is one. -/
def clock : Option Time → Text
  | none => []
  | some time => "T" ++ time.text

/-- The text that is read. -/
def text (reading : Reading) : Text :=
  "P" ++ (field "Y" (reading.years.map Amount.text) ++ field "M" (reading.months.map Amount.text) ++
    field "D" (reading.days.map Amount.text)) ++ clock reading.time

/-- The interval that is denoted. -/
def interval (reading : Reading) : Interval where
  months := 12 * reading.years.elim 0 Amount.value + reading.months.elim 0 Amount.value
  days := reading.days.elim 0 Amount.value
  nanos := reading.time.elim 0 Time.nanos

/-- Months do not make up years, the time is reduced, and there is a component. -/
structure IsReduced (reading : Reading) : Prop where
  months_lt : ∀ months ∈ reading.months, months.value.natAbs < 12
  time_isReduced : ∀ time ∈ reading.time, time.IsReduced
  nonempty : reading.years.isSome ∨ reading.months.isSome ∨ reading.days.isSome ∨
    reading.time.isSome

end Reading

/-! ### There is one reading at most -/

theorem Amount.isUpper_of_mem_text (amount : Amount) :
    ∀ b ∈ amount.text, Byte.isUpper b = false := by
  have hdigits : ∀ b ∈ amount.digits, Byte.isUpper b = false := by
    intro b hb
    exact isUpper_of_isDigit (amount.isDigit b hb)
  rw [text, when_hyphen]
  split
  · exact List.forall_mem_cons.mpr ⟨rfl, hdigits⟩
  · exact hdigits

theorem Amount.head?_text (amount : Amount) :
    amount.text.head? = some Byte.hyphen ↔ amount.negative = true := by
  have hdigits : amount.digits.head? ≠ some Byte.hyphen := by
    intro hhead
    have hdigit := amount.isDigit _ (List.mem_of_head? hhead)
    cases hdigit
  rw [text, when_hyphen]
  cases amount.negative with
  | true => exact iff_of_true rfl rfl
  | false => exact iff_of_false hdigits Bool.false_ne_true

theorem Amount.text_inj {first second : Amount} (h : first.text = second.text) :
    first = second := by
  have hnegative : first.negative = second.negative := by
    rw [Bool.eq_iff_iff, ← head?_text, ← head?_text, h]
  rw [text, text, hnegative] at h
  exact Amount.ext hnegative (List.append_cancel_left h)

theorem Amount.dot_notMem_text (amount : Amount) : Byte.dot ∉ amount.text := by
  have hdigits : Byte.dot ∉ amount.digits := by
    intro hmem
    have hdigit := amount.isDigit _ hmem
    cases hdigit
  rw [text, when_hyphen]
  split
  · intro hmem
    exact hdigits ((List.mem_cons.mp hmem).resolve_left (by decide))
  · exact hdigits

/-- The fraction is what stands behind the point. -/
theorem Seconds.cut?_text (seconds : Seconds) :
    (cut? Byte.dot seconds.text).getD (seconds.text, []) =
      (seconds.toAmount.text, seconds.fraction) := by
  have hpoint : ofString "." = [Byte.dot] := by decide
  have hdot := seconds.toAmount.dot_notMem_text
  rw [text, hpoint]
  cases hfraction : seconds.fraction with
  | nil =>
    have hnone : Text.when (!([] : Text).isEmpty) ([Byte.dot] ++ []) = [] := rfl
    rw [hnone, List.append_nil, cut?_eq_none hdot]
    rfl
  | cons b fraction =>
    have hsome : Text.when (!(b :: fraction).isEmpty) ([Byte.dot] ++ b :: fraction) =
      Byte.dot :: b :: fraction := rfl
    rw [hsome, cut?_append hdot]
    rfl

theorem Seconds.text_inj {first second : Seconds} (h : first.text = second.text) :
    first = second := by
  have hcut := first.cut?_text
  rw [h, second.cut?_text] at hcut
  obtain ⟨hamount, hfraction⟩ := Prod.mk.inj hcut
  have hsame := Amount.text_inj hamount
  exact Seconds.ext (congrArg Amount.negative hsame).symm (congrArg Amount.digits hsame).symm
    hfraction.symm

theorem Seconds.isUpper_of_mem_text (seconds : Seconds) :
    ∀ b ∈ seconds.text, Byte.isUpper b = false := by
  have hfraction : ∀ b ∈ Text.when (!seconds.fraction.isEmpty) ("." ++ seconds.fraction),
      Byte.isUpper b = false := by
    rw [Text.when]
    split
    · refine List.forall_mem_append.mpr ⟨by decide, ?_⟩
      intro b hb
      exact isUpper_of_isDigit (seconds.isDigit_fraction b hb)
    · intro b hb
      cases hb
  exact List.forall_mem_append.mpr ⟨seconds.toAmount.isUpper_of_mem_text, hfraction⟩

/-! ### Fields -/

/-- Three numbers that may be missing, with their letters. -/
def entries (a b c : UInt8) (x y z : Option Text) : List (UInt8 × Text) :=
  entry x.isSome a (x.getD []) ++ (entry y.isSome b (y.getD []) ++ (entry z.isSome c (z.getD []) ++ []))

section Entries

variable {a b c : UInt8} {x y z : Option Text}

theorem spelled_entries (a b c : UInt8) (x y z : Option Text) :
    spelled (entries a b c x y z) = field [a] x ++ field [b] y ++ field [c] z := by
  have hfield (letter : UInt8) (number : Option Text) :
      Text.when number.isSome (number.getD [] ++ [letter]) = field [letter] number := by
    cases number <;> rfl
  simp only [entries, spelled_append, spelled_entry, hfield, List.append_assoc, List.append_nil]

theorem lookup_entries (hab : a ≠ b) (hac : a ≠ c) (hbc : b ≠ c) :
    (entries a b c x y z).lookup a = x ∧ (entries a b c x y z).lookup b = y ∧
      (entries a b c x y z).lookup c = z := by
  have hlast (number : Option Text) :
      (if number.isSome = true then some (number.getD []) else none) = number := by
    cases number <;> rfl
  refine ⟨?_, ?_, ?_⟩
  · rw [entries, lookup_entry_self, lookup_entry_of_ne hab, lookup_entry_of_ne hac]
    exact hlast x
  · rw [entries, lookup_entry_of_ne hab.symm, lookup_entry_self, lookup_entry_of_ne hbc]
    exact hlast y
  · rw [entries, lookup_entry_of_ne hac.symm, lookup_entry_of_ne hbc.symm, lookup_entry_self]
    exact hlast z

/-- No letter stands in a number that may be missing. -/
def HasNoLetter (number : Option Text) : Prop :=
  ∀ text ∈ number, ∀ b ∈ text, Byte.isUpper b = false

theorem HasNoLetter.getD (h : HasNoLetter x) : ∀ b ∈ x.getD [], Byte.isUpper b = false := by
  cases x with
  | none =>
    intro b hb
    cases hb
  | some text => exact h text rfl

/-- Numbers between capital letters are read back. -/
theorem areAmounts_entries (hletters : ∀ letter ∈ [a, b, c], Byte.isUpper letter = true)
    (hx : HasNoLetter x) (hy : HasNoLetter y) (hz : HasNoLetter z) :
    AreAmounts (entries a b c x y z) := by
  apply areAmounts_entry_append (hletters a (by simp)) hx.getD
  apply areAmounts_entry_append (hletters b (by simp)) hy.getD
  apply areAmounts_entry_append (hletters c (by simp)) hz.getD
  intro part hpart
  cases hpart

theorem fst_mem_of_mem_entries {part : UInt8 × Text} (h : part ∈ entries a b c x y z) :
    part.1 ∈ [a, b, c] := by
  simp only [entries, List.mem_append, List.not_mem_nil, or_false] at h
  rcases h with h | h | h <;> simp [fst_of_mem_entry h]

/-- Numbers between three different capital letters are written in one way only. -/
theorem fields_inj {x' y' z' : Option Text} (hdistinct : [a, b, c].Nodup)
    (hletters : ∀ letter ∈ [a, b, c], Byte.isUpper letter = true)
    (hx : HasNoLetter x) (hy : HasNoLetter y) (hz : HasNoLetter z)
    (hx' : HasNoLetter x') (hy' : HasNoLetter y') (hz' : HasNoLetter z')
    (h : field [a] x ++ field [b] y ++ field [c] z =
      field [a] x' ++ field [b] y' ++ field [c] z') : x = x' ∧ y = y' ∧ z = z' := by
  obtain ⟨⟨hab, hac⟩, hbc⟩ : (a ≠ b ∧ a ≠ c) ∧ b ≠ c := by simpa using hdistinct
  have hparts := congrArg (amounts []) h
  rw [← spelled_entries, ← spelled_entries, amounts_spelled (areAmounts_entries hletters hx hy hz),
    amounts_spelled (areAmounts_entries hletters hx' hy' hz')] at hparts
  obtain ⟨hfirst, hsecond, hthird⟩ := lookup_entries (x := x) (y := y) (z := z) hab hac hbc
  rw [hparts] at hfirst hsecond hthird
  obtain ⟨hfirst', hsecond', hthird'⟩ := lookup_entries (x := x') (y := y') (z := z') hab hac hbc
  exact ⟨hfirst.symm.trans hfirst', hsecond.symm.trans hsecond', hthird.symm.trans hthird'⟩

end Entries

theorem hasNoLetter_map {α : Type} {spell : α → Text}
    (h : ∀ number, ∀ b ∈ spell number, Byte.isUpper b = false) (number : Option α) :
    HasNoLetter (number.map spell) := by
  cases number with
  | none =>
    intro text hmem
    cases hmem
  | some number =>
    rintro _ ⟨rfl⟩
    exact h number

theorem hasNoLetter_amount (amount : Option Amount) : HasNoLetter (amount.map Amount.text) :=
  hasNoLetter_map Amount.isUpper_of_mem_text amount

theorem hasNoLetter_seconds (seconds : Option Seconds) :
    HasNoLetter (seconds.map Seconds.text) :=
  hasNoLetter_map Seconds.isUpper_of_mem_text seconds

theorem Time.text_inj {first second : Time} (h : first.text = second.text) : first = second := by
  have hhour : ofString "H" = [72] := by decide
  have hminute : ofString "M" = [77] := by decide
  have hsecond : ofString "S" = [83] := by decide
  rw [text, text, hhour, hminute, hsecond] at h
  obtain ⟨hhours, hminutes, hseconds⟩ := fields_inj (by decide) (by decide)
    (hasNoLetter_amount _) (hasNoLetter_amount _) (hasNoLetter_seconds _)
    (hasNoLetter_amount _) (hasNoLetter_amount _) (hasNoLetter_seconds _) h
  exact Time.ext (Option.map_injective (fun _ _ => Amount.text_inj) hhours)
    (Option.map_injective (fun _ _ => Amount.text_inj) hminutes)
    (Option.map_injective (fun _ _ => Seconds.text_inj) hseconds)

namespace Reading

/-- The years, months and days in their order. -/
def date (reading : Reading) : Text :=
  field [89] (reading.years.map Amount.text) ++ field [77] (reading.months.map Amount.text) ++
    field [68] (reading.days.map Amount.text)

theorem text_eq (reading : Reading) :
    reading.text = 80 :: (reading.date ++ clock reading.time) := by
  have hlead : ofString "P" = [80] := by decide
  have hyear : ofString "Y" = [89] := by decide
  have hmonth : ofString "M" = [77] := by decide
  have hday : ofString "D" = [68] := by decide
  rw [text, hlead, hyear, hmonth, hday]
  rfl

/-- No T stands among the years, months and days. -/
theorem notMem_date (reading : Reading) : 84 ∉ reading.date := by
  have hamounts := areAmounts_entries (a := 89) (b := 77) (c := 68) (by decide)
    (hasNoLetter_amount reading.years) (hasNoLetter_amount reading.months)
    (hasNoLetter_amount reading.days)
  rw [date, ← spelled_entries]
  apply notMem_spelled hamounts rfl
  intro part hpart heq
  have hletter := fst_mem_of_mem_entries hpart
  rw [heq] at hletter
  revert hletter
  decide

/-- The time is what stands behind the T. -/
theorem cut?_date (reading : Reading) :
    cut? 84 (reading.date ++ clock reading.time) =
      reading.time.map fun time => (reading.date, time.text) := by
  have hmark : ofString "T" = [84] := by decide
  cases reading.time with
  | none =>
    rw [clock, List.append_nil]
    exact cut?_eq_none reading.notMem_date
  | some time =>
    rw [clock, hmark]
    exact cut?_append reading.notMem_date

/-- A text has one reading at most. -/
theorem text_inj {first second : Reading} (h : first.text = second.text) : first = second := by
  rw [text_eq, text_eq] at h
  obtain ⟨-, h⟩ := List.cons.inj h
  have hcut := first.cut?_date
  rw [h, second.cut?_date] at hcut
  have hsame : first.date = second.date ∧ first.time = second.time := by
    cases hfirst : first.time with
    | none =>
      rw [hfirst, Option.map_none, Option.map_eq_none_iff] at hcut
      rw [hfirst, hcut] at h
      exact ⟨List.append_cancel_right h, hcut.symm⟩
    | some time =>
      rw [hfirst, Option.map_some, Option.map_eq_some_iff] at hcut
      obtain ⟨time', hsecond, heq⟩ := hcut
      obtain ⟨hdate, htime⟩ := Prod.mk.inj heq
      rw [hsecond, Time.text_inj htime]
      exact ⟨hdate.symm, rfl⟩
  obtain ⟨hdate, htime⟩ := hsame
  obtain ⟨hyears, hmonths, hdays⟩ := fields_inj (by decide) (by decide)
    (hasNoLetter_amount _) (hasNoLetter_amount _) (hasNoLetter_amount _)
    (hasNoLetter_amount _) (hasNoLetter_amount _) (hasNoLetter_amount _) hdate
  exact Reading.ext (Option.map_injective (fun _ _ => Amount.text_inj) hyears)
    (Option.map_injective (fun _ _ => Amount.text_inj) hmonths)
    (Option.map_injective (fun _ _ => Amount.text_inj) hdays) htime

end Reading

/-! ### The text of an interval has a reading -/

/-- A number with the sign that it is given. -/
def Amount.ofNat (negative : Bool) (n : Nat) : Amount where
  negative := negative
  digits := Text.ofNat n
  nonempty := ofNat_ne_nil n
  isDigit := isDigit_of_mem_ofNat

theorem Amount.value_ofNat (negative : Bool) (n : Nat) :
    (ofNat negative n).value = if negative then -(n : Int) else n := by
  rw [value, ofNat, toNat_ofNat]

theorem Amount.natAbs_value_ofNat (negative : Bool) (n : Nat) :
    (ofNat negative n).value.natAbs = n := by
  rw [value_ofNat]
  split <;> omega

/-- A number that is left out if it is zero. -/
def Amount.unlessZero (negative : Bool) (n : Nat) : Option Amount :=
  if n = 0 then none else some (.ofNat negative n)

section UnlessZero

variable {negative : Bool} {n : Nat}

theorem Amount.eq_of_mem_unlessZero {amount : Amount} (h : amount ∈ unlessZero negative n) :
    amount = .ofNat negative n := by
  unfold unlessZero at h
  split at h
  · cases h
  · exact (Option.some.inj h).symm

theorem Amount.isSome_unlessZero (h : n ≠ 0) : (unlessZero negative n).isSome = true := by
  rw [unlessZero, if_neg h]
  rfl

theorem Amount.elim_unlessZero :
    (unlessZero negative n).elim 0 value = if negative then -(n : Int) else n := by
  unfold unlessZero
  split
  next hzero =>
    rw [hzero]
    cases negative <;> rfl
  next => exact value_ofNat negative n

theorem field_unlessZero (letter : Text) :
    field letter ((Amount.unlessZero negative n).map Amount.text) =
      Text.when (n != 0) (Text.when negative "-" ++ Text.ofNat n ++ letter) := by
  unfold Amount.unlessZero
  split
  next hzero =>
    rw [hzero]
    rfl
  next hne =>
    rw [bne_iff_ne.mpr hne]
    rfl

end UnlessZero

/-- An integer is written as its sign and its magnitude. -/
theorem signed_natAbs (n : Int) :
    Text.when (n < 0) "-" ++ Text.ofNat n.natAbs = Text.ofInt n ∧
      (if decide (n < 0) = true then -(n.natAbs : Int) else n.natAbs) = n := by
  cases n with
  | ofNat n =>
    have hsign : decide ((Int.ofNat n) < 0) = false := by simp
    rw [hsign]
    exact ⟨rfl, rfl⟩
  | negSucc n =>
    have hsign : decide (Int.negSucc n < 0) = true := decide_eq_true (Int.negSucc_lt_zero n)
    rw [hsign, when_hyphen]
    exact ⟨rfl, rfl⟩

/-! ### Fractions -/

/-- The digits of a fraction of a second, without zeros at the end. -/
def fractionDigits (nanos : Nat) : Text :=
  ((padded 9 nanos).reverse.dropWhile (· == Byte.zero)).reverse

section Fraction

variable {nanos : Nat}

theorem isDigit_of_mem_fractionDigits : ∀ b ∈ fractionDigits nanos, Byte.isDigit b = true := by
  intro b hb
  have hmem := (List.dropWhile_sublist _).mem (List.mem_reverse.mp hb)
  exact isDigit_of_mem_padded b (List.mem_reverse.mp hmem)

theorem length_fractionDigits (h : nanos < nanosPerSecond) : (fractionDigits nanos).length ≤ 9 := by
  have hle := (List.dropWhile_sublist (· == Byte.zero) (l := (padded 9 nanos).reverse)).length_le
  rwa [List.length_reverse, length_padded (by decide) h, ← List.length_reverse] at hle

theorem getLast?_fractionDigits : (fractionDigits nanos).getLast? ≠ some Byte.zero := by
  intro hlast
  have hhead := List.head?_dropWhile_not (· == Byte.zero) (padded 9 nanos).reverse
  rw [fractionDigits, List.getLast?_reverse] at hlast
  rw [hlast] at hhead
  exact Bool.false_ne_true hhead.symm

theorem toNat_fractionDigits (h : nanos < nanosPerSecond) :
    toNat (fractionDigits nanos) * 10 ^ (9 - (fractionDigits nanos).length) = nanos := by
  by_cases hzero : nanos = 0
  · rw [hzero]
    decide
  · obtain ⟨digits, htext, -, hvalue⟩ := exists_fractionText_eq hzero h
    have hpoint : ofString "." = [Byte.dot] := by decide
    have hdigits : Byte.dot :: fractionDigits nanos = Byte.dot :: digits := by
      rw [← htext, fractionText, bne_iff_ne.mpr hzero, hpoint]
      rfl
    rw [(List.cons.inj hdigits).2]
    exact hvalue

theorem isEmpty_fractionDigits (h : nanos < nanosPerSecond) :
    (!(fractionDigits nanos).isEmpty) = (nanos != 0) := by
  have hvalue := toNat_fractionDigits h
  cases hdigits : fractionDigits nanos with
  | nil =>
    rw [hdigits] at hvalue
    have hzero : nanos = 0 := by
      rw [← hvalue]
      exact Nat.zero_mul _
    rw [hzero]
    rfl
  | cons b digits =>
    have hne : nanos ≠ 0 := by
      rintro rfl
      have hnone : fractionDigits 0 = [] := by decide
      rw [hnone] at hdigits
      cases hdigits
    rw [bne_iff_ne.mpr hne]
    rfl

end Fraction

/-! ### Whole intervals -/

/-- The seconds of a time, and what is less than a second. -/
def Seconds.ofNanos (negative : Bool) (nanos : Nat) : Seconds where
  toAmount := .ofNat negative (nanos / nanosPerSecond % 60)
  fraction := fractionDigits (nanos % nanosPerSecond)
  isDigit_fraction := isDigit_of_mem_fractionDigits
  length_fraction := length_fractionDigits (Nat.mod_lt _ (by decide))

theorem Seconds.text_ofNanos (negative : Bool) (nanos : Nat) :
    (ofNanos negative nanos).text = Text.when negative "-" ++
      Text.ofNat (nanos / nanosPerSecond % 60) ++ fractionText (nanos % nanosPerSecond) := by
  rw [text, ofNanos, isEmpty_fractionDigits (Nat.mod_lt _ (by decide))]
  rfl

theorem Seconds.nanos_ofNanos (negative : Bool) (n : Nat) :
    (ofNanos negative n).nanos =
      if negative then -((n % (60 * nanosPerSecond) : Nat) : Int)
      else (n % (60 * nanosPerSecond) : Nat) := by
  have hparts : n / nanosPerSecond % 60 * nanosPerSecond + n % nanosPerSecond =
      n % (60 * nanosPerSecond) := by
    unfold nanosPerSecond
    omega
  unfold nanos ofNanos Amount.ofNat
  dsimp only
  rw [toNat_ofNat, toNat_fractionDigits (Nat.mod_lt _ (by decide)), hparts]

namespace Time

/-- The hours, minutes and seconds of a time that are not zero. -/
def ofNanos (negative : Bool) (nanos : Nat) : Time where
  hours := Amount.unlessZero negative (nanos / (3600 * nanosPerSecond))
  minutes := Amount.unlessZero negative (nanos / (60 * nanosPerSecond) % 60)
  seconds := if nanos % (60 * nanosPerSecond) = 0 then none else some (.ofNanos negative nanos)

/-- The seconds are written unless they are zero, together with their fraction. -/
theorem field_seconds_ofNanos (negative : Bool) (nanos : Nat) :
    field "S" ((ofNanos negative nanos).seconds.map Seconds.text) =
      Text.when (nanos / nanosPerSecond % 60 != 0 || nanos % nanosPerSecond != 0)
        (Text.when negative "-" ++ Text.ofNat (nanos / nanosPerSecond % 60) ++
          fractionText (nanos % nanosPerSecond) ++ "S") := by
  unfold ofNanos
  dsimp only
  split
  next hzero =>
    have hnone : (nanos / nanosPerSecond % 60 != 0 || nanos % nanosPerSecond != 0) = false := by
      simp only [Bool.or_eq_false_iff, bne_eq_false_iff_eq]
      unfold nanosPerSecond at *
      omega
    rw [hnone]
    rfl
  next hne =>
    have hsome : (nanos / nanosPerSecond % 60 != 0 || nanos % nanosPerSecond != 0) = true := by
      simp only [Bool.or_eq_true, bne_iff_ne]
      unfold nanosPerSecond at *
      omega
    rw [hsome, Option.map_some, Seconds.text_ofNanos]
    rfl

theorem text_ofNanos (negative : Bool) (nanos : Nat) :
    (ofNanos negative nanos).text = timeText (Text.when negative "-") nanos := by
  rw [text, field_seconds_ofNanos, ofNanos, field_unlessZero, field_unlessZero]
  rfl

theorem nanos_ofNanos (negative : Bool) (n : Nat) :
    (ofNanos negative n).nanos = if negative then -(n : Int) else n := by
  have hseconds : (ofNanos negative n).seconds.elim 0 Seconds.nanos =
      if negative then -((n % (60 * nanosPerSecond) : Nat) : Int)
      else (n % (60 * nanosPerSecond) : Nat) := by
    unfold ofNanos
    dsimp only
    split
    next hzero =>
      rw [hzero]
      cases negative <;> rfl
    next => exact Seconds.nanos_ofNanos negative n
  have hparts : n / (3600 * nanosPerSecond) * (3600 * nanosPerSecond) +
      n / (60 * nanosPerSecond) % 60 * (60 * nanosPerSecond) + n % (60 * nanosPerSecond) = n := by
    unfold nanosPerSecond
    omega
  rw [nanos, hseconds, ofNanos, Amount.elim_unlessZero, Amount.elim_unlessZero]
  unfold nanosPerSecond at *
  cases negative with
  | false =>
    simp only [Bool.false_eq_true, if_false]
    omega
  | true =>
    simp only [if_true]
    omega

/-- The hours, minutes and seconds that are written are less than what is written before them. -/
theorem isReduced_ofNanos (negative : Bool) {n : Nat} (h : n ≠ 0) :
    (ofNanos negative n).IsReduced := by
  have hseconds : ∀ seconds ∈ (ofNanos negative n).seconds, seconds = .ofNanos negative n := by
    intro seconds hmem
    unfold ofNanos at hmem
    dsimp only at hmem
    split at hmem
    · cases hmem
    · exact (Option.some.inj hmem).symm
  refine ⟨?_, ?_, ?_, ?_⟩
  · intro minutes hmem
    rw [Amount.eq_of_mem_unlessZero hmem, Amount.natAbs_value_ofNat]
    exact Nat.mod_lt _ (by decide)
  · intro seconds hmem
    rw [hseconds seconds hmem, Seconds.ofNanos, Amount.natAbs_value_ofNat]
    exact Nat.mod_lt _ (by decide)
  · intro seconds hmem
    rw [hseconds seconds hmem]
    exact getLast?_fractionDigits
  · by_cases hseconds : n % (60 * nanosPerSecond) = 0
    · by_cases hminutes : n / (60 * nanosPerSecond) % 60 = 0
      · have hhours : n / (3600 * nanosPerSecond) ≠ 0 := by
          unfold nanosPerSecond at *
          omega
        exact .inl (Amount.isSome_unlessZero hhours)
      · exact .inr (.inl (Amount.isSome_unlessZero hminutes))
    · right
      right
      rw [ofNanos, if_neg hseconds]
      rfl

/-- The time of an interval of nothing. -/
def zero : Time := ⟨none, none, some (.ofNanos false 0)⟩

theorem isReduced_zero : zero.IsReduced where
  minutes_lt minutes h := by cases h
  seconds_lt seconds h := by
    obtain rfl := Option.some.inj h
    decide
  fraction_last seconds h := by
    obtain rfl := Option.some.inj h
    exact getLast?_fractionDigits
  nonempty := .inr (.inr rfl)

end Time

/-- An integer that is left out if it is zero. -/
def Amount.ofInt? (n : Int) : Option Amount := unlessZero (n < 0) n.natAbs

section OfInt

variable {n : Int}

theorem Amount.elim_ofInt? : (ofInt? n).elim 0 value = n := by
  rw [ofInt?, elim_unlessZero]
  exact (signed_natAbs n).2

theorem Amount.isSome_ofInt? (h : n ≠ 0) : (ofInt? n).isSome = true :=
  isSome_unlessZero (Int.natAbs_ne_zero.mpr h)

theorem field_ofInt? (letter : Text) :
    field letter ((Amount.ofInt? n).map Amount.text) = component n letter := by
  have hwanted : (n.natAbs != 0) = (n != 0) := by
    rw [Bool.eq_iff_iff, bne_iff_ne, bne_iff_ne]
    exact Int.natAbs_ne_zero
  rw [Amount.ofInt?, field_unlessZero, (signed_natAbs n).1, hwanted, component]

theorem component_eq_nil {letter : Text} (h : component n letter = []) : n = 0 := by
  by_contra hne
  rw [component, bne_iff_ne.mpr hne] at h
  exact ofInt_ne_nil n (List.append_eq_nil_iff.mp h).1

end OfInt

namespace Reading

/-- The components of an interval that are not zero. An interval of nothing has zero seconds. -/
def ofInterval (interval : Interval) : Reading where
  years := Amount.ofInt? (interval.months.tdiv 12)
  months := Amount.ofInt? (interval.months.tmod 12)
  days := Amount.ofInt? interval.days
  time :=
    if interval.nanos ≠ 0 then some (.ofNanos (interval.nanos < 0) interval.nanos.natAbs)
    else if interval.months = 0 ∧ interval.days = 0 then some .zero
    else none

theorem interval_ofInterval (interval : Interval) : (ofInterval interval).interval = interval := by
  have htime : (ofInterval interval).time.elim 0 Time.nanos = interval.nanos := by
    unfold ofInterval
    dsimp only
    split
    · rw [Option.elim_some, Time.nanos_ofNanos]
      exact (signed_natAbs interval.nanos).2
    next hzero =>
      rw [not_not.mp hzero]
      split
      · decide
      · rfl
  rw [Reading.interval, htime, ofInterval]
  dsimp only
  rw [Amount.elim_ofInt?, Amount.elim_ofInt?, Amount.elim_ofInt?, Int.mul_tdiv_add_tmod]

theorem isReduced_ofInterval (interval : Interval) : (ofInterval interval).IsReduced := by
  refine ⟨?_, ?_, ?_⟩
  · intro months hmem
    rw [Amount.eq_of_mem_unlessZero hmem, Amount.natAbs_value_ofNat]
    rw [Int.natAbs_tmod]
    exact Nat.mod_lt _ (by decide)
  · intro time hmem
    unfold ofInterval at hmem
    dsimp only at hmem
    split at hmem
    next hne =>
      obtain rfl := Option.some.inj hmem
      exact Time.isReduced_ofNanos _ (Int.natAbs_ne_zero.mpr hne)
    · split at hmem
      · obtain rfl := Option.some.inj hmem
        exact Time.isReduced_zero
      · cases hmem
  · by_cases hmonths : interval.months = 0
    · by_cases hdays : interval.days = 0
      · right
        right
        right
        unfold ofInterval
        dsimp only
        split
        · rfl
        · rw [if_pos ⟨hmonths, hdays⟩]
          rfl
      · exact .inr (.inr (.inl (Amount.isSome_ofInt? hdays)))
    · by_cases hyears : interval.months.tdiv 12 = 0
      · have hrest : interval.months.tmod 12 ≠ 0 := by
          have hsum := Int.mul_tdiv_add_tmod interval.months 12
          omega
        exact .inr (.inl (Amount.isSome_ofInt? hrest))
      · exact .inl (Amount.isSome_ofInt? hyears)

theorem text_ofInterval (interval : Interval) : (ofInterval interval).text = interval.text := by
  have hdate : field "Y" ((ofInterval interval).years.map Amount.text) ++
      field "M" ((ofInterval interval).months.map Amount.text) ++
      field "D" ((ofInterval interval).days.map Amount.text) =
        component (interval.months.tdiv 12) "Y" ++ component (interval.months.tmod 12) "M" ++
          component interval.days "D" := by
    rw [ofInterval, field_ofInt?, field_ofInt?, field_ofInt?]
  rw [text, hdate, Interval.text]
  by_cases hnanos : interval.nanos = 0
  · by_cases hzero : interval.months = 0 ∧ interval.days = 0
    · obtain ⟨months, days, nanos⟩ := interval
      obtain ⟨rfl, rfl⟩ := hzero
      obtain rfl := hnanos
      decide
    · have htime : (ofInterval interval).time = none := by
        rw [ofInterval, if_neg (not_not.mpr hnanos), if_neg hzero]
      have hnone : (interval.nanos != 0) = false := bne_eq_false_iff_eq.mpr hnanos
      rw [htime, hnone, Text.when, if_neg Bool.false_ne_true, clock, if_neg]
      intro hempty
      rw [Bool.and_eq_true, List.isEmpty_iff] at hempty
      obtain ⟨hmonths, hdays⟩ := List.append_eq_nil_iff.mp hempty.1
      obtain ⟨hyears, hmonths⟩ := List.append_eq_nil_iff.mp hmonths
      have hsum := Int.mul_tdiv_add_tmod interval.months 12
      rw [component_eq_nil hyears, component_eq_nil hmonths] at hsum
      exact hzero ⟨hsum.symm, component_eq_nil hdays⟩
  · have htime : (ofInterval interval).time =
        some (.ofNanos (interval.nanos < 0) interval.nanos.natAbs) := by
      rw [ofInterval, if_pos hnanos]
    have hmark : ofString "T" = [84] := by decide
    have hwanted (time : Text) : Text.when true time = time := rfl
    rw [htime, bne_iff_ne.mpr hnanos, clock, Time.text_ofNanos, hmark, hwanted, if_neg (by simp)]

end Reading

/-- The text of an interval is read in one way: as components in their order, each with a sign of its
own, which denote the interval. Months, minutes and seconds do not make up what stands before them, a
fraction ends in no zero, and there is a component. So no two intervals are written alike. -/
theorem text_reads (interval : Interval) :
    (∃ reading : Reading, (∀ other : Reading, other.text = interval.text ↔ other = reading) ∧
      reading.interval = interval ∧ reading.IsReduced) ∧
    ∀ other : Interval, other.text = interval.text ↔ other = interval := by
  have hunique (other : Reading) :
      other.text = interval.text ↔ other = .ofInterval interval := by
    rw [← Reading.text_ofInterval]
    constructor
    · exact Reading.text_inj
    · exact congrArg Reading.text
  refine ⟨⟨.ofInterval interval, hunique, ?_, ?_⟩, ?_⟩
  · exact Reading.interval_ofInterval interval
  · exact Reading.isReduced_ofInterval interval
  · intro other
    constructor
    · intro htext
      rw [← Reading.text_ofInterval other] at htext
      rw [← Reading.interval_ofInterval other, (hunique _).mp htext]
      exact Reading.interval_ofInterval interval
    · exact congrArg Interval.text

example : text ⟨-14, 1, -500000000⟩ = "P-1Y-2M1DT-0.5S" := by decide

end Interval

end QueryBridge
