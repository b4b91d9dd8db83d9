import QueryBridge.Duration
import QueryBridge.Proofs.Text.Cut
import QueryBridge.Proofs.Text.Padded

/-!
# Intervals are read back from their texts

The text of an interval is a list of numbers with a letter behind each, and a T stands before those of
the time. The number of a letter that is missing is zero. Read like this, the text of an interval
denotes the interval, so no two intervals are written alike.
-/

namespace QueryBridge

namespace Interval

open Text

/-! ### Numbers with letters -/

/-- Numbers with a letter behind each. -/
def spelled (parts : List (UInt8 × Text)) : Text := parts.flatMap fun part => part.2 ++ [part.1]

/-- The numbers of a text with the letter behind each, where the first number has begun already. -/
def amounts (number : Text) : Text → List (UInt8 × Text)
  | [] => []
  | b :: text =>
    if Byte.isUpper b then (b, number) :: amounts [] text else amounts (number ++ [b]) text

/-- Every part is a number without letters and a letter behind it. -/
def AreAmounts (parts : List (UInt8 × Text)) : Prop :=
  ∀ part ∈ parts, Byte.isUpper part.1 = true ∧ ∀ b ∈ part.2, Byte.isUpper b = false

theorem amounts_append {number digits text : Text} {letter : UInt8}
    (hdigits : ∀ b ∈ digits, Byte.isUpper b = false) (hletter : Byte.isUpper letter = true) :
    amounts number (digits ++ letter :: text) = (letter, number ++ digits) :: amounts [] text := by
  induction digits generalizing number with
  | nil => rw [List.nil_append, amounts, if_pos hletter, List.append_nil]
  | cons b digits ih =>
    obtain ⟨hb, hdigits⟩ := List.forall_mem_cons.mp hdigits
    rw [List.cons_append, amounts, hb, if_neg (by decide), ih hdigits, List.append_assoc]
    rfl

theorem amounts_spelled {parts : List (UInt8 × Text)} (h : AreAmounts parts) :
    amounts [] (spelled parts) = parts := by
  induction parts with
  | nil => rfl
  | cons part parts ih =>
    obtain ⟨⟨hletter, hnumber⟩, hrest⟩ := List.forall_mem_cons.mp h
    have hsplit : spelled (part :: parts) = part.2 ++ part.1 :: spelled parts := by
      rw [spelled, List.flatMap_cons, List.append_assoc]
      rfl
    rw [hsplit, amounts_append hnumber hletter, ih hrest]
    rfl

/-- The number in front of a letter. -/
def amount (letter : UInt8) (part : Text) : Text := (List.lookup letter (amounts [] part)).getD []

/-- The integer in front of a letter, or zero. -/
def whole (letter : UInt8) (part : Text) : Int := (toInt? (amount letter part)).getD 0

/-- A number of seconds in nanoseconds. A minus sign applies to the fraction too. -/
def nanosOfSeconds (number : Text) : Int :=
  let (seconds, fraction) := (cut? Byte.dot number).getD (number, [])
  let nanos := ((toInt? seconds).getD 0).natAbs * nanosPerSecond +
    toNat fraction * 10 ^ (9 - fraction.length)
  if number.head? = some Byte.hyphen then -nanos else nanos

/-- The interval that a text denotes. -/
def ofText (text : Text) : Interval :=
  let body := text.drop 1
  let (date, time) := (cut? 84 body).getD (body, [])
  { months := 12 * whole 89 date + whole 77 date
    days := whole 68 date
    nanos := whole 72 time * (3600 * nanosPerSecond) + whole 77 time * (60 * nanosPerSecond) +
      nanosOfSeconds (amount 83 time) }

/-! ### Reading back -/

/-- A number with its letter, if it is wanted. -/
def entry (wanted : Bool) (letter : UInt8) (number : Text) : List (UInt8 × Text) :=
  if wanted then [(letter, number)] else []

section Entry

variable {wanted : Bool} {letter other : UInt8} {number : Text} {rest : List (UInt8 × Text)}

theorem spelled_append (first second : List (UInt8 × Text)) :
    spelled (first ++ second) = spelled first ++ spelled second := List.flatMap_append

theorem spelled_entry : spelled (entry wanted letter number) = Text.when wanted (number ++ [letter]) := by
  cases wanted
  · rfl
  · exact List.append_nil _

theorem lookup_entry_self : List.lookup letter (entry wanted letter number ++ rest) =
    if wanted then some number else List.lookup letter rest := by
  cases wanted
  · rfl
  · exact List.lookup_cons_self

theorem lookup_entry_of_ne (h : letter ≠ other) :
    List.lookup letter (entry wanted other number ++ rest) = List.lookup letter rest := by
  cases wanted
  · rfl
  · rw [entry, if_pos rfl, List.singleton_append, List.lookup_cons, beq_eq_false_iff_ne.mpr h]

theorem fst_of_mem_entry {part : UInt8 × Text} (h : part ∈ entry wanted letter number) :
    part.1 = letter := by
  cases wanted
  · cases h
  · rw [List.mem_singleton.mp h]

theorem areAmounts_entry_append (hletter : Byte.isUpper letter = true)
    (hnumber : ∀ b ∈ number, Byte.isUpper b = false) (hrest : AreAmounts rest) :
    AreAmounts (entry wanted letter number ++ rest) := by
  cases wanted
  · exact hrest
  · exact List.forall_mem_cons.mpr ⟨⟨hletter, hnumber⟩, hrest⟩

end Entry

theorem isUpper_of_isDigit {b : UInt8} (h : Byte.isDigit b = true) : Byte.isUpper b = false := by
  simp only [Byte.isDigit, Byte.isUpper, Bool.and_eq_true, Bool.and_eq_false_iff,
    decide_eq_true_eq, decide_eq_false_iff_not, UInt8.le_iff_toNat_le, UInt8.reduceToNat] at h ⊢
  omega

theorem isUpper_of_mem_ofInt {n : Int} : ∀ b ∈ ofInt n, Byte.isUpper b = false := by
  intro b hb
  rcases isDigit_of_mem_ofInt hb with h | rfl
  · exact isUpper_of_isDigit h
  · rfl

/-- A minus sign, if it is wanted. -/
theorem when_hyphen (negative : Bool) :
    Text.when negative "-" = if negative then [Byte.hyphen] else [] := by
  cases negative <;> decide

theorem isUpper_of_mem_signed {negative : Bool} {n : Nat} :
    ∀ b ∈ Text.when negative "-" ++ ofNat n, Byte.isUpper b = false := by
  have hdigits : ∀ b ∈ ofNat n, Byte.isUpper b = false := fun b hb =>
    isUpper_of_isDigit (isDigit_of_mem_ofNat b hb)
  rw [when_hyphen]
  cases negative with
  | false => exact hdigits
  | true => exact List.forall_mem_cons.mpr ⟨rfl, hdigits⟩

/-- A number with a sign in front is read with it. -/
theorem toInt?_signed (negative : Bool) (n : Nat) :
    toInt? (Text.when negative "-" ++ ofNat n) = some (if negative then -(n : Int) else n) := by
  rw [when_hyphen]
  cases negative with
  | false =>
    refine (toInt?_of_digits (ofNat_ne_nil n) isDigit_of_mem_ofNat).trans ?_
    rw [toNat_ofNat]
    rfl
  | true =>
    refine (toInt?_hyphen (ofNat_ne_nil n) isDigit_of_mem_ofNat).trans ?_
    rw [toNat_ofNat]
    rfl

/-! ### Fractions -/

/-- The digits of a fraction are those of nine places without the zeros at the end. -/
theorem exists_fractionText_eq {nanos : Nat} (hpos : nanos ≠ 0) (hless : nanos < nanosPerSecond) :
    ∃ digits, fractionText nanos = Byte.dot :: digits ∧
      (∀ b ∈ digits, Byte.isDigit b = true) ∧ toNat digits * 10 ^ (9 - digits.length) = nanos := by
  have hpoint : ofString "." = [Byte.dot] := by decide
  have hsplit := List.takeWhile_append_dropWhile (p := (· == Byte.zero))
    (l := (padded 9 nanos).reverse)
  generalize hzeros : (padded 9 nanos).reverse.takeWhile (· == Byte.zero) = zeros at hsplit
  generalize hdigits : (padded 9 nanos).reverse.dropWhile (· == Byte.zero) = digits at hsplit
  have hreplicate : zeros = List.replicate zeros.length Byte.zero := by
    refine List.eq_replicate_iff.mpr ⟨rfl, fun b hb => ?_⟩
    rw [← hzeros] at hb
    simpa using List.mem_takeWhile_imp hb
  have hpadded : digits.reverse ++ List.replicate zeros.length Byte.zero = padded 9 nanos := by
    rw [← List.reverse_reverse (padded 9 nanos), ← hsplit, List.reverse_append, hreplicate,
      List.reverse_replicate, List.length_replicate]
  have hlength : digits.length + zeros.length = 9 := by
    have := congrArg List.length hpadded
    rwa [List.length_append, List.length_reverse, List.length_replicate,
      length_padded (by decide) hless] at this
  refine ⟨digits.reverse, ?_, fun b hb => ?_, ?_⟩
  · rw [fractionText, hdigits, bne_iff_ne.mpr hpos, hpoint]
    rfl
  · exact isDigit_of_mem_padded b (hpadded ▸ List.mem_append_left _ hb)
  · have hvalue := congrArg toNat hpadded
    rw [toNat_padded, toNat_append, toNat_replicate_zero, List.length_replicate] at hvalue
    have hplaces : 9 - digits.reverse.length = zeros.length := by
      rw [List.length_reverse]
      omega
    rw [hplaces]
    exact hvalue

theorem dot_notMem_signed (negative : Bool) (n : Nat) :
    Byte.dot ∉ Text.when negative "-" ++ ofNat n := by
  have hdigits : Byte.dot ∉ ofNat n := fun hmem => by cases isDigit_of_mem_ofNat _ hmem
  rw [when_hyphen]
  cases negative with
  | false => exact hdigits
  | true => exact fun hmem => hdigits ((List.mem_cons.mp hmem).resolve_left (by decide))

theorem head?_signed_eq_hyphen_iff (negative : Bool) (n : Nat) (behind : Text) :
    (Text.when negative "-" ++ ofNat n ++ behind).head? = some Byte.hyphen ↔ negative = true := by
  obtain ⟨b, digits, hcons⟩ := List.exists_cons_of_ne_nil (ofNat_ne_nil n)
  have hdigit : Byte.isDigit b = true := isDigit_of_mem_ofNat b (hcons ▸ List.mem_cons_self)
  have hb : b ≠ Byte.hyphen := by
    rintro rfl
    cases hdigit
  rw [when_hyphen, hcons]
  cases negative <;> simp [hb]

/-- The fraction is what is behind the point, if there is one. -/
theorem exists_cut?_fractionText {seconds : Text} (hdot : Byte.dot ∉ seconds) {fraction : Nat}
    (h : fraction < nanosPerSecond) :
    ∃ digits, (cut? Byte.dot (seconds ++ fractionText fraction)).getD
        (seconds ++ fractionText fraction, []) = (seconds, digits) ∧
      toNat digits * 10 ^ (9 - digits.length) = fraction := by
  by_cases hzero : fraction = 0
  · refine ⟨[], ?_, by rw [hzero]; rfl⟩
    have hnone : fractionText fraction = [] := by rw [hzero]; rfl
    rw [hnone, List.append_nil, cut?_eq_none hdot]
    rfl
  · obtain ⟨digits, htext, -, hvalue⟩ := exists_fractionText_eq hzero h
    refine ⟨digits, ?_, hvalue⟩
    rw [htext, cut?_append hdot]
    rfl

theorem nanosOfSeconds_eq (negative : Bool) (seconds : Nat) {fraction : Nat}
    (h : fraction < nanosPerSecond) :
    nanosOfSeconds (Text.when negative "-" ++ ofNat seconds ++ fractionText fraction) =
      if negative then -((seconds * nanosPerSecond + fraction : Nat) : Int)
      else (seconds * nanosPerSecond + fraction : Nat) := by
  obtain ⟨digits, hcut, hvalue⟩ := exists_cut?_fractionText (dot_notMem_signed negative seconds) h
  unfold nanosOfSeconds
  rw [hcut]
  dsimp only
  rw [toInt?_signed, hvalue]
  simp only [head?_signed_eq_hyphen_iff, Option.getD_some]
  cases negative <;> simp

/-! ### Numbers that are left out -/

theorem toInt?_unless_zero (n : Int) :
    (toInt? ((if (n != 0) = true then some (ofInt n) else none).getD [])).getD 0 = n := by
  by_cases h : n = 0
  · rw [h]
    rfl
  · simp [h, toInt?_ofInt]

theorem toInt?_signed_unless_zero (negative : Bool) (n : Nat) :
    (toInt? ((if (n != 0) = true then
      some (Text.when negative "-" ++ ofNat n) else none).getD [])).getD 0 =
        if negative then -(n : Int) else n := by
  by_cases h : n = 0
  · rw [h]
    cases negative <;> rfl
  · simp [h, toInt?_signed]

theorem nanosOfSeconds_unless_zero (negative : Bool) (seconds : Nat) {fraction : Nat}
    (hless : fraction < nanosPerSecond) :
    nanosOfSeconds ((if (seconds != 0 || fraction != 0) = true then
      some (Text.when negative "-" ++ ofNat seconds ++ fractionText fraction) else none).getD []) =
        if negative then -((seconds * nanosPerSecond + fraction : Nat) : Int)
        else (seconds * nanosPerSecond + fraction : Nat) := by
  by_cases h : seconds = 0 ∧ fraction = 0
  · rw [h.1, h.2]
    cases negative <;> rfl
  · have hwanted : (seconds != 0 || fraction != 0) = true := by
      simp only [Bool.or_eq_true, bne_iff_ne]
      omega
    rw [if_pos hwanted]
    exact nanosOfSeconds_eq negative seconds hless

/-! ### Whole intervals -/

/-- The years, months and days of an interval that are not zero. -/
def dateAmounts (interval : Interval) : List (UInt8 × Text) :=
  entry (interval.months.tdiv 12 != 0) 89 (ofInt (interval.months.tdiv 12)) ++
    (entry (interval.months.tmod 12 != 0) 77 (ofInt (interval.months.tmod 12)) ++
      (entry (interval.days != 0) 68 (ofInt interval.days) ++ []))

/-- The hours, minutes and seconds of an interval that are not zero. -/
def timeAmounts (sign : Text) (nanos : Nat) : List (UInt8 × Text) :=
  entry (nanos / (3600 * nanosPerSecond) != 0) 72 (sign ++ ofNat (nanos / (3600 * nanosPerSecond))) ++
    (entry (nanos / (60 * nanosPerSecond) % 60 != 0) 77
        (sign ++ ofNat (nanos / (60 * nanosPerSecond) % 60)) ++
      (entry (nanos / nanosPerSecond % 60 != 0 || nanos % nanosPerSecond != 0) 83
        (sign ++ ofNat (nanos / nanosPerSecond % 60) ++ fractionText (nanos % nanosPerSecond)) ++ []))

theorem date_eq (interval : Interval) :
    component (interval.months.tdiv 12) "Y" ++ component (interval.months.tmod 12) "M" ++
      component interval.days "D" = spelled interval.dateAmounts := by
  have hyear : ofString "Y" = [89] := by decide
  have hmonth : ofString "M" = [77] := by decide
  have hday : ofString "D" = [68] := by decide
  simp only [dateAmounts, spelled_append, spelled_entry, component, hyear, hmonth, hday,
    List.append_assoc, List.append_nil]

theorem timeText_eq (sign : Text) (nanos : Nat) :
    timeText sign nanos = spelled (timeAmounts sign nanos) := by
  have hhour : ofString "H" = [72] := by decide
  have hminute : ofString "M" = [77] := by decide
  have hsecond : ofString "S" = [83] := by decide
  simp only [timeText, timeAmounts, spelled_append, spelled_entry, hhour, hminute, hsecond,
    List.append_assoc, List.append_nil]

theorem areAmounts_dateAmounts (interval : Interval) : AreAmounts interval.dateAmounts :=
  areAmounts_entry_append rfl isUpper_of_mem_ofInt <|
    areAmounts_entry_append rfl isUpper_of_mem_ofInt <|
      areAmounts_entry_append rfl isUpper_of_mem_ofInt fun _ h => nomatch h

theorem isUpper_of_mem_fractionText {nanos : Nat} (h : nanos < nanosPerSecond) :
    ∀ b ∈ fractionText nanos, Byte.isUpper b = false := by
  by_cases hzero : nanos = 0
  · rw [hzero]
    exact fun _ h => nomatch h
  · obtain ⟨digits, htext, hdigits, -⟩ := exists_fractionText_eq hzero h
    rw [htext]
    exact List.forall_mem_cons.mpr ⟨rfl, fun b hb => isUpper_of_isDigit (hdigits b hb)⟩

theorem areAmounts_timeAmounts (negative : Bool) (nanos : Nat) :
    AreAmounts (timeAmounts (Text.when negative "-") nanos) :=
  areAmounts_entry_append rfl isUpper_of_mem_signed <|
    areAmounts_entry_append rfl isUpper_of_mem_signed <|
      areAmounts_entry_append rfl (List.forall_mem_append.mpr ⟨isUpper_of_mem_signed,
        isUpper_of_mem_fractionText (Nat.mod_lt _ (by decide))⟩) fun _ h => nomatch h

/-- The years, months and days of a date are read back. -/
theorem whole_dateAmounts (interval : Interval) :
    whole 89 (spelled interval.dateAmounts) = interval.months.tdiv 12 ∧
      whole 77 (spelled interval.dateAmounts) = interval.months.tmod 12 ∧
      whole 68 (spelled interval.dateAmounts) = interval.days := by
  unfold whole amount
  rw [amounts_spelled interval.areAmounts_dateAmounts, dateAmounts]
  refine ⟨?_, ?_, ?_⟩
  · rw [lookup_entry_self, lookup_entry_of_ne (by decide), lookup_entry_of_ne (by decide)]
    exact toInt?_unless_zero _
  · rw [lookup_entry_of_ne (by decide), lookup_entry_self, lookup_entry_of_ne (by decide)]
    exact toInt?_unless_zero _
  · rw [lookup_entry_of_ne (by decide), lookup_entry_of_ne (by decide), lookup_entry_self]
    exact toInt?_unless_zero _

/-- The hours, minutes and seconds of a time are read back. -/
theorem nanos_timeAmounts (negative : Bool) (nanos : Nat) :
    let time := spelled (timeAmounts (Text.when negative "-") nanos)
    whole 72 time * (3600 * nanosPerSecond) + whole 77 time * (60 * nanosPerSecond) +
      nanosOfSeconds (amount 83 time) = if negative then -(nanos : Int) else nanos := by
  have hparts : nanos / (3600 * nanosPerSecond) * (3600 * nanosPerSecond) +
      nanos / (60 * nanosPerSecond) % 60 * (60 * nanosPerSecond) +
      (nanos / nanosPerSecond % 60 * nanosPerSecond + nanos % nanosPerSecond) = nanos := by
    unfold nanosPerSecond
    omega
  intro time
  unfold time whole amount
  rw [amounts_spelled (areAmounts_timeAmounts negative nanos), timeAmounts, lookup_entry_self,
    lookup_entry_of_ne (by decide), lookup_entry_of_ne (by decide),
    lookup_entry_of_ne (by decide), lookup_entry_self, lookup_entry_of_ne (by decide),
    lookup_entry_of_ne (by decide), lookup_entry_of_ne (by decide), lookup_entry_self]
  rw [List.lookup_nil, List.lookup_nil, List.lookup_nil, toInt?_signed_unless_zero,
    toInt?_signed_unless_zero, nanosOfSeconds_unless_zero _ _ (Nat.mod_lt _ (by decide))]
  generalize nanos / (3600 * nanosPerSecond) = hours at *
  generalize nanos / (60 * nanosPerSecond) % 60 = minutes at *
  generalize nanos / nanosPerSecond % 60 * nanosPerSecond + nanos % nanosPerSecond = seconds at *
  rw [← hparts]
  clear hparts time
  generalize nanosPerSecond = unit
  cases negative with
  | false =>
    simp only [Bool.false_eq_true, if_false, Int.natCast_add, Int.natCast_mul]
    rfl
  | true =>
    simp only [if_true, Int.natCast_add, Int.natCast_mul, Int.neg_mul, Int.neg_add]
    rfl

theorem notMem_spelled {letter : UInt8} {parts : List (UInt8 × Text)} (h : AreAmounts parts)
    (hletter : Byte.isUpper letter = true) (hparts : ∀ part ∈ parts, part.1 ≠ letter) :
    letter ∉ spelled parts := by
  intro hmem
  obtain ⟨part, hpart, hmem⟩ := List.mem_flatMap.mp hmem
  rcases List.mem_append.mp hmem with hmem | hmem
  · rw [(h part hpart).2 letter hmem] at hletter
    cases hletter
  · exact hparts part hpart (List.mem_singleton.mp hmem).symm

theorem notMem_date (interval : Interval) : 84 ∉ spelled interval.dateAmounts := by
  refine notMem_spelled interval.areAmounts_dateAmounts rfl fun part hpart => ?_
  simp only [dateAmounts, List.mem_append, List.not_mem_nil, or_false] at hpart
  rcases hpart with h | h | h <;> (rw [fst_of_mem_entry h]; decide)

/-- A text without a T has no time. -/
theorem ofText_date {date : Text} (h : 84 ∉ date) : ofText (80 :: date) =
    ⟨12 * whole 89 date + whole 77 date, whole 68 date, 0⟩ := by
  have hnone (letter : UInt8) : whole letter [] = 0 := rfl
  have hseconds : nanosOfSeconds (amount 83 []) = 0 := by decide
  unfold ofText
  dsimp only
  rw [List.drop_one, List.tail_cons, cut?_eq_none h, Option.getD_none]
  dsimp only
  rw [hnone, hnone, hseconds, Int.zero_mul, Int.zero_mul, Int.zero_add, Int.zero_add]

/-- What is behind the T is the time. -/
theorem ofText_time {date : Text} (h : 84 ∉ date) (time : Text) :
    ofText (80 :: (date ++ 84 :: time)) =
      ⟨12 * whole 89 date + whole 77 date, whole 68 date,
        whole 72 time * (3600 * nanosPerSecond) + whole 77 time * (60 * nanosPerSecond) +
          nanosOfSeconds (amount 83 time)⟩ := by
  unfold ofText
  dsimp only
  rw [List.drop_one, List.tail_cons, cut?_append h]
  rfl

/-- The text of an interval denotes the interval. -/
theorem ofText_text (interval : Interval) : ofText interval.text = interval := by
  have hlead : ofString "P" = [80] := by decide
  have hmark : ofString "T" = [84] := by decide
  have hparts : (⟨12 * whole 89 (spelled interval.dateAmounts) +
      whole 77 (spelled interval.dateAmounts), whole 68 (spelled interval.dateAmounts),
      interval.nanos⟩ : Interval) = interval := by
    obtain ⟨hyear, hmonth, hday⟩ := whole_dateAmounts interval
    rw [hyear, hmonth, hday, Int.mul_tdiv_add_tmod]
  have hdate := notMem_date interval
  unfold text
  dsimp only
  rw [date_eq, hmark]
  refine Eq.trans ?_ hparts
  generalize spelled interval.dateAmounts = date at hdate
  by_cases hzero : interval.nanos = 0
  · have hnone : (interval.nanos != 0) = false := by
      rw [hzero]
      rfl
    rw [hnone, hzero, Text.when, if_neg Bool.false_ne_true]
    split
    next hempty =>
      rw [Bool.and_eq_true, List.isEmpty_iff] at hempty
      rw [hempty.1]
      decide
    next =>
      rw [hlead, List.append_nil, List.singleton_append]
      exact ofText_date hdate
  · have hsign : (if decide (interval.nanos < 0) = true then -(interval.nanos.natAbs : Int)
        else interval.nanos.natAbs) = interval.nanos := by
      by_cases hneg : interval.nanos < 0
      · rw [if_pos (decide_eq_true hneg)]
        omega
      · rw [if_neg fun h => hneg (of_decide_eq_true h)]
        omega
    rw [bne_iff_ne.mpr hzero, Text.when, if_pos rfl, timeText_eq, if_neg (by simp), hlead,
      List.append_assoc, List.singleton_append, List.singleton_append]
    refine (ofText_time hdate _).trans ?_
    rw [nanos_timeAmounts, hsign]

/-- No two intervals are written alike. -/
theorem text_inj {first second : Interval} : first.text = second.text ↔ first = second :=
  ⟨fun h => by rw [← ofText_text first, h, ofText_text], congrArg text⟩

example : ofText "P1Y-2M3DT-4H-5M-6.5S" = ⟨10, 3, -14706500000000⟩ := by decide

end Interval

end QueryBridge
