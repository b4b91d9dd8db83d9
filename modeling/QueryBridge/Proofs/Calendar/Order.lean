import QueryBridge.Proofs.Calendar.Instant

/-!
# The order of timestamps

In the text of an instant every number but the year has a fixed width, so no two instants are written
alike that lie in different milliseconds. In the years 0 to 9999 the year has a fixed width too, and
the texts are in the order of the milliseconds, whatever units the instants are counted in.
-/

namespace QueryBridge

namespace Date

theorem yearText_eq_padded {year : Int} (h : 0 ≤ year ∧ year ≤ 9999) :
    yearText year = Text.padded 4 year.toNat := by
  rw [yearText, if_neg (by omega), if_neg (by omega)]
  congr 1
  omega

/-- The text of a year is read as the year. -/
theorem toInt?_yearText (year : Int) : Text.toInt? (yearText year) = some year := by
  have hdigits := @Text.isDigit_of_mem_padded 4 year.natAbs
  unfold yearText
  split
  · rw [Text.toInt?_hyphen Text.padded_ne_nil hdigits, Text.toNat_padded]
    congr 1
    omega
  · split
    · rw [Text.toInt?_plus Text.padded_ne_nil hdigits, Text.toNat_padded]
      congr 1
      omega
    · rw [Text.toInt?_of_digits Text.padded_ne_nil hdigits, Text.toNat_padded]
      congr 1
      omega

theorem yearText_inj {a b : Int} : yearText a = yearText b ↔ a = b := by
  refine ⟨fun h => ?_, congrArg yearText⟩
  have hread := toInt?_yearText a
  rw [h, toInt?_yearText] at hread
  exact (Option.some.inj hread).symm

end Date

namespace Instant

/-- Month and day, and hours, minutes, seconds and milliseconds, each with what is behind it. -/
def form : List (Nat × UInt8) :=
  [(2, Byte.hyphen), (2, 84), (2, Byte.colon), (2, Byte.colon), (2, Byte.dot), (3, 90)]

/-- The numbers behind the year of an instant. -/
def numbers (instant : Instant) : List Nat :=
  [instant.date.month, instant.date.day, instant.clock.second / 3600,
    instant.clock.second / 60 % 60, instant.clock.second % 60, instant.clock.nanos / 1000000]

theorem text_eq_fields (instant : Instant) : instant.text =
    Date.yearText instant.date.year ++ Byte.hyphen :: Text.fields form instant.numbers := by
  rw [text, Date.text, Clock.text, Clock.milliText]
  simp only [form, numbers, Text.fields, List.append_assoc]
  rfl

theorem fit_numbers (nanos : Int) : Text.Fit form (ofNanos nanos).numbers := by
  have hvalid := Date.isValid_ofDays (nanos / nanosPerDay)
  have hmonth : (ofNanos nanos).date.month ≤ 12 := hvalid.month_le
  have hday : (ofNanos nanos).date.day ≤ 31 :=
    Nat.le_trans hvalid.day_le (Date.daysOfMonth_le _ _)
  have hsecond := (ofNanos nanos).clock.second_lt
  have hnanos := (ofNanos nanos).clock.nanos_lt
  unfold secondsPerDay at hsecond
  unfold nanosPerSecond at hnanos
  unfold Text.Fit form numbers
  simp only [List.forall₂_cons, List.Forall₂.nil, and_true]
  omega

/-- Times of the day are in the order of their numbers exactly if they are in that of their
milliseconds. -/
theorem clockNumbers_lt_iff (a b : Clock) :
    [a.second / 3600, a.second / 60 % 60, a.second % 60, a.nanos / 1000000] <
        [b.second / 3600, b.second / 60 % 60, b.second % 60, b.nanos / 1000000] ↔
      a.second * 1000 + a.nanos / 1000000 < b.second * 1000 + b.nanos / 1000000 := by
  have ha := a.nanos_lt
  have hb := b.nanos_lt
  unfold nanosPerSecond at ha hb
  simp only [List.cons_lt_cons_iff, List.lt_irrefl, and_false, or_false]
  omega

/-- Instants are in the order of their years and the numbers behind them exactly if they are in that
of their milliseconds. -/
theorem year_numbers_lt_iff {m n : Int} :
    ((ofNanos m).date.year < (ofNanos n).date.year ∨
      (ofNanos m).date.year = (ofNanos n).date.year ∧ (ofNanos m).numbers < (ofNanos n).numbers) ↔
      m / 1000000 < n / 1000000 := by
  have hbefore : (ofNanos m).date.Before (ofNanos n).date ↔ m / nanosPerDay < n / nanosPerDay :=
    Date.before_ofDays_iff
  have hsame : (ofNanos m).date = (ofNanos n).date ↔ m / nanosPerDay = n / nanosPerDay :=
    Date.ofDays_inj
  have hdates : ((ofNanos m).date.year < (ofNanos n).date.year ∨
      (ofNanos m).date.year = (ofNanos n).date.year ∧ (ofNanos m).numbers < (ofNanos n).numbers) ↔
      (ofNanos m).date.Before (ofNanos n).date ∨ (ofNanos m).date = (ofNanos n).date ∧
        (ofNanos m).clock.second * 1000 + (ofNanos m).clock.nanos / 1000000 <
          (ofNanos n).clock.second * 1000 + (ofNanos n).clock.nanos / 1000000 := by
    rw [← clockNumbers_lt_iff]
    unfold numbers
    generalize (ofNanos m).date = a
    generalize (ofNanos n).date = b
    have hext : a = b ↔ a.year = b.year ∧ a.month = b.month ∧ a.day = b.day := by
      cases a
      cases b
      simp
    rw [List.cons_lt_cons_iff, List.cons_lt_cons_iff, Date.Before, hext]
    simp only [and_or_left, or_assoc, and_assoc]
  rw [hdates, hbefore, hsame]
  change _ ∨ _ ∧ (m % nanosPerDay / nanosPerSecond).toNat * 1000 +
      (m % nanosPerSecond).toNat / 1000000 < (n % nanosPerDay / nanosPerSecond).toNat * 1000 +
        (n % nanosPerSecond).toNat / 1000000 ↔ _
  unfold nanosPerDay secondsPerDay nanosPerSecond
  omega

/-- Texts of instants in the years 0 to 9999 are in the order of their milliseconds. -/
theorem text_lt_text_iff {m n : Int}
    (hm : 0 ≤ (ofNanos m).date.year ∧ (ofNanos m).date.year ≤ 9999)
    (hn : 0 ≤ (ofNanos n).date.year ∧ (ofNanos n).date.year ≤ 9999) :
    (ofNanos m).text < (ofNanos n).text ↔ m / 1000000 < n / 1000000 := by
  have hmYear : (ofNanos m).date.year.toNat < 10 ^ 4 := by omega
  have hnYear : (ofNanos n).date.year.toNat < 10 ^ 4 := by omega
  have hlength : (Text.padded 4 (ofNanos m).date.year.toNat).length =
      (Text.padded 4 (ofNanos n).date.year.toNat).length := by
    rw [Text.length_padded (by decide) hmYear, Text.length_padded (by decide) hnYear]
  rw [← year_numbers_lt_iff, text_eq_fields, text_eq_fields, Date.yearText_eq_padded hm,
    Date.yearText_eq_padded hn, Text.append_lt_append_iff hlength,
    Text.padded_lt_padded_iff hmYear hnYear, Text.padded_inj, List.cons_lt_cons_iff,
    Text.fields_lt_fields_iff (fit_numbers m) (fit_numbers n)]
  have hless : (ofNanos m).date.year.toNat < (ofNanos n).date.year.toNat ↔
      (ofNanos m).date.year < (ofNanos n).date.year := by omega
  have heq : (ofNanos m).date.year.toNat = (ofNanos n).date.year.toNat ↔
      (ofNanos m).date.year = (ofNanos n).date.year := by omega
  simp only [hless, heq, UInt8.lt_irrefl, false_or, true_and]

/-- The text of an instant tells its year and the numbers behind it. -/
theorem text_eq_text_iff {m n : Int} : (ofNanos m).text = (ofNanos n).text ↔
    (ofNanos m).date.year = (ofNanos n).date.year ∧ (ofNanos m).numbers = (ofNanos n).numbers := by
  have hlength : (Byte.hyphen :: Text.fields form (ofNanos m).numbers).length =
      (Byte.hyphen :: Text.fields form (ofNanos n).numbers).length := by
    rw [List.length_cons, List.length_cons, Text.length_fields (fit_numbers m),
      Text.length_fields (fit_numbers n)]
  rw [text_eq_fields, text_eq_fields]
  constructor
  · intro h
    obtain ⟨hyear, hfields⟩ := List.append_inj' h hlength
    exact ⟨Date.yearText_inj.mp hyear,
      (Text.fields_inj (fit_numbers m) (fit_numbers n)).mp (List.cons.inj hfields).2⟩
  · rintro ⟨hyear, hnumbers⟩
    rw [hyear, hnumbers]

/-- Two instants are written alike exactly if they lie in one millisecond. -/
theorem text_inj {m n : Int} :
    (ofNanos m).text = (ofNanos n).text ↔ m / 1000000 = n / 1000000 := by
  have hfront := @year_numbers_lt_iff m n
  have hback := @year_numbers_lt_iff n m
  rw [text_eq_text_iff]
  constructor
  · rintro ⟨hyear, hnumbers⟩
    have hnot : ¬ m / 1000000 < n / 1000000 ∧ ¬ n / 1000000 < m / 1000000 := by
      rw [← hfront, ← hback, hyear, hnumbers]
      simp
    omega
  · intro h
    have hfront : ¬ _ := mt hfront.mp (h ▸ Int.lt_irrefl _)
    have hback : ¬ _ := mt hback.mp (h ▸ Int.lt_irrefl _)
    have hyear : (ofNanos m).date.year = (ofNanos n).date.year := by omega
    exact ⟨hyear, List.le_antisymm (fun hless => hback (.inr ⟨hyear.symm, hless⟩))
      fun hless => hfront (.inr ⟨hyear, hless⟩)⟩

end Instant

/-- The instants of one day at one time of the day are written with the date. -/
theorem Instant.text_ofNanos (nanos : Int) : (Instant.ofNanos nanos).text =
    (Date.ofDays (nanos / nanosPerDay)).text ++ "T" ++
      ((Clock.ofNanos nanos).text ++ (Clock.ofNanos nanos).milliText ++ "Z") := by
  rw [Instant.ofNanos, Instant.text]
  simp only [List.append_assoc]

/-- Two times of the day are written alike exactly if they lie in one millisecond and are whole
seconds both or neither. -/
theorem Clock.text_inj {m n : Int} (hm : 0 ≤ m ∧ m < nanosPerDay) (hn : 0 ≤ n ∧ n < nanosPerDay) :
    (ofNanos m).text ++ Text.when ((ofNanos m).nanos != 0) (Clock.ofNanos m).milliText =
      (Clock.ofNanos n).text ++
        Text.when ((Clock.ofNanos n).nanos != 0) (Clock.ofNanos n).milliText ↔
      m / 1000000 = n / 1000000 ∧ (m % nanosPerSecond = 0 ↔ n % nanosPerSecond = 0) := by
  have hfull : (ofNanos m).text ++ (ofNanos m).milliText =
      (ofNanos n).text ++ (ofNanos n).milliText ↔ m / 1000000 = n / 1000000 := by
    rw [← Instant.text_inj, Instant.text_ofNanos, Instant.text_ofNanos,
      Int.ediv_eq_zero_of_lt hm.1 hm.2, Int.ediv_eq_zero_of_lt hn.1 hn.2,
      List.append_cancel_left_eq, List.append_cancel_right_eq]
  have hwhole (nanos : Int) : (ofNanos nanos).nanos = 0 ↔ nanos % nanosPerSecond = 0 := by
    rw [nanos_ofNanos]
    unfold nanosPerSecond
    omega
  have hdot (clock : Clock) :
      Byte.dot ∈ clock.text ++ Text.when (clock.nanos != 0) clock.milliText ↔ clock.nanos ≠ 0 := by
    have hpoint : Byte.dot ∈ clock.milliText := List.mem_append_left _ (by decide)
    by_cases hzero : clock.nanos = 0
    · simp [hzero, Text.when, clock.dot_notMem_text]
    · simp [hzero, Text.when, hpoint]
  rw [← hwhole, ← hwhole]
  constructor
  · intro h
    refine ⟨hfull.mp ?_, not_iff_not.mp ?_⟩
    · rw [← withMillis_text, h, withMillis_text]
    · rw [← Ne, ← hdot, h, hdot]
  · rintro ⟨hmillis, hboth⟩
    have hsame := hfull.mpr hmillis
    by_cases hzero : (ofNanos m).nanos = 0
    · have hmilli : (ofNanos m).milliText = (ofNanos n).milliText := by
        rw [milliText, milliText, hzero, hboth.mp hzero]
      rw [hmilli, List.append_cancel_right_eq] at hsame
      simp [hzero, hboth.mp hzero, Text.when, hsame]
    · simp [hzero, mt hboth.mpr hzero, Text.when, hsame]

/-- In the years 0 to 9999 the texts of two counts are in the order of the whole milliseconds, rounded
down, that the counts lie in, and they are equal exactly if these are, whatever the units. -/
theorem timestampText?_le_iff {u v : TimeUnit} {m n : Int} {first second : Text}
    (hfirst : timestampText? u m = some first) (hsecond : timestampText? v n = some second)
    (hfirstYear : 0 ≤ (Instant.ofNanos (m * u.nanos)).date.year ∧
      (Instant.ofNanos (m * u.nanos)).date.year ≤ 9999)
    (hsecondYear : 0 ≤ (Instant.ofNanos (n * v.nanos)).date.year ∧
      (Instant.ofNanos (n * v.nanos)).date.year ≤ 9999) :
    (first ≤ second ↔ m * u.nanos / 1000000 ≤ n * v.nanos / 1000000) ∧
      (first = second ↔ m * u.nanos / 1000000 = n * v.nanos / 1000000) := by
  rw [timestampText?_eq, Option.ite_none_right_eq_some, Option.some.injEq] at hfirst hsecond
  obtain ⟨-, rfl⟩ := hfirst
  obtain ⟨-, rfl⟩ := hsecond
  refine ⟨?_, Instant.text_inj⟩
  rw [← List.not_lt, Instant.text_lt_text_iff hsecondYear hfirstYear, Int.not_lt]

/-- A nanosecond after a whole second before 1970 is written like the second itself. -/
theorem timestampText?_le_iff_across_units :
    timestampText? .second (-1) = some "1969-12-31T23:59:59.000Z" ∧
      timestampText? .nanosecond (-999999999) = some "1969-12-31T23:59:59.000Z" ∧
      (-1 : Int) * TimeUnit.second.nanos / 1000000 =
        -999999999 * TimeUnit.nanosecond.nanos / 1000000 := by
  have hfirst : timestampText? .second (-1) = some "1969-12-31T23:59:59.000Z" := by decide
  have hsecond : timestampText? .nanosecond (-999999999) = some "1969-12-31T23:59:59.000Z" := by
    decide
  exact ⟨hfirst, hsecond,
    (timestampText?_le_iff hfirst hsecond (by decide) (by decide)).2.mp rfl⟩

end QueryBridge
