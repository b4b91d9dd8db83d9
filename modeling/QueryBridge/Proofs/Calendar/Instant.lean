import Mathlib.Tactic.ByContra
import QueryBridge.Proofs.Calendar.Gregorian
import QueryBridge.Proofs.Text.Padded

/-!
# Points in time

A count of nanoseconds since the start of 1970 lies on a day and at a time of that day, also before
1970. It is written as they are, if the day has a date that is written at all.
-/

namespace QueryBridge

/-! ### Days that are written -/

namespace Date

/-- The year of the date of a day is one that is written. -/
def IsWritten (days : Int) : Prop :=
  firstYear ≤ (ofDays days).year ∧ (ofDays days).year ≤ lastYear

instance (days : Int) : Decidable (IsWritten days) :=
  inferInstanceAs (Decidable (_ ∧ _))

theorem year_le_year {m n : Int} (h : m ≤ n) : (ofDays m).year ≤ (ofDays n).year := by
  rcases Int.lt_or_eq_of_le h with hless | rfl
  · have hbefore := before_ofDays hless
    unfold Before at hbefore
    omega
  · exact Int.le_refl _

/-- A day that is written is far from the ends of a word. -/
theorem IsWritten.bounds {days : Int} (h : IsWritten days) :
    -100000000 < days ∧ days < 100000000 := by
  have hfirst : (ofDays (-100000000)).year < firstYear := by decide
  have hlast : lastYear < (ofDays 100000000).year := by decide
  obtain ⟨hlow, hhigh⟩ := h
  constructor
  · by_contra hle
    have hyear := year_le_year (Int.not_lt.mp hle)
    omega
  · by_contra hle
    have hyear := year_le_year (Int.not_lt.mp hle)
    omega

theorem IsWritten.isShortSigned {days : Int} (h : IsWritten days) :
    isShortSigned days = true ∧ isShortSigned (days + commonEraDays) = true := by
  have hbounds := h.bounds
  unfold QueryBridge.isShortSigned commonEraDays
  simp only [Bool.and_eq_true, decide_eq_true_eq]
  omega

theorem ofCommonEra?_add (days : Int) :
    ofCommonEra? (days + commonEraDays) = if IsWritten days then some (ofDays days) else none := by
  unfold ofCommonEra?
  rw [Int.add_sub_cancel]
  simp only [Bool.and_eq_true, decide_eq_true_eq]
  rfl

/-- A day has a text exactly if its year is written. -/
theorem textOfDays?_eq (days : Int) :
    textOfDays? days = if IsWritten days then some (ofDays days).text else none := by
  unfold textOfDays?
  dsimp only
  rw [ofCommonEra?_add]
  by_cases h : IsWritten days
  · simp [h, h.isShortSigned.2]
  · simp [h]

end Date

/-! ### Times of the day -/

namespace Clock

/-- The time of the day of an instant. -/
def ofNanos (nanos : Int) : Clock where
  second := (nanos % nanosPerDay / nanosPerSecond).toNat
  nanos := (nanos % nanosPerSecond).toNat
  second_lt := by
    unfold nanosPerDay secondsPerDay nanosPerSecond
    omega
  nanos_lt := by
    unfold nanosPerSecond
    omega

theorem second_ofNanos (nanos : Int) :
    (ofNanos nanos).second = (nanos % nanosPerDay / nanosPerSecond).toNat := rfl

theorem nanos_ofNanos (nanos : Int) : (ofNanos nanos).nanos = (nanos % nanosPerSecond).toNat := rfl

theorem ofSecond?_eq {second nanos : Nat} {clock : Clock} (hsecond : second = clock.second)
    (hnanos : nanos = clock.nanos) : ofSecond? second nanos = some clock := by
  subst hsecond hnanos
  rw [ofSecond?, dif_pos ⟨clock.second_lt, clock.nanos_lt⟩]

theorem ofSecond?_eq_none {second nanos : Nat} (h : secondsPerDay ≤ second) :
    ofSecond? second nanos = none := by
  rw [ofSecond?, dif_neg fun hin => Nat.not_lt.mpr h hin.1]

end Clock

namespace Instant

/-- The instant some nanoseconds after the start of 1970. -/
def ofNanos (nanos : Int) : Instant := ⟨Date.ofDays (nanos / nanosPerDay), Clock.ofNanos nanos⟩

end Instant

/-- A count of units is written as the instant it counts, if the day is written. -/
theorem timestampText?_eq (unit : TimeUnit) (count : Int) :
    timestampText? unit count =
      if Date.IsWritten (count * unit.nanos / nanosPerDay) then
        some (Instant.ofNanos (count * unit.nanos)).text
      else none := by
  unfold timestampText? Instant.ofSeconds?
  generalize count * unit.nanos = nanos
  have hday : nanos / nanosPerSecond / secondsPerDay = nanos / nanosPerDay := by
    unfold nanosPerDay secondsPerDay nanosPerSecond
    omega
  have hclock : Clock.ofSecond? (nanos / nanosPerSecond % secondsPerDay).toNat
      (nanos % nanosPerSecond).toNat = some (Clock.ofNanos nanos) := by
    refine Clock.ofSecond?_eq ?_ rfl
    unfold Clock.ofNanos nanosPerDay secondsPerDay nanosPerSecond
    dsimp only
    omega
  simp only [hday, hclock, Date.ofCommonEra?_add]
  by_cases h : Date.IsWritten (nanos / nanosPerDay)
  · have hseconds : isSigned (nanos / nanosPerSecond) = true := by
      have hbounds := h.bounds
      unfold nanosPerDay secondsPerDay nanosPerSecond at hbounds
      unfold isSigned leastSigned greatestSigned nanosPerSecond
      simp only [Bool.and_eq_true, decide_eq_true_eq]
      omega
    simp [h, h.isShortSigned.2, hseconds, Instant.ofNanos, guard]
  · simp [h]

/-- A count of units is written as the time of the day it counts, if it lies within the day. -/
theorem timeOfDayText?_eq (unit : TimeUnit) (count : Int) :
    timeOfDayText? unit count =
      if 0 ≤ count * unit.nanos ∧ count * unit.nanos < nanosPerDay then
        some ((Clock.ofNanos (count * unit.nanos)).text ++
          Text.when ((Clock.ofNanos (count * unit.nanos)).nanos != 0)
            (Clock.ofNanos (count * unit.nanos)).milliText)
      else none := by
  unfold timeOfDayText?
  generalize count * unit.nanos = nanos
  dsimp only
  have hsplit := Int.mul_tdiv_add_tmod nanos nanosPerSecond
  by_cases hnonneg : 0 ≤ nanos
  · rw [Int.tdiv_eq_ediv_of_nonneg hnonneg, Int.tmod_eq_emod_of_nonneg hnonneg]
    by_cases hless : nanos < nanosPerDay
    · have hwords : (isShortUnsigned (nanos / nanosPerSecond) &&
          isShortUnsigned (nanos % nanosPerSecond)) = true := by
        unfold nanosPerDay secondsPerDay nanosPerSecond at *
        unfold isShortUnsigned
        simp only [Bool.and_eq_true, decide_eq_true_eq]
        omega
      have hclock : Clock.ofSecond? (nanos / nanosPerSecond).toNat (nanos % nanosPerSecond).toNat =
          some (Clock.ofNanos nanos) := by
        refine Clock.ofSecond?_eq ?_ rfl
        rw [Clock.second_ofNanos, Int.emod_eq_of_lt hnonneg hless]
      have hfraction : (nanos % nanosPerSecond != 0) = ((Clock.ofNanos nanos).nanos != 0) := by
        rw [Bool.eq_iff_iff, bne_iff_ne, bne_iff_ne, Clock.nanos_ofNanos]
        unfold nanosPerSecond
        omega
      simp [hwords, hclock, hfraction, hnonneg, hless, guard]
    · have hlate : secondsPerDay ≤ (nanos / nanosPerSecond).toNat := by
        unfold nanosPerDay secondsPerDay nanosPerSecond at *
        omega
      simp [Clock.ofSecond?_eq_none hlate, hless]
  · -- Rounded towards zero, one of seconds and fraction is negative.
    have hwords : (isShortUnsigned (nanos.tdiv nanosPerSecond) &&
        isShortUnsigned (nanos.tmod nanosPerSecond)) = false := by
      unfold nanosPerSecond at *
      unfold isShortUnsigned
      simp only [Bool.and_eq_false_iff, decide_eq_false_iff_not]
      omega
    simp [hwords, hnonneg, guard]

/-! ### Agreement -/

/-- A time of the day with milliseconds, also for a whole second. -/
def withMillis (clock : Text) : Text := if Byte.dot ∈ clock then clock else clock ++ ".000"

namespace Clock

theorem dot_notMem_text (clock : Clock) : Byte.dot ∉ clock.text := by
  have hpadded (n : Nat) : Byte.dot ∉ Text.padded 2 n := fun hmem => by
    cases Text.isDigit_of_mem_padded _ hmem
  have hcolon : Byte.dot ∉ Text.ofString ":" := by decide
  simp only [text, List.mem_append, hpadded, hcolon, or_false, not_false_eq_true]

/-- The text of a time of the day gives its milliseconds. -/
theorem withMillis_text (clock : Clock) :
    withMillis (clock.text ++ Text.when (clock.nanos != 0) clock.milliText) =
      clock.text ++ clock.milliText := by
  unfold withMillis
  by_cases hzero : clock.nanos = 0
  · have hmilli : clock.milliText = ".000" := by
      rw [milliText, hzero]
      rfl
    simp [hzero, hmilli, Text.when, clock.dot_notMem_text]
  · have hdot : Byte.dot ∈ clock.milliText := List.mem_append_left _ (by decide)
    simp [hzero, Text.when, hdot]

theorem ofNanos_emod (nanos : Int) : ofNanos (nanos % nanosPerDay) = ofNanos nanos := by
  have hsecond : (ofNanos (nanos % nanosPerDay)).second = (ofNanos nanos).second := by
    rw [second_ofNanos, Int.emod_emod_of_dvd _ (Int.dvd_refl _)]
    rfl
  have hnanos : (ofNanos (nanos % nanosPerDay)).nanos = (ofNanos nanos).nanos := by
    rw [nanos_ofNanos, nanos_ofNanos]
    unfold nanosPerDay secondsPerDay nanosPerSecond
    omega
  generalize ofNanos (nanos % nanosPerDay) = first at *
  generalize ofNanos nanos = second at *
  cases first
  cases second
  cases hsecond
  cases hnanos
  rfl

end Clock

/-- What is left of a count after its days is always a time of the day. -/
theorem timeOfDayText?_emod (nanos : Int) :
    timeOfDayText? .nanosecond (nanos % nanosPerDay) =
      some ((Clock.ofNanos nanos).text ++
        Text.when ((Clock.ofNanos nanos).nanos != 0) (Clock.ofNanos nanos).milliText) := by
  have hunit : nanos % nanosPerDay * TimeUnit.nanosecond.nanos = nanos % nanosPerDay :=
    Int.mul_one _
  rw [timeOfDayText?_eq, hunit, Clock.ofNanos_emod, if_pos]
  exact ⟨Int.emod_nonneg _ (by decide), Int.emod_lt_of_pos _ (by decide)⟩

/-- A count of units is written as an instant exactly if its day, rounded down, fits a word and is
written as a date. Then its text is that date with the time of the day for what is left of the
count. And a count is written as a time of the day exactly if it is not negative and less than a
day. -/
theorem timestampText?_agrees (unit : TimeUnit) (count : Int) :
    let nanos : Int := count * unit.nanos
    ((timestampText? unit count).isSome ↔ isShortSigned (nanos / nanosPerDay) = true ∧
      (Date.textOfDays? (nanos / nanosPerDay)).isSome) ∧
    (∀ text, timestampText? unit count = some text ↔
      isShortSigned (nanos / nanosPerDay) = true ∧ ∃ date clock,
        Date.textOfDays? (nanos / nanosPerDay) = some date ∧
        timeOfDayText? .nanosecond (nanos % nanosPerDay) = some clock ∧
        text = date ++ "T" ++ withMillis clock ++ "Z") ∧
    ((timeOfDayText? unit count).isSome ↔ 0 ≤ nanos ∧ nanos < nanosPerDay) := by
  intro nanos
  have hinstant := timestampText?_eq unit count
  have hdate := Date.textOfDays?_eq (nanos / nanosPerDay)
  refine ⟨?_, fun text => ?_, ?_⟩
  · rw [hinstant, hdate]
    by_cases hday : Date.IsWritten (nanos / nanosPerDay)
    · simp [nanos, hday, hday.isShortSigned.1]
    · simp [nanos, hday]
  · rw [hinstant, hdate, timeOfDayText?_emod]
    by_cases hday : Date.IsWritten (nanos / nanosPerDay)
    · have htext : (Instant.ofNanos nanos).text =
          (Date.ofDays (nanos / nanosPerDay)).text ++ "T" ++ withMillis ((Clock.ofNanos nanos).text ++
            Text.when ((Clock.ofNanos nanos).nanos != 0) (Clock.ofNanos nanos).milliText) ++ "Z" := by
        rw [Clock.withMillis_text, ← List.append_assoc _ _ (Clock.milliText _)]
        rfl
      rw [if_pos hday, if_pos hday, htext]
      simp [hday.isShortSigned.1, eq_comm]
    · simp [nanos, hday]
  · rw [timeOfDayText?_eq]
    simp [nanos]

example : timestampText? .millisecond (-1) = some "1969-12-31T23:59:59.999Z" := by decide

end QueryBridge
