import Mathlib.Tactic.IntervalCases
import QueryBridge.Calendar

/-!
# The Gregorian calendar

A day and the next one have dates that follow each other in the calendar: months of 28 to 31 days,
and a leap day in February of every fourth year, but only every fourth time at the end of a century.
So later days have later dates, and every date is one of the calendar.
-/

namespace QueryBridge

namespace Date

/-- Whether a year has a leap day. -/
def isLeap (year : Int) : Bool := year % 4 == 0 && (year % 100 != 0 || year % 400 == 0)

/-- How many days a month has. -/
def daysOfMonth (year : Int) (month : Nat) : Nat :=
  if month = 2 then if isLeap year then 29 else 28
  else if month = 4 ∨ month = 6 ∨ month = 9 ∨ month = 11 then 30 else 31

theorem daysOfMonth_le (year : Int) (month : Nat) : daysOfMonth year month ≤ 31 := by
  unfold daysOfMonth
  split
  · split <;> decide
  · split <;> decide

/-- The date of the next day. -/
def next (date : Date) : Date :=
  if date.day < daysOfMonth date.year date.month then ⟨date.year, date.month, date.day + 1⟩
  else if date.month < 12 then ⟨date.year, date.month + 1, 1⟩
  else ⟨date.year + 1, 1, 1⟩

/-- The date is a day of a month of the calendar. -/
structure IsValid (date : Date) : Prop where
  one_le_month : 1 ≤ date.month
  month_le : date.month ≤ 12
  one_le_day : 1 ≤ date.day
  day_le : date.day ≤ daysOfMonth date.year date.month

/-- The date is before the other. -/
def Before (a b : Date) : Prop :=
  a.year < b.year ∨
    a.year = b.year ∧ (a.month < b.month ∨ a.month = b.month ∧ a.day < b.day)

/-! ### Years that start in March -/

/-- How many days lie before a year of the era. -/
def yearStart (year : Nat) : Nat := 365 * year + year / 4 - year / 100

/-- The year of a day of the era. -/
def yearOfEra (day : Nat) : Nat := (day - day / 1460 + day / 36524 - day / 146096) / 365

/-- How many days a year has that starts in March. -/
def marchLength (year : Int) : Nat := if isLeap (year + 1) then 366 else 365

/-- The date of a day of the year that starts in March of the given one. -/
def ofMarch (year : Int) (dayOfYear : Nat) : Date :=
  let march := (5 * dayOfYear + 2) / 153
  ⟨year + (if march < 10 then 0 else 1), if march < 10 then march + 3 else march - 9,
    dayOfYear - (153 * march + 2) / 5 + 1⟩

theorem yearOfEra_lt {day : Nat} (h : day < daysPerEra) : yearOfEra day < 400 := by
  unfold daysPerEra at h
  unfold yearOfEra
  have hlast : day / 146096 = 0 ∨ day / 146096 = 1 := by omega
  omega

theorem yearStart_yearOfEra_le {day : Nat} (h : day < daysPerEra) :
    yearStart (yearOfEra day) ≤ day := by
  unfold daysPerEra at h
  unfold yearStart
  have hyear : yearOfEra day = (day - day / 1460 + day / 36524 - day / 146096) / 365 := rfl
  have hlast : day / 146096 = 0 ∨ day / 146096 = 1 := by omega
  -- The century of the year may lag behind that of the day.
  rcases Nat.lt_or_ge (yearOfEra day / 100) (day / 36524) with hcentury | hcentury
  · omega
  · omega

theorem lt_yearStart_succ {day : Nat} (h : day < 146096) : day < yearStart (yearOfEra day + 1) := by
  unfold yearStart
  have hyear : yearOfEra day = (day - day / 1460 + day / 36524 - day / 146096) / 365 := rfl
  rcases Nat.lt_trichotomy ((yearOfEra day + 1) / 100) (day / 36524) with
    hcentury | hcentury | hcentury
  · omega
  · omega
  · omega

theorem yearStart_mono {a b : Nat} (h : a ≤ b) : yearStart a ≤ yearStart b := by
  have hcentury : b / 100 ≤ a / 100 + (b - a) := by omega
  unfold yearStart
  omega

/-- A year of an era is as long as the calendar has it. -/
theorem yearStart_add_marchLength (era : Int) {year : Nat} (h : year < 400) :
    yearStart year + marchLength (era * 400 + year) =
      if year = 399 then daysPerEra else yearStart (year + 1) := by
  unfold yearStart marchLength isLeap daysPerEra
  simp only [Bool.and_eq_true, Bool.or_eq_true, beq_iff_eq, bne_iff_ne]
  split <;> split <;> omega

/-- A day of an era lies before the end of its year. -/
theorem lt_yearEnd (era : Int) {day : Nat} (h : day < daysPerEra) :
    day < yearStart (yearOfEra day) + marchLength (era * 400 + yearOfEra day) := by
  rw [yearStart_add_marchLength era (yearOfEra_lt h)]
  split
  · exact h
  next hyear =>
    refine lt_yearStart_succ ?_
    rcases Nat.lt_or_eq_of_le (Nat.le_of_lt_succ h) with hless | rfl
    · exact hless
    · exact absurd rfl hyear

/-- A year of an era ends before the later ones start. -/
theorem yearEnd_le_yearStart (era : Int) {a b : Nat} (h : a < b) (hb : b < 400) :
    yearStart a + marchLength (era * 400 + a) ≤ yearStart b := by
  rw [yearStart_add_marchLength era (by omega), if_neg (by omega)]
  exact yearStart_mono h

theorem yearEnd_le (era : Int) {year : Nat} (h : year < 400) :
    yearStart year + marchLength (era * 400 + year) ≤ daysPerEra := by
  rw [yearStart_add_marchLength era h]
  split
  · exact Nat.le_refl _
  · exact Nat.le_trans (yearStart_mono (show year + 1 ≤ 399 by omega)) (by decide)

/-- The year of a day is the one that the day lies in. -/
theorem yearOfEra_eq (era : Int) {year day : Nat} (hyear : year < 400)
    (hday : day < marchLength (era * 400 + year)) : yearOfEra (yearStart year + day) = year := by
  have hera := yearEnd_le era hyear
  have hless : yearStart year + day < daysPerEra := by omega
  have hstart := yearStart_yearOfEra_le hless
  have hend := lt_yearEnd era hless
  rcases Nat.lt_trichotomy (yearOfEra (yearStart year + day)) year with hlow | heq | hhigh
  · have hlater := yearEnd_le_yearStart era hlow hyear
    omega
  · exact heq
  · have hlater := yearEnd_le_yearStart era hhigh (yearOfEra_lt hless)
    omega

/-! ### Days of a year that starts in March -/

/-- How many days of the year lie before a month counted from March. -/
def monthStart (march : Nat) : Nat := (153 * march + 2) / 5

/-- A day of a month that is counted from March. -/
def inMarchYear (year : Int) (march day : Nat) : Date :=
  ⟨year + (if march < 10 then 0 else 1), if march < 10 then march + 3 else march - 9, day⟩

/-- The month of a day of the year lies around it. -/
theorem exists_ofMarch_eq (year : Int) {day : Nat} (h : day < 366) : ∃ march < 12,
    monthStart march ≤ day ∧ day < monthStart (march + 1) ∧
      ofMarch year day = inMarchYear year march (day - monthStart march + 1) := by
  refine ⟨(5 * day + 2) / 153, by omega, ?_, ?_, rfl⟩
  all_goals
    unfold monthStart
    omega

/-- A month lasts until the next one starts, or until the end of the year. -/
theorem daysOfMonth_inMarchYear (year : Int) {march : Nat} (h : march < 12) (day : Nat) :
    daysOfMonth (inMarchYear year march day).year (inMarchYear year march day).month =
      min (monthStart (march + 1)) (marchLength year) - monthStart march := by
  unfold marchLength daysOfMonth monthStart inMarchYear
  cases hleap : isLeap (year + 1) <;> interval_cases march <;> simp [hleap]

theorem marchLength_le (year : Int) : marchLength year ≤ 366 := by
  unfold marchLength
  split <;> decide

/-- The next month starts after the last day of a month. -/
theorem next_inMarchYear (year : Int) {march day : Nat} (h : march < 11)
    (hday : daysOfMonth (inMarchYear year march day).year (inMarchYear year march day).month ≤ day) :
    (inMarchYear year march day).next = inMarchYear year (march + 1) 1 := by
  have hlast : ¬ (inMarchYear year march day).day < daysOfMonth (inMarchYear year march day).year
      (inMarchYear year march day).month := Nat.not_lt.mpr hday
  rw [next, if_neg hlast]
  unfold inMarchYear
  interval_cases march <;> simp

/-- The days of a year follow each other in the calendar. -/
theorem ofMarch_succ {year : Int} {day : Nat} (h : day + 1 < marchLength year) :
    ofMarch year (day + 1) = (ofMarch year day).next := by
  have hlength := marchLength_le year
  obtain ⟨march, hmarch, hstart, hend, heq⟩ := exists_ofMarch_eq year (show day < 366 by omega)
  obtain ⟨later, hlater, hlaterStart, hlaterEnd, hlaterEq⟩ :=
    exists_ofMarch_eq year (show day + 1 < 366 by omega)
  have hdays := daysOfMonth_inMarchYear year hmarch (day - monthStart march + 1)
  rw [heq, hlaterEq]
  unfold monthStart at *
  by_cases hsame : later = march
  · subst hsame
    rw [next, if_pos (by rw [hdays]; simp only [inMarchYear]; omega)]
    simp only [inMarchYear, mk.injEq, true_and]
    omega
  · obtain rfl : later = march + 1 := by omega
    have hfirst : day + 1 - (153 * (march + 1) + 2) / 5 + 1 = 1 := by omega
    rw [next_inMarchYear year (by omega) (by rw [hdays]; omega), hfirst]

/-- The first day of a year follows the last one of the year before it. -/
theorem ofMarch_first (year : Int) :
    ofMarch (year + 1) 0 = (ofMarch year (marchLength year - 1)).next := by
  unfold marchLength
  cases hleap : isLeap (year + 1) <;> simp [ofMarch, next, daysOfMonth, hleap]

theorem isValid_ofMarch {year : Int} {day : Nat} (h : day < marchLength year) :
    (ofMarch year day).IsValid := by
  have hlength := marchLength_le year
  obtain ⟨march, hmarch, hstart, hend, heq⟩ := exists_ofMarch_eq year (show day < 366 by omega)
  have hdays := daysOfMonth_inMarchYear year hmarch (day - monthStart march + 1)
  rw [heq]
  refine ⟨?_, ?_, Nat.le_add_left 1 _, ?_⟩
  · simp only [inMarchYear]
    split <;> omega
  · simp only [inMarchYear]
    split <;> omega
  · rw [hdays]
    simp only [inMarchYear]
    omega

/-! ### Days -/

/-- A day of a year of an era has the date of that day of the year. -/
theorem ofDays_of_year (era : Int) {year day : Nat} (hyear : year < 400)
    (hday : day < marchLength (era * 400 + year)) :
    ofDays (era * daysPerEra + (yearStart year + day : Nat) - epochDays) =
      ofMarch (era * 400 + year) day := by
  have hless := yearEnd_le era hyear
  have hera : (era * daysPerEra + (yearStart year + day : Nat)) / daysPerEra = era := by
    unfold daysPerEra at *
    omega
  have hrest : ((era * daysPerEra + (yearStart year + day : Nat)) % daysPerEra).toNat =
      yearStart year + day := by
    unfold daysPerEra at *
    omega
  change ofMarch (_ / _ * 400 + (yearOfEra _ : Nat)) (_ - yearStart (yearOfEra _)) = _
  rw [Int.sub_add_cancel, hera, hrest, yearOfEra_eq era hyear hday, Nat.add_sub_cancel_left]

/-- Every day is a day of a year of an era. -/
theorem exists_year (days : Int) : ∃ (era : Int) (year day : Nat), year < 400 ∧
    day < marchLength (era * 400 + year) ∧
      days = era * daysPerEra + (yearStart year + day : Nat) - epochDays := by
  let day := ((days + epochDays) % daysPerEra).toNat
  have hless : day < daysPerEra := by
    unfold day daysPerEra
    omega
  have hsplit : days + epochDays = (days + epochDays) / daysPerEra * daysPerEra + day := by
    unfold day daysPerEra
    omega
  have hstart := yearStart_yearOfEra_le hless
  have hend := lt_yearEnd ((days + epochDays) / daysPerEra) hless
  refine ⟨(days + epochDays) / daysPerEra, yearOfEra day, day - yearStart (yearOfEra day),
    yearOfEra_lt hless, by omega, ?_⟩
  rw [Nat.add_sub_cancel' hstart, ← hsplit, Int.add_sub_cancel]

/-- The date of the next day is the next date of the calendar. -/
theorem ofDays_succ (days : Int) : ofDays (days + 1) = (ofDays days).next := by
  obtain ⟨era, year, day, hyear, hday, rfl⟩ := exists_year days
  rw [ofDays_of_year era hyear hday]
  have hlength := yearStart_add_marchLength era hyear
  rcases Nat.lt_or_eq_of_le hday with hsame | hlast
  · rw [← ofMarch_succ hsame, ← ofDays_of_year era hyear hsame]
    congr 1
    omega
  · have hfirst (later : Int) : 0 < marchLength later := by
      unfold marchLength
      split <;> decide
    have hday : day = marchLength (era * 400 + year) - 1 := by omega
    rw [hday, ← ofMarch_first]
    by_cases hend : year = 399
    · -- The day after an era is the first one of the next era.
      rw [if_pos hend] at hlength
      have hyears : era * 400 + year + 1 = (era + 1) * 400 + (0 : Nat) := by omega
      rw [hyears, ← ofDays_of_year (era + 1) (by decide) (hfirst _)]
      congr 1
      unfold daysPerEra yearStart at *
      omega
    · rw [if_neg hend] at hlength
      have hyears : era * 400 + year + 1 = era * 400 + (year + 1 : Nat) := by omega
      rw [hyears, ← ofDays_of_year era (by omega) (hfirst _)]
      congr 1
      omega

theorem isValid_ofDays (days : Int) : (ofDays days).IsValid := by
  obtain ⟨era, year, day, hyear, hday, rfl⟩ := exists_year days
  rw [ofDays_of_year era hyear hday]
  exact isValid_ofMarch hday

/-! ### Order -/

theorem before_next (date : Date) : date.Before date.next := by
  unfold next Before
  split
  · exact .inr ⟨rfl, .inr ⟨rfl, Nat.lt_succ_self _⟩⟩
  · split
    · exact .inr ⟨rfl, .inl (Nat.lt_succ_self _)⟩
    · exact .inl (Int.lt_succ _)

theorem Before.trans {a b c : Date} (hab : a.Before b) (hbc : b.Before c) : a.Before c := by
  unfold Before at *
  omega

theorem not_before_self (date : Date) : ¬ date.Before date := by
  unfold Before
  omega

/-- Later days have later dates. -/
theorem before_ofDays {m n : Int} (h : m < n) : (ofDays m).Before (ofDays n) := by
  obtain ⟨k, rfl⟩ : ∃ k : Nat, n = m + 1 + k := ⟨(n - m - 1).toNat, by omega⟩
  induction k with
  | zero =>
    rw [Int.natCast_zero, Int.add_zero, ofDays_succ]
    exact before_next _
  | succ k ih =>
    rw [Int.natCast_succ, ← Int.add_assoc, ofDays_succ]
    exact (ih (by omega)).trans (before_next _)

/-- Days are in the order of their dates. -/
theorem before_ofDays_iff {m n : Int} : (ofDays m).Before (ofDays n) ↔ m < n := by
  refine ⟨fun h => ?_, before_ofDays⟩
  rcases Int.lt_trichotomy m n with hlow | rfl | hhigh
  · exact hlow
  · exact absurd h (not_before_self _)
  · exact absurd (h.trans (before_ofDays hhigh)) (not_before_self _)

/-- No two days have one date. -/
theorem ofDays_inj {m n : Int} : ofDays m = ofDays n ↔ m = n := by
  refine ⟨fun h => ?_, congrArg ofDays⟩
  rcases Int.lt_trichotomy m n with hlow | heq | hhigh
  · exact absurd (h ▸ before_ofDays hlow) (not_before_self _)
  · exact heq
  · exact absurd (h ▸ before_ofDays hhigh) (not_before_self _)

end Date

end QueryBridge
