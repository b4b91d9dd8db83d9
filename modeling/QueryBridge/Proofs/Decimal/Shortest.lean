import Mathlib.Algebra.Order.Field.Power
import Mathlib.Algebra.Order.Field.Rat
import Mathlib.Order.Monotone.Basic
import Mathlib.Tactic.FieldSimp
import Mathlib.Tactic.Linarith
import Mathlib.Tactic.NormNum
import Mathlib.Tactic.Ring
import QueryBridge.Decimal.Shortest

/-!
# The shortest decimal rounds to its float

The numbers that round to a float form an interval, and the interval of the next float starts where
it ends. The grid of seventeen digits is finer than every interval, so the search ends in the
interval of its float, and no other float has that decimal.
-/

namespace QueryBridge

namespace Decimal

/-- The number that a decimal stands for. -/
def value (d : Decimal) : ℚ := d.digits * 10 ^ d.scale

/-- The number does not change when zeros are dropped at the end. -/
theorem value_dropZeros (fuel : Nat) (d : Decimal) : (d.dropZeros fuel).value = d.value := by
  induction fuel generalizing d with
  | zero => rfl
  | succ fuel ih =>
    unfold dropZeros
    split
    next h =>
      simp only [Bool.and_eq_true, beq_iff_eq] at h
      have hdigits : (d.digits : ℚ) = (d.digits / 10 : Nat) * 10 := by
        have hsplit : d.digits = d.digits / 10 * 10 := by omega
        exact_mod_cast hsplit
      rw [ih, value, value, hdigits, zpow_add_one₀ (by norm_num)]
      ring
    next => rfl

theorem digitCount_pos (n : Nat) : 0 < digitCount n := Nat.length_toDigits_pos

theorem pow_digitCount_le {n : Nat} (h : n ≠ 0) : 10 ^ (digitCount n - 1) ≤ n := by
  by_cases hone : digitCount n ≤ 1
  · rw [Nat.sub_eq_zero_of_le hone]
    exact Nat.one_le_iff_ne_zero.mpr h
  · by_contra hless
    have hcount : digitCount n ≤ digitCount n - 1 :=
      (Nat.length_toDigits_le_iff (by decide) (by omega)).mpr (Nat.not_le.mp hless)
    omega

theorem lt_pow_digitCount (n : Nat) : n < 10 ^ digitCount n :=
  (Nat.length_toDigits_le_iff (by decide) Nat.length_toDigits_pos).mp (Nat.le_refl _)

/-- The magnitude is the exponent of a power of ten that is at most the fraction. -/
theorem pow_magnitude_le {num den : Nat} (hnum : num ≠ 0) (hden : den ≠ 0) :
    (10 : ℚ) ^ magnitude num den ≤ num / den := by
  have hdenPos : (0 : ℚ) < den := by exact_mod_cast Nat.pos_of_ne_zero hden
  have hnegative {places : Nat} (h : den ≤ num * 10 ^ places) :
      (10 : ℚ) ^ (-(places : Int)) ≤ num / den := by
    have hcast : (den : ℚ) ≤ num * 10 ^ places := by exact_mod_cast h
    rw [zpow_neg, zpow_natCast, le_div_iff₀ hdenPos, inv_mul_le_iff₀ (by positivity)]
    linarith
  unfold magnitude
  dsimp only
  split
  next hle =>
    have hquotient : num / den ≠ 0 := (Nat.div_pos hle (Nat.pos_of_ne_zero hden)).ne'
    have hpower : 10 ^ (digitCount (num / den) - 1) * den ≤ num :=
      (Nat.le_div_iff_mul_le (Nat.pos_of_ne_zero hden)).mp (pow_digitCount_le hquotient)
    have hexponent : (digitCount (num / den) : Int) - 1 = (digitCount (num / den) - 1 : Nat) := by
      have := digitCount_pos (num / den)
      omega
    rw [hexponent, zpow_natCast, le_div_iff₀ hdenPos]
    exact_mod_cast hpower
  next =>
    split
    next h => exact hnegative h
    next =>
      refine hnegative (Nat.le_of_lt ?_)
      rw [mul_comm]
      exact (Nat.div_lt_iff_lt_mul (Nat.pos_of_ne_zero hnum)).mp (lt_pow_digitCount _)

end Decimal

namespace Binary

/-! ### The interval of a float -/

/-- Where the numbers that round to a float start. -/
def low (b : Binary) : ℚ := (4 * b.significand - if b.narrowBelow then 1 else 2) * 2 ^ (b.exponent - 2)

/-- Where the numbers that round to a float end. -/
def high (b : Binary) : ℚ := (4 * b.significand + 2) * 2 ^ (b.exponent - 2)

/-- A number rounds to a float if it lies in its interval. The ends round to an even significand. -/
def Rounds (b : Binary) (x : ℚ) : Prop :=
  (b.low < x ∨ b.significand % 2 = 0 ∧ b.low = x) ∧
    (x < b.high ∨ b.significand % 2 = 0 ∧ x = b.high)

/-- What holds of every float: its significand fits 53 bits, and only where the significand is least
is the float below nearer. -/
structure IsFloat (b : Binary) : Prop where
  significand_lt : b.significand < 2 ^ 53
  eq_of_narrowBelow : b.narrowBelow = true → b.significand = 2 ^ 52

theorem low_lt_high (b : Binary) : b.low < b.high := by
  have hpower : (0 : ℚ) < 2 ^ (b.exponent - 2) := by positivity
  refine mul_lt_mul_of_pos_right ?_ hpower
  split <;> linarith

/-- Zero rounds to the float with no significand. -/
theorem IsFloat.rounds_zero {b : Binary} (hb : b.IsFloat) (hzero : b.significand = 0) :
    b.Rounds 0 := by
  have hwide : b.narrowBelow = false := by
    by_contra hnarrow
    have := hb.eq_of_narrowBelow (Bool.not_eq_false _ ▸ hnarrow)
    omega
  have hpower : (0 : ℚ) < 2 ^ (b.exponent - 2) := by positivity
  refine ⟨.inl ?_, .inl ?_⟩
  · rw [low, hwide, hzero]
    simp [hpower]
  · rw [high, hzero]
    simp [hpower]

/-! ### The search -/

theorem zpow_eq_div {x : ℚ} (hx : x ≠ 0) (z : Int) : x ^ z = x ^ z.toNat / x ^ (-z).toNat := by
  rw [← zpow_natCast, ← zpow_natCast, ← zpow_sub₀ hx]
  congr 1
  omega

/-- The common denominator of the grid of a float and a decimal grid. -/
def denominator (b : Binary) (unit : Int) : Nat := (b.quarters 1).2 * 10 ^ (-unit).toNat

theorem denominator_pos (b : Binary) (unit : Int) : (0 : ℚ) < b.denominator unit := by
  unfold denominator quarters
  dsimp only
  rw [Nat.pow_eq]
  positivity

theorem onGrid_eq (b : Binary) (unit : Int) (count : Nat) :
    (b.onGrid unit count : ℚ) = count * 2 ^ (b.exponent - 2) * b.denominator unit := by
  unfold onGrid denominator quarters
  dsimp only
  rw [zpow_eq_div (by norm_num) (b.exponent - 2), Nat.pow_eq, Nat.pow_eq, Nat.pow_eq]
  push_cast
  field_simp

theorem mul_spacing_eq (b : Binary) (unit : Int) (n : Nat) :
    ((n * b.spacing unit : Nat) : ℚ) = n * 10 ^ unit * b.denominator unit := by
  unfold spacing denominator quarters
  dsimp only
  rw [zpow_eq_div (by norm_num) unit, Nat.pow_eq, Nat.pow_eq]
  push_cast
  field_simp

section Search

variable {b : Binary} {unit : Int} {n : Nat}

theorem onGrid_lt_iff {count : Nat} :
    b.onGrid unit count < n * b.spacing unit ↔
      count * 2 ^ (b.exponent - 2) < (n * 10 ^ unit : ℚ) := by
  rw [← Nat.cast_lt (α := ℚ), onGrid_eq, mul_spacing_eq,
    mul_lt_mul_iff_left₀ (b.denominator_pos unit)]

theorem onGrid_eq_iff {count : Nat} :
    b.onGrid unit count = n * b.spacing unit ↔
      count * 2 ^ (b.exponent - 2) = (n * 10 ^ unit : ℚ) := by
  rw [← Nat.cast_inj (R := ℚ), onGrid_eq, mul_spacing_eq,
    mul_left_inj' (b.denominator_pos unit).ne']

theorem lt_onGrid_iff {count : Nat} :
    n * b.spacing unit < b.onGrid unit count ↔
      (n * 10 ^ unit : ℚ) < count * 2 ^ (b.exponent - 2) := by
  rw [← not_le, ← not_le, le_iff_lt_or_eq, le_iff_lt_or_eq, onGrid_lt_iff, onGrid_eq_iff]

theorem lowQuarters_mul (hpos : b.significand ≠ 0) :
    b.lowQuarters * 2 ^ (b.exponent - 2) = b.low := by
  unfold lowQuarters low
  congr 1
  split
  · rw [Nat.cast_sub (by omega)]
    push_cast
    rfl
  · rw [Nat.cast_sub (by omega)]
    push_cast
    rfl

theorem highQuarters_mul (b : Binary) : b.highQuarters * 2 ^ (b.exponent - 2) = b.high := by
  unfold highQuarters high
  push_cast
  rfl

/-- A point of the grid is tested for whether it rounds to the float. -/
theorem roundsAt_iff (hpos : b.significand ≠ 0) :
    b.roundsAt unit n = true ↔ b.Rounds (n * 10 ^ unit) := by
  unfold roundsAt Rounds
  simp only [Bool.and_eq_true, Bool.or_eq_true, decide_eq_true_eq, beq_iff_eq]
  rw [@eq_comm _ (n * b.spacing unit), onGrid_lt_iff, onGrid_eq_iff, lt_onGrid_iff, onGrid_eq_iff,
    lowQuarters_mul hpos, highQuarters_mul, @eq_comm _ b.high]

/-- Every candidate rounds to the float. -/
theorem rounds_of_mem_candidates {count : Nat} {d : Decimal} (hpos : b.significand ≠ 0)
    (h : d ∈ b.candidates count) : b.Rounds d.value := by
  obtain ⟨n, hn, rfl⟩ := List.mem_map.mp h
  exact (roundsAt_iff hpos).mp (List.mem_filter.mp hn).2

/-- The two points of the grid next to the value lie on either side of it. -/
theorem exists_neighbours (b : Binary) (unit : Int) : ∃ below : Nat,
    (∀ n, n = below ∨ n = below + 1 → n ∈ b.neighbours unit) ∧
      (below * 10 ^ unit : ℚ) ≤ (4 * b.significand : Nat) * 2 ^ (b.exponent - 2) ∧
      (4 * b.significand : Nat) * 2 ^ (b.exponent - 2) < ((below + 1 : Nat) * 10 ^ unit : ℚ) := by
  have hpos : 0 < b.spacing unit := by
    unfold spacing quarters
    dsimp only
    rw [Nat.pow_eq, Nat.pow_eq]
    positivity
  refine ⟨b.onGrid unit (4 * b.significand) / b.spacing unit, fun n hn => ?_, ?_, ?_⟩
  · unfold neighbours
    dsimp only
    split
    · simpa using hn
    · simpa using hn.symm
  · rw [← not_lt, ← onGrid_lt_iff, not_lt]
    exact Nat.div_mul_le_self _ _
  · rw [← onGrid_lt_iff]
    exact Nat.lt_mul_of_div_lt (Nat.lt_succ_self _) hpos

/-- On a grid that is fine enough some point next to the value rounds to the float. -/
theorem candidates_ne_nil {count : Nat} (hpos : b.significand ≠ 0)
    (hfine : (10 : ℚ) ^ b.unit count < b.high - b.low) : b.candidates count ≠ [] := by
  have hpower : (0 : ℚ) < 2 ^ (b.exponent - 2) := by positivity
  obtain ⟨below, hmem, hbelow, habove⟩ := b.exists_neighbours (b.unit count)
  have hlow : b.low < (4 * b.significand : Nat) * 2 ^ (b.exponent - 2) := by
    rw [← lowQuarters_mul hpos, mul_lt_mul_iff_left₀ hpower, Nat.cast_lt]
    unfold lowQuarters
    split <;> omega
  have hhigh : (4 * b.significand : Nat) * 2 ^ (b.exponent - 2) < b.high := by
    rw [← highQuarters_mul, mul_lt_mul_iff_left₀ hpower, Nat.cast_lt]
    unfold highQuarters
    omega
  -- If neither point rounds to the float, its interval lies between them.
  have hrounds : ∃ n, n ∈ b.neighbours (b.unit count) ∧ b.Rounds (n * 10 ^ b.unit count) := by
    by_cases hfirst : b.low < below * 10 ^ b.unit count
    · exact ⟨below, hmem below (.inl rfl), .inl hfirst, .inl (lt_of_le_of_lt hbelow hhigh)⟩
    · refine ⟨below + 1, hmem _ (.inr rfl), .inl (lt_trans hlow habove), .inl ?_⟩
      push_cast
      linarith
  obtain ⟨n, hn, hrounds⟩ := hrounds
  unfold candidates
  rw [Ne, List.map_eq_nil_iff]
  exact List.ne_nil_of_mem (List.mem_filter.mpr ⟨hn, (roundsAt_iff hpos).mpr hrounds⟩)

/-- A value has seventeen digits on the grid of seventeen digits. -/
theorem pow_unit_mul_le (hpos : b.significand ≠ 0) :
    (10 : ℚ) ^ b.unit 17 * 10 ^ 16 ≤ (4 * b.significand : Nat) * 2 ^ (b.exponent - 2) := by
  have hnum : (b.quarters (4 * b.significand)).1 ≠ 0 := by
    unfold quarters
    simp [hpos]
  have hden : (b.quarters (4 * b.significand)).2 ≠ 0 := by
    unfold quarters
    simp
  have hmagnitude := Decimal.pow_magnitude_le hnum hden
  have hunit : b.unit 17 = Decimal.magnitude (b.quarters (4 * b.significand)).1
      (b.quarters (4 * b.significand)).2 - (16 : Nat) := rfl
  have hfraction : ((b.quarters (4 * b.significand)).1 : ℚ) / (b.quarters (4 * b.significand)).2 =
      (4 * b.significand : Nat) * 2 ^ (b.exponent - 2) := by
    unfold quarters
    dsimp only
    rw [zpow_eq_div (by norm_num) (b.exponent - 2), Nat.pow_eq, Nat.pow_eq, mul_div_assoc']
    push_cast
    rfl
  rw [hfraction] at hmagnitude
  rwa [hunit, ← zpow_natCast, ← zpow_add₀ (by norm_num), Int.sub_add_cancel]

/-- A significand of 53 bits is less than 10 ^ 16 times the width of its interval. -/
theorem value_lt_width_mul (hb : b.IsFloat) (hpos : b.significand ≠ 0) :
    (4 * b.significand : Nat) * 2 ^ (b.exponent - 2) < (b.high - b.low) * 10 ^ 16 := by
  have hquarters : 4 * b.significand + b.lowQuarters * 10 ^ 16 < b.highQuarters * 10 ^ 16 := by
    have hless := hb.significand_lt
    unfold lowQuarters highQuarters
    split
    next hnarrow =>
      rw [hb.eq_of_narrowBelow hnarrow]
      decide
    next => omega
  have hcast : ((4 * b.significand : Nat) : ℚ) < (b.highQuarters - b.lowQuarters) * 10 ^ 16 := by
    have := (Nat.cast_lt (α := ℚ)).mpr hquarters
    push_cast at this ⊢
    linarith
  rw [← highQuarters_mul, ← lowQuarters_mul hpos, ← sub_mul, mul_right_comm]
  exact mul_lt_mul_of_pos_right hcast (by positivity)

/-- The grid of seventeen digits is fine enough for every float. -/
theorem pow_unit_lt (hb : b.IsFloat) (hpos : b.significand ≠ 0) :
    (10 : ℚ) ^ b.unit 17 < b.high - b.low := by
  have hvalue := pow_unit_mul_le hpos
  have hwidth := value_lt_width_mul hb hpos
  linarith

/-- The shortest decimal of a float rounds to it. -/
theorem rounds_shortest (hb : b.IsFloat) (hpos : b.significand ≠ 0) :
    b.Rounds b.shortest.value := by
  have hsome : ((List.range 17).findSome? fun n => (b.candidates (n + 1)).head?).isSome := by
    rw [List.findSome?_isSome_iff]
    refine ⟨16, by decide, ?_⟩
    rw [List.isSome_head?]
    exact candidates_ne_nil hpos (pow_unit_lt hb hpos)
  obtain ⟨d, hd⟩ := Option.isSome_iff_exists.mp hsome
  obtain ⟨n, -, hhead⟩ := List.exists_of_findSome?_eq_some hd
  unfold shortest
  dsimp only
  rw [Decimal.value_dropZeros, hd]
  exact rounds_of_mem_candidates hpos (List.mem_of_head? hhead)

end Search

/-! ### The order of floats -/

/-- The float whose bits without the sign are a number. What is beyond all floats goes on as they
do. -/
def ofMagnitude (bits : Nat) : Binary :=
  let fraction : Nat := bits % 2 ^ 52
  let field : Nat := bits / 2 ^ 52
  if field = 0 then ⟨fraction, -1074, false⟩
  else ⟨2 ^ 52 + fraction, (field : Int) - 1075, fraction == 0 && field != 1⟩

theorem ofBits?_eq (bits : Nat) : ofBits? bits =
    if bits / 2 ^ 52 % 2 ^ 11 = 2047 then none else some (ofMagnitude (bits % 2 ^ 63)) := by
  have hfraction : bits % 2 ^ 63 % 2 ^ 52 = bits % 2 ^ 52 := by omega
  have hfield : bits % 2 ^ 63 / 2 ^ 52 = bits / 2 ^ 52 % 2 ^ 11 := by omega
  unfold ofBits? ofMagnitude
  rw [hfraction, hfield, Nat.pow_eq, Nat.pow_eq]
  dsimp only
  simp only [beq_iff_eq]
  split
  · rfl
  · split <;> rfl

theorem isFloat_ofMagnitude (bits : Nat) : (ofMagnitude bits).IsFloat := by
  unfold ofMagnitude
  dsimp only
  split
  next =>
    refine ⟨?_, fun h => by cases h⟩
    dsimp only
    omega
  next =>
    refine ⟨?_, fun h => ?_⟩
    · dsimp only
      omega
    · simp only [Bool.and_eq_true, beq_iff_eq] at h
      dsimp only
      omega

/-- The significand is even if the bits are. -/
theorem significand_ofMagnitude_mod_two (bits : Nat) :
    (ofMagnitude bits).significand % 2 = bits % 2 := by
  unfold ofMagnitude
  dsimp only
  split <;> (dsimp only; omega)

/-- The interval of the next float starts where that of a float ends. -/
theorem low_ofMagnitude_succ (bits : Nat) :
    (ofMagnitude (bits + 1)).low = (ofMagnitude bits).high := by
  unfold ofMagnitude
  dsimp only
  by_cases hlast : bits % 2 ^ 52 + 1 < 2 ^ 52
  · -- The next float has the next significand and the same exponent.
    have hfraction : (bits + 1) % 2 ^ 52 = bits % 2 ^ 52 + 1 := by omega
    have hfield : (bits + 1) / 2 ^ 52 = bits / 2 ^ 52 := by omega
    rw [hfraction, hfield]
    have hnarrow : ((bits % 2 ^ 52 + 1 == 0) && (bits / 2 ^ 52 != 1)) = false := by simp
    rw [hnarrow]
    split
    · simp only [low, high, Bool.false_eq_true, if_false]
      generalize (2 : ℚ) ^ (-1074 - 2 : Int) = power
      push_cast
      ring
    · simp only [low, high, Bool.false_eq_true, if_false]
      push_cast
      ring
  · -- The next float has the least significand and the next exponent, if there is a lower one.
    have hfraction : bits % 2 ^ 52 = 2 ^ 52 - 1 := by omega
    have hfractionSucc : (bits + 1) % 2 ^ 52 = 0 := by omega
    have hfield : (bits + 1) / 2 ^ 52 = bits / 2 ^ 52 + 1 := by omega
    rw [hfraction, hfractionSucc, hfield, if_neg (Nat.succ_ne_zero _)]
    split
    next hzero =>
      have hexponent : ((0 + 1 : Nat) : Int) - 1075 = -1074 := rfl
      rw [hzero, hexponent]
      simp only [low, high, Nat.zero_add, bne_self_eq_false, Bool.and_false, Bool.false_eq_true,
        if_false]
      generalize (2 : ℚ) ^ (-1074 - 2 : Int) = power
      push_cast
      ring
    next hzero =>
      have hnarrow : bits / 2 ^ 52 + 1 ≠ 1 := by omega
      have hexponent : (2 : ℚ) ^ (((bits / 2 ^ 52 + 1 : Nat) : Int) - 1075 - 2) =
          2 ^ (((bits / 2 ^ 52 : Nat) : Int) - 1075 - 2) * 2 := by
        rw [← zpow_add_one₀ (by norm_num)]
        congr 1
        omega
      simp only [low, high, hexponent, bne_iff_ne, ne_eq, hnarrow, not_false_eq_true, beq_self_eq_true,
        Bool.true_and, if_true]
      push_cast
      ring

theorem strictMono_low_ofMagnitude : StrictMono fun bits => (ofMagnitude bits).low :=
  strictMono_nat_of_lt_succ fun bits => by
    rw [low_ofMagnitude_succ]
    exact low_lt_high _

/-- A number rounds to one float only. -/
theorem Rounds.inj {m n : Nat} {x : ℚ} (hm : (ofMagnitude m).Rounds x)
    (hn : (ofMagnitude n).Rounds x) : m = n := by
  -- The number would be the common end of two neighbours, and one of them is odd.
  have hnot {m n : Nat} (hm : (ofMagnitude m).Rounds x) (hn : (ofMagnitude n).Rounds x) :
      ¬ m < n := by
    intro hless
    have hend : (ofMagnitude m).high ≤ (ofMagnitude n).low :=
      low_ofMagnitude_succ m ▸ strictMono_low_ofMagnitude.monotone hless
    have hhigh : x ≤ (ofMagnitude m).high := hm.2.elim le_of_lt fun h => h.2.le
    have hlow : (ofMagnitude n).low ≤ x := hn.1.elim le_of_lt fun h => h.2.le
    have hmEven : (ofMagnitude m).significand % 2 = 0 := hm.2.elim (fun h => by linarith) And.left
    have hnEven : (ofMagnitude n).significand % 2 = 0 := hn.1.elim (fun h => by linarith) And.left
    have hnext : n = m + 1 := by
      have hsame : (ofMagnitude n).low = (ofMagnitude (m + 1)).low := by
        rw [low_ofMagnitude_succ]
        linarith
      exact strictMono_low_ofMagnitude.injective hsame
    rw [significand_ofMagnitude_mod_two] at hmEven hnEven
    omega
  exact Nat.le_antisymm (Nat.not_lt.mp (hnot hn hm)) (Nat.not_lt.mp (hnot hm hn))

end Binary

end QueryBridge
