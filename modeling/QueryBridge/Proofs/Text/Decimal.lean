import Mathlib.Algebra.GroupWithZero.Nat
import QueryBridge.Decimal.Reading

/-!
# Decimal digits

The last digit of a number is its remainder, and the digits before it are those of the quotient. So
the digits of a number spell the number, and only zero starts with a zero.
-/

namespace QueryBridge

namespace Text

variable {n : Nat}

/-- The last digit comes off the end. -/
theorem ofNat_eq (n : Nat) :
    ofNat n = (if n < 10 then [] else ofNat (n / 10)) ++ [(48 + n % 10).toUInt8] := by
  have hdigit : ∀ d < 10, (Nat.digitChar d).val.toUInt8 = (48 + d).toUInt8 := by decide
  unfold ofNat
  rw [Nat.toDigits_eq_if (by decide)]
  split
  next h => rw [Nat.mod_eq_of_lt h, List.map_singleton, hdigit n h, List.nil_append]
  next =>
    rw [List.map_append, List.map_singleton, hdigit (n % 10) (Nat.mod_lt n (by decide))]

theorem toNat_digit (n : Nat) : (48 + n % 10).toUInt8.toNat = 48 + n % 10 := by
  have hless := Nat.mod_lt n (show 0 < 10 by decide)
  simp only [Nat.toUInt8_eq, UInt8.toNat_ofNat']
  omega

theorem ofNat_ne_nil (n : Nat) : ofNat n ≠ [] := by
  rw [ofNat_eq]
  exact List.append_ne_nil_of_right_ne_nil _ (List.cons_ne_nil _ _)

theorem isDigit_of_mem_ofNat : ∀ b ∈ ofNat n, Byte.isDigit b = true := by
  induction n using Nat.strongRecOn with
  | ind n ih =>
    rw [ofNat_eq]
    intro b hb
    rcases List.mem_append.mp hb with hfront | hlast
    · split at hfront
      next => simp at hfront
      next hten => exact ih (n / 10) (by omega) b hfront
    · rw [List.mem_singleton.mp hlast]
      simp only [Byte.isDigit, Bool.and_eq_true, decide_eq_true_eq, UInt8.le_iff_toNat_le,
        toNat_digit, UInt8.reduceToNat]
      omega

/-- The digits of a number spell it. -/
theorem toNat_ofNat (n : Nat) : toNat (ofNat n) = n := by
  induction n using Nat.strongRecOn with
  | ind n ih =>
    rw [ofNat_eq, toNat, List.foldl_append]
    change toNat (if n < 10 then [] else ofNat (n / 10)) * 10 + _ = n
    rw [toNat_digit]
    split
    next => simp only [toNat, List.foldl_nil]; omega
    next => rw [ih (n / 10) (by omega)]; omega

/-- Digits in front are moved to the left by those behind them. -/
theorem toNat_append (front digits : Text) :
    toNat (front ++ digits) = toNat front * 10 ^ digits.length + toNat digits := by
  have hfold (start : Nat) : digits.foldl (fun n b => n * 10 + (b.toNat - 48)) start =
      start * 10 ^ digits.length + toNat digits := by
    induction digits generalizing start with
    | nil => simp [toNat]
    | cons b digits ih =>
      have hfirst : toNat (b :: digits) =
          digits.foldl (fun n b => n * 10 + (b.toNat - 48)) (0 * 10 + (b.toNat - 48)) := rfl
      rw [List.foldl_cons, ih, hfirst, ih, List.length_cons, Nat.pow_succ, Nat.add_mul,
        Nat.mul_assoc, Nat.mul_comm 10, Nat.zero_mul, Nat.zero_add, Nat.add_assoc]
  rw [toNat, List.foldl_append]
  exact hfold _

@[simp] theorem toNat_replicate_zero (count : Nat) :
    toNat (List.replicate count Byte.zero) = 0 := by
  induction count with
  | zero => rfl
  | succ count ih => exact ih

/-- Only zero starts with a zero. -/
theorem head?_ofNat_ne_zero (h : n ≠ 0) : (ofNat n).head? ≠ some Byte.zero := by
  induction n using Nat.strongRecOn with
  | ind n ih =>
    rw [ofNat_eq]
    split
    next hten =>
      intro hzero
      have hsame := congrArg UInt8.toNat (Option.some.inj hzero)
      rw [toNat_digit, Nat.mod_eq_of_lt hten] at hsame
      have hzero : Byte.zero.toNat = 48 := rfl
      omega
    next hten =>
      rw [List.head?_append, Option.or_of_isSome (List.isSome_head?.mpr (ofNat_ne_nil _))]
      exact ih (n / 10) (by omega) (by omega)

/-- Digits without a sign are read as the number they spell. -/
theorem toInt?_of_digits {digits : Text} (hne : digits ≠ [])
    (hdigits : ∀ b ∈ digits, Byte.isDigit b = true) :
    toInt? digits = some (toNat digits : Int) := by
  have hall : digits.all Byte.isDigit = true := List.all_eq_true.mpr hdigits
  unfold toInt?
  split
  next heq =>
    split at heq
    next => exact absurd (hdigits _ List.mem_cons_self) (by decide)
    next => exact absurd (hdigits _ List.mem_cons_self) (by decide)
    next =>
      obtain ⟨rfl, rfl⟩ := Prod.mk.inj heq
      simp [hne, hall]

/-- Digits behind a minus sign are read as the number below zero. -/
theorem toInt?_hyphen {digits : Text} (hne : digits ≠ [])
    (hdigits : ∀ b ∈ digits, Byte.isDigit b = true) :
    toInt? (Byte.hyphen :: digits) = some (-(toNat digits : Int)) := by
  have hread : toInt? (Byte.hyphen :: digits) =
      if digits.isEmpty || !digits.all Byte.isDigit then none else some (-(toNat digits : Int)) := rfl
  rw [hread, List.all_eq_true.mpr hdigits, List.isEmpty_eq_false_iff.mpr hne]
  rfl

/-- Digits behind a plus sign are read as the number they spell. -/
theorem toInt?_plus {digits : Text} (hne : digits ≠ [])
    (hdigits : ∀ b ∈ digits, Byte.isDigit b = true) :
    toInt? (Byte.plus :: digits) = some (toNat digits : Int) := by
  have hread : toInt? (Byte.plus :: digits) =
      if digits.isEmpty || !digits.all Byte.isDigit then none else some (toNat digits : Int) := rfl
  rw [hread, List.all_eq_true.mpr hdigits, List.isEmpty_eq_false_iff.mpr hne]
  rfl

/-- The spelling of an integer is read as that integer. -/
theorem toInt?_ofInt (n : Int) : toInt? (ofInt n) = some n := by
  cases n with
  | ofNat n =>
    change toInt? (ofNat n) = _
    rw [toInt?_of_digits (ofNat_ne_nil n) isDigit_of_mem_ofNat, toNat_ofNat]
    rfl
  | negSucc n =>
    change toInt? (Byte.hyphen :: ofNat (n + 1)) = _
    rw [toInt?_hyphen (ofNat_ne_nil _) isDigit_of_mem_ofNat, toNat_ofNat]
    rfl

/-- No two integers are spelled alike. -/
theorem ofInt_inj {m n : Int} : ofInt m = ofInt n ↔ m = n := by
  refine ⟨fun h => ?_, congrArg ofInt⟩
  have hread := toInt?_ofInt m
  rw [h, toInt?_ofInt] at hread
  exact (Option.some.inj hread).symm

theorem ofInt_ne_nil (n : Int) : ofInt n ≠ [] := by
  cases n with
  | ofNat n => exact ofNat_ne_nil n
  | negSucc n => exact List.cons_ne_nil _ _

/-- An integer is spelled with digits and a minus sign. -/
theorem isDigit_of_mem_ofInt {n : Int} {b : UInt8} (h : b ∈ ofInt n) :
    Byte.isDigit b = true ∨ b = Byte.hyphen := by
  cases n with
  | ofNat n => exact Or.inl (isDigit_of_mem_ofNat _ h)
  | negSucc n =>
    rcases List.mem_cons.mp h with rfl | h
    · exact Or.inr rfl
    · exact Or.inl (isDigit_of_mem_ofNat _ h)

theorem notMem_ofInt {n : Int} {b : UInt8} (hdigit : Byte.isDigit b = false)
    (hb : b ≠ Byte.hyphen) : b ∉ ofInt n := by
  intro hmem
  rcases isDigit_of_mem_ofInt hmem with h | h
  · rw [hdigit] at h
    cases h
  · exact hb h

/-- An integer that fits a word with a sign is read as such. -/
theorem toWord?_ofInt {n : Int} (h : isSigned n = true) : toWord? (ofInt n) = some n := by
  rw [toWord?, toInt?_ofInt, Option.filter_some, if_pos h]

theorem toWord?_ofNat (h : isSigned n = true) : toWord? (ofNat n) = some (n : Int) :=
  toWord?_ofInt h

end Text

end QueryBridge
