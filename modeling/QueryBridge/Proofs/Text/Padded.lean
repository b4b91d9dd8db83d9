import Mathlib.Data.List.Forall2
import Mathlib.Tactic.Tauto
import QueryBridge.Proofs.Text.Decimal
import QueryBridge.Text.Padded

/-!
# Numbers of fixed width

A padded number spells the number. If it fits its width it has that many digits, so texts that are
made of such numbers are in the order of their numbers.
-/

namespace QueryBridge

namespace Text

variable {width m n : Nat}

theorem isDigit_of_mem_padded : ∀ b ∈ padded width n, Byte.isDigit b = true := by
  refine List.forall_mem_append.mpr ⟨fun b hb => ?_, isDigit_of_mem_ofNat⟩
  rw [List.eq_of_mem_replicate hb]
  rfl

theorem padded_ne_nil : padded width n ≠ [] :=
  List.append_ne_nil_of_right_ne_nil _ (ofNat_ne_nil n)

/-- Zeros in front do not change the number that is spelled. -/
theorem toNat_padded : toNat (padded width n) = n := by
  rw [padded, toNat_append, toNat_replicate_zero, Nat.zero_mul, Nat.zero_add, toNat_ofNat]

theorem padded_inj : padded width m = padded width n ↔ m = n := by
  refine ⟨fun h => ?_, congrArg (padded width)⟩
  rw [← @toNat_padded width m, h, toNat_padded]

/-- The last digit comes off the end. -/
theorem padded_succ (h : width ≠ 0) (n : Nat) :
    padded (width + 1) n = padded width (n / 10) ++ [(48 + n % 10).toUInt8] := by
  unfold padded
  rw [ofNat_eq n]
  split
  next hsmall =>
    have hzero : ofNat (n / 10) = [Byte.zero] := by
      rw [Nat.div_eq_of_lt hsmall]
      rfl
    have hzeros : List.replicate width Byte.zero =
        List.replicate (width - 1) Byte.zero ++ [Byte.zero] := by
      rw [← List.replicate_succ', Nat.sub_add_cancel (Nat.one_le_iff_ne_zero.mpr h)]
    simp only [hzero, List.nil_append, List.length_singleton, Nat.add_sub_cancel]
    rw [hzeros]
  next =>
    simp only [List.length_append, List.length_singleton, Nat.add_sub_add_right, List.append_assoc]

theorem padded_one (h : n < 10) : padded 1 n = [(48 + n % 10).toUInt8] := by
  rw [padded, ofNat_eq, if_pos h]
  rfl

/-- A number that fits has as many digits as the width. -/
theorem length_padded (hwidth : width ≠ 0) (h : n < 10 ^ width) :
    (padded width n).length = width := by
  induction width generalizing n with
  | zero => exact absurd rfl hwidth
  | succ width ih =>
    by_cases hone : width = 0
    · subst hone
      rw [padded_one h, List.length_singleton]
    · rw [padded_succ hone, List.length_append, List.length_singleton,
        ih hone (Nat.div_lt_of_lt_mul (by rwa [← Nat.pow_succ']))]

/-! ### Order -/

/-- Of two texts with parts of equal length in front, the parts are compared first. -/
theorem append_lt_append_iff {a b x y : Text} (h : a.length = b.length) :
    a ++ x < b ++ y ↔ a < b ∨ a = b ∧ x < y := by
  induction a generalizing b with
  | nil =>
    obtain rfl := List.length_eq_zero_iff.mp h.symm
    simp
  | cons c a ih =>
    cases b with
    | nil => cases h
    | cons d b =>
      have htail := ih (Nat.succ.inj h)
      simp only [List.cons_append, List.cons_lt_cons_iff, htail, List.cons.injEq]
      tauto

theorem digit_lt_digit_iff : (48 + m % 10).toUInt8 < (48 + n % 10).toUInt8 ↔ m % 10 < n % 10 := by
  rw [UInt8.lt_iff_toNat_lt, toNat_digit, toNat_digit, Nat.add_lt_add_iff_left]

/-- Numbers of one width are in the order of their texts. -/
theorem padded_lt_padded_iff (hm : m < 10 ^ width) (hn : n < 10 ^ width) :
    padded width m < padded width n ↔ m < n := by
  induction width generalizing m n with
  | zero =>
    obtain rfl := Nat.lt_one_iff.mp hm
    obtain rfl := Nat.lt_one_iff.mp hn
    exact iff_of_false (List.lt_irrefl _) (Nat.lt_irrefl _)
  | succ width ih =>
    by_cases hone : width = 0
    · subst hone
      rw [Nat.zero_add, Nat.pow_one] at hm hn
      rw [padded_one hm, padded_one hn, List.cons_lt_cons_iff, digit_lt_digit_iff,
        Nat.mod_eq_of_lt hm, Nat.mod_eq_of_lt hn]
      simp
    · have hfront {k : Nat} (hk : k < 10 ^ (width + 1)) : k / 10 < 10 ^ width :=
        Nat.div_lt_of_lt_mul (by rwa [← Nat.pow_succ'])
      rw [padded_succ hone, padded_succ hone,
        append_lt_append_iff (by rw [length_padded hone (hfront hm), length_padded hone (hfront hn)]),
        ih (hfront hm) (hfront hn), padded_inj, List.cons_lt_cons_iff, digit_lt_digit_iff]
      simp only [List.lt_irrefl, and_false, or_false]
      omega

/-- Numbers of fixed widths with a byte behind each. -/
def fields : List (Nat × UInt8) → List Nat → Text
  | (width, behind) :: form, n :: numbers => padded width n ++ behind :: fields form numbers
  | _, _ => []

/-- The numbers fit the widths of a form. -/
def Fit (form : List (Nat × UInt8)) (numbers : List Nat) : Prop :=
  List.Forall₂ (fun field n => field.1 ≠ 0 ∧ n < 10 ^ field.1) form numbers

theorem length_fields {form : List (Nat × UInt8)} {numbers : List Nat} (h : Fit form numbers) :
    (fields form numbers).length = (form.map fun field => field.1 + 1).sum := by
  induction h with
  | nil => rfl
  | cons hn hrest ih =>
    rw [fields, List.length_append, length_padded hn.1 hn.2, List.length_cons, ih, List.map_cons,
      List.sum_cons]
    omega

/-- Texts of one form are in the order of their numbers, compared from left to right. -/
theorem fields_lt_fields_iff {form : List (Nat × UInt8)} {first second : List Nat}
    (hfirst : Fit form first) (hsecond : Fit form second) :
    fields form first < fields form second ↔ first < second := by
  induction hfirst generalizing second with
  | nil =>
    cases hsecond
    exact iff_of_false (List.lt_irrefl _) (List.lt_irrefl _)
  | @cons field m form first hm hrest ih =>
    cases hsecond with
    | @cons _ n _ second hn hrest' =>
      have hlength : (padded field.1 m).length = (padded field.1 n).length := by
        rw [length_padded hm.1 hm.2, length_padded hn.1 hn.2]
      rw [fields, fields, append_lt_append_iff hlength, padded_lt_padded_iff hm.2 hn.2, padded_inj,
        List.cons_lt_cons_iff, ih hrest', List.cons_lt_cons_iff]
      simp [UInt8.lt_irrefl]

/-- Texts of one form are equal only if their numbers are. -/
theorem fields_inj {form : List (Nat × UInt8)} {first second : List Nat}
    (hfirst : Fit form first) (hsecond : Fit form second) :
    fields form first = fields form second ↔ first = second := by
  refine ⟨fun h => ?_, congrArg (fields form)⟩
  have hnot {a b : List Nat} (ha : Fit form a) (hb : Fit form b)
      (heq : fields form a = fields form b) : ¬ a < b := by
    rw [← fields_lt_fields_iff ha hb, heq]
    exact List.lt_irrefl _
  exact List.le_antisymm (hnot hsecond hfirst h.symm) (hnot hfirst hsecond h)

end Text

end QueryBridge
