import QueryBridge.Proofs.Lexical.ClosedCall

/-!
# The parenthesis around a place

Which parentheses are open at a place can be told in two ways. A stack takes in each opening
parenthesis of the code before the place, and each closing one drops the innermost; one that has
nothing to close is passed by. Or each parenthesis is paired with the one that closes it, by counting
from there on, and is open if that does not stand before the place. Both ways find the same
parentheses, and the one around the place is the last of them (`Text.enclosingParen?_greatest`).
-/

namespace QueryBridge

open Text Cursor

/-! ### Brackets that stay open -/

section Brackets

variable {opening closing : UInt8} {c o : Cursor} {code : List Cursor} {depth : Nat}

/-- How many brackets some code closes that it has not opened. -/
def surplus (opening closing : UInt8) : List Cursor → Nat
  | [] => 0
  | c :: code =>
    if c.sees opening then surplus opening closing code - 1
    else if c.sees closing then surplus opening closing code + 1
    else surplus opening closing code

theorem surplus_of_opening (hopens : c.sees opening = true) :
    surplus opening closing (c :: code) = surplus opening closing code - 1 := by
  rw [surplus, if_pos hopens]

theorem surplus_of_closing (hopens : c.sees opening = false) (hcloses : c.sees closing = true) :
    surplus opening closing (c :: code) = surplus opening closing code + 1 := by
  simp only [surplus, hopens, hcloses, Bool.false_eq_true, if_false, if_true]

theorem surplus_of_other (hopens : c.sees opening = false) (hcloses : c.sees closing = false) :
    surplus opening closing (c :: code) = surplus opening closing code := by
  simp only [surplus, hopens, hcloses, Bool.false_eq_true, if_false]

/-- The outermost of some open brackets is never closed if the code closes fewer than these. -/
theorem closing?_eq_none_iff :
    closing? opening closing (depth + 1) code = none ↔ surplus opening closing code ≤ depth := by
  induction code generalizing depth with
  | nil => simp [closing?, surplus]
  | cons c code ih =>
    cases hopens : c.sees opening with
    | true =>
      rw [closing?_of_opening hopens, surplus_of_opening hopens, ih]
      omega
    | false =>
      cases hcloses : c.sees closing with
      | false => rw [closing?_of_other hopens hcloses, surplus_of_other hopens hcloses, ih]
      | true =>
        rw [surplus_of_closing hopens hcloses]
        cases depth with
        | zero =>
          rw [closing?_of_last hopens hcloses]
          simp
        | succ depth =>
          rw [closing?_of_closing hopens hcloses, ih]
          omega

/-- A search in code that is cut short finds what the search in the whole code finds before the
cut. -/
theorem closing?_filter (hsorted : code.Pairwise fun c d => c.offset < d.offset)
    (depth place : Nat) :
    closing? opening closing depth (code.filter fun c => c.offset < place) =
      (closing? opening closing depth code).filter fun c => c.offset < place := by
  induction code generalizing depth with
  | nil => rfl
  | cons c code ih =>
    obtain ⟨hlater, hsorted⟩ := List.pairwise_cons.mp hsorted
    by_cases hplace : c.offset < place
    · have hkept : (c :: code).filter (fun c => c.offset < place) =
          c :: code.filter fun c => c.offset < place := by
        rw [List.filter_cons_of_pos]
        exact decide_eq_true hplace
      rw [hkept]
      cases hopens : c.sees opening with
      | true => rw [closing?_of_opening hopens, closing?_of_opening hopens, ih hsorted]
      | false =>
        cases hcloses : c.sees closing with
        | false =>
          rw [closing?_of_other hopens hcloses, closing?_of_other hopens hcloses, ih hsorted]
        | true =>
          match depth with
          | 0 =>
            rw [closing?_of_none hopens hcloses, closing?_of_none hopens hcloses]
            rfl
          | 1 =>
            rw [closing?_of_last hopens hcloses, closing?_of_last hopens hcloses]
            exact (if_pos (decide_eq_true hplace)).symm
          | depth + 2 =>
            rw [closing?_of_closing hopens hcloses, closing?_of_closing hopens hcloses, ih hsorted]
    · have hbehind : ∀ d ∈ c :: code, ¬decide (d.offset < place) = true := by
        refine List.forall_mem_cons.mpr ⟨by simpa using hplace, ?_⟩
        intro d hd
        have := hlater d hd
        simp only [decide_eq_true_eq]
        omega
      rw [List.filter_eq_nil_iff.mpr hbehind, closing?, eq_comm, Option.filter_eq_none_iff]
      intro d hd
      exact hbehind d (mem_of_closing? hd).1

/-- The brackets of some code that nothing in it closes. -/
def unclosed (opening closing : UInt8) : List Cursor → List Cursor
  | [] => []
  | c :: code =>
    if c.sees opening && (closing? opening closing 1 code).isNone then
      c :: unclosed opening closing code
    else unclosed opening closing code

theorem unclosed_sublist (opening closing : UInt8) (code : List Cursor) :
    (unclosed opening closing code).Sublist code := by
  induction code with
  | nil => exact List.Sublist.refl _
  | cons c code ih =>
    rw [unclosed]
    split
    · exact ih.cons_cons c
    · exact ih.cons c

theorem mem_unclosed_cons : o ∈ unclosed opening closing (c :: code) ↔
    (o = c ∧ c.sees opening = true ∧ closing? opening closing 1 code = none) ∨
      o ∈ unclosed opening closing code := by
  rw [unclosed]
  cases hopens : c.sees opening with
  | false => simp
  | true =>
    cases hclosing : closing? opening closing 1 code with
    | none => simp
    | some d => simp

/-- A bracket stays open if the code behind it does not close it. -/
theorem mem_unclosed_iff (hsorted : code.Pairwise fun c d => c.offset < d.offset) :
    o ∈ unclosed opening closing code ↔ o ∈ code ∧ o.sees opening = true ∧
      closing? opening closing 1 (code.filter fun c => o.offset < c.offset) = none := by
  induction code with
  | nil => simp [unclosed]
  | cons c code ih =>
    obtain ⟨hlater, hsorted⟩ := List.pairwise_cons.mp hsorted
    have hfirst : (c :: code).filter (fun d => c.offset < d.offset) = code := by
      rw [List.filter_cons_of_neg (by simp), List.filter_eq_self]
      intro d hd
      exact decide_eq_true (hlater d hd)
    have hpassed : ∀ d ∈ code, (c :: code).filter (fun e => d.offset < e.offset) =
        code.filter fun e => d.offset < e.offset := by
      intro d hd
      have := hlater d hd
      rw [List.filter_cons_of_neg]
      simp only [decide_eq_true_eq]
      omega
    rw [mem_unclosed_cons, ih hsorted, List.mem_cons]
    constructor
    · rintro (⟨rfl, hsees, hnone⟩ | ⟨hmem, hsees, hnone⟩)
      · exact ⟨.inl rfl, hsees, by rwa [hfirst]⟩
      · exact ⟨.inr hmem, hsees, by rwa [hpassed o hmem]⟩
    · rintro ⟨rfl | hmem, hsees, hnone⟩
      · exact .inl ⟨rfl, hsees, by rwa [hfirst] at hnone⟩
      · exact .inr ⟨hmem, hsees, by rwa [hpassed o hmem] at hnone⟩

end Brackets

/-! ### The stack -/

/-- The stack holds the parentheses that nothing closes, the innermost first, and below them those
that were open before, less the ones that the code closes. -/
theorem openParens_eq (opened code : List Cursor) :
    openParens opened code =
      (unclosed Byte.openParen Byte.closeParen code).reverse ++
        opened.drop (surplus Byte.openParen Byte.closeParen code) := by
  induction code generalizing opened with
  | nil => rfl
  | cons c code ih =>
    cases hopens : c.sees Byte.openParen with
    | true =>
      rw [openParens, if_pos hopens, ih, surplus_of_opening hopens, unclosed, hopens, Bool.true_and]
      cases hsurplus : surplus Byte.openParen Byte.closeParen code with
      | zero =>
        rw [closing?_eq_none_iff.mpr (Nat.le_of_eq hsurplus)]
        simp
      | succ n =>
        -- The first of the closing parentheses too many belongs to this one.
        have hcloses : closing? Byte.openParen Byte.closeParen 1 code ≠ none := by
          rw [Ne, closing?_eq_none_iff, hsurplus]
          omega
        simp [hcloses]
    | false =>
      cases hcloses : c.sees Byte.closeParen with
      | true => simp [openParens, unclosed, hopens, hcloses, ih, surplus_of_closing]
      | false => simp [openParens, unclosed, hopens, hcloses, ih, surplus_of_other]

/-- The first of some places of which each stands before the last is the greatest of them. -/
theorem Cursor.head?_eq_some_iff_greatest {stack : List Cursor} {o : Cursor}
    (hsorted : stack.Pairwise fun c d => d.offset < c.offset) :
    stack.head? = some o ↔ o ∈ stack ∧ ∀ c ∈ stack, c.offset ≤ o.offset := by
  cases stack with
  | nil => simp
  | cons c stack =>
    obtain ⟨hbelow, -⟩ := List.pairwise_cons.mp hsorted
    rw [List.head?_cons, Option.some.injEq]
    constructor
    · rintro rfl
      refine ⟨List.mem_cons_self, List.forall_mem_cons.mpr ⟨Nat.le_refl _, ?_⟩⟩
      intro d hd
      exact Nat.le_of_lt (hbelow d hd)
    · rintro ⟨hmem, hgreatest⟩
      rcases List.mem_cons.mp hmem with rfl | hmem
      · rfl
      · have := hbelow o hmem
        have := hgreatest c List.mem_cons_self
        omega

namespace Text

variable {text : Text} {place : Nat} {o : Cursor}

/-- A parenthesis of a text that is open at a place: it is code that stands before the place, and
what closes it, if anything does, does not stand before the place. -/
structure OpenAt (text : Text) (place : Nat) (o : Cursor) : Prop where
  mem : o ∈ text.code
  opens : o.sees Byte.openParen = true
  before : o.offset < place
  unclosed : ∀ d, o.closingParen? = some d → place ≤ d.offset

/-- The code between a byte of code and a place is what a search behind the byte finds there. -/
theorem filter_filter_code (h : o ∈ text.code) (place : Nat) :
    (text.code.filter fun c => c.offset < place).filter (fun c => o.offset < c.offset) =
      (o.forward 1).code.filter fun c => c.offset < place := by
  have hcode : text.code = (text.cursor 0).code := rfl
  rw [hcode] at h ⊢
  rw [(ReadsTo.forward_of_mem h).code_eq, offset_forward_of_mem h, List.filter_filter,
    List.filter_filter]
  refine List.filter_congr ?_
  intro c _
  rw [Bool.and_comm]
  rfl

/-- The parentheses open at a place are those that nothing closes in the code before it. -/
theorem mem_unclosed_codeBetween :
    o ∈ unclosed Byte.openParen Byte.closeParen (text.codeBetween 0 place) ↔
      text.OpenAt place o := by
  have hcut : text.codeBetween 0 place = text.code.filter fun c => c.offset < place :=
    codeBetween_eq_filter text 0 place
  have hclosing (hmem : o ∈ text.code) (hsees : o.sees Byte.openParen = true) :
      closing? Byte.openParen Byte.closeParen 1
          ((text.codeBetween 0 place).filter fun c => o.offset < c.offset) = none ↔
        ∀ d, o.closingParen? = some d → place ≤ d.offset := by
    have hsorted : (o.forward 1).code.Pairwise fun c d => c.offset < d.offset := pairwise_codeFrom
    rw [hcut, filter_filter_code hmem, closing?_filter hsorted, ← closingParen?_eq hsees,
      Option.filter_eq_none_iff]
    simp only [decide_eq_true_eq, Nat.not_lt]
  rw [mem_unclosed_iff (hcut ▸ (pairwise_code text).filter _)]
  constructor
  · rintro ⟨hmem, hsees, hnone⟩
    rw [hcut, List.mem_filter, decide_eq_true_eq] at hmem
    exact ⟨hmem.1, hsees, hmem.2, (hclosing hmem.1 hsees).mp hnone⟩
  · rintro ⟨hmem, hsees, hbefore, hunclosed⟩
    refine ⟨?_, hsees, (hclosing hmem hsees).mpr hunclosed⟩
    rw [hcut, List.mem_filter, decide_eq_true_eq]
    exact ⟨hmem, hbefore⟩

/-- The parenthesis around a place is the last one of those that are open there, and there is none
around it exactly if none is open there. -/
theorem enclosingParen?_greatest (text : Text) (place : Nat) :
    (∀ o, text.enclosingParen? place = some o ↔
      text.OpenAt place o ∧ ∀ c, text.OpenAt place c → c.offset ≤ o.offset) ∧
    (text.enclosingParen? place = none ↔ ∀ o, ¬text.OpenAt place o) := by
  have hstack : openParens [] (text.codeBetween 0 place) =
      (unclosed Byte.openParen Byte.closeParen (text.codeBetween 0 place)).reverse := by
    rw [openParens_eq, List.drop_nil, List.append_nil]
  have hmem (o : Cursor) : o ∈ openParens [] (text.codeBetween 0 place) ↔ text.OpenAt place o := by
    rw [hstack, List.mem_reverse, mem_unclosed_codeBetween]
  have hsorted : (openParens [] (text.codeBetween 0 place)).Pairwise
      fun c d => d.offset < c.offset := by
    rw [hstack, List.pairwise_reverse]
    refine List.Pairwise.sublist (unclosed_sublist _ _ _) ?_
    rw [codeBetween_eq_filter]
    exact (pairwise_code text).filter _
  rw [enclosingParen?]
  constructor
  · intro o
    simp only [head?_eq_some_iff_greatest hsorted, hmem]
  · simp only [List.head?_eq_none_iff, List.eq_nil_iff_forall_not_mem, hmem]

/-- Parentheses in a literal or in a comment do not count, nor does one that closes nothing. -/
example : (enclosingParen? ") f(a, (b), '(', /* ( */ c" 26).map (·.offset) = some 3 := by
  decide +kernel

end Text

end QueryBridge
