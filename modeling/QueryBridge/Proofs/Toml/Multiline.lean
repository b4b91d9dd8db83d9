import QueryBridge.Proofs.Toml.Escape

/-!
# Strings over several lines

At most two quotes stand in a row inside of such a string, so the first three quotes in a row close it;
quotes right before them belong to the content. A line break behind the opening quotes is none of the
content, and it is written exactly if the content has line breaks of its own.
-/

namespace QueryBridge

namespace Toml

variable {b quote : UInt8} {text rest : Text} {fuel run : Nat}

/-! ### Strings over several lines -/

/-- The three quotes that open and close a string over several lines. -/
def threefold (quote : UInt8) : Text := List.replicate 3 quote

theorem string?_threefold_doubleQuote (text : Text) :
    string? (threefold Byte.doubleQuote ++ text) =
      multiBasic? (text.length + 1) (skipFirstBreak text) := rfl

theorem string?_threefold_quote (text : Text) :
    string? (threefold Byte.quote ++ text) =
      multiLiteral? (text.length + 1) (skipFirstBreak text) := rfl

/-- A string closes where nothing but quotes is left of its content, and otherwise goes on. -/
theorem closingQuotes?_append {body : Text}
    (hbody : (body.takeWhile (· == quote)).length ≤ 2) (hrest : rest.head? ≠ some quote) :
    closingQuotes? quote (body ++ (threefold quote ++ rest)) =
      if body.all (· == quote) then some body.length else none := by
  have hrest : rest.takeWhile (· == quote) = [] := by
    cases rest with
    | nil => rfl
    | cons b rest => exact List.takeWhile_cons_of_neg (by simpa using hrest)
  have hclosing : (threefold quote ++ rest).takeWhile (· == quote) = threefold quote := by
    rw [List.takeWhile_append_of_pos (by simp [threefold]), hrest, List.append_nil]
  rw [closingQuotes?, List.takeWhile_append, hclosing]
  split
  next hall =>
    have hbody' := List.takeWhile_eq_self_iff.mp
      ((List.takeWhile_prefix _).eq_of_length hall)
    rw [hall] at hbody
    rw [if_pos (List.all_eq_true.mpr hbody')]
    simp only [threefold, List.length_append, List.length_replicate]
    rw [if_neg (by omega), Nat.add_sub_cancel, Nat.min_eq_left hbody]
  next hsome =>
    have hnot : ¬ body.all (· == quote) = true := by
      intro hall
      rw [List.takeWhile_eq_self_iff.mpr (List.all_eq_true.mp hall)] at hsome
      exact hsome rfl
    rw [if_neg hnot, if_pos (by omega)]

/-- Quotes that are left of the content are what is kept before the closing ones. -/
theorem kept_of_all_quotes {body : Text} (h : body.all (· == quote) = true) (rest : Text) :
    List.replicate body.length quote = body ∧
      (body ++ (threefold quote ++ rest)).drop (body.length + 3) = rest := by
  refine ⟨(List.eq_replicate_iff.mpr ⟨rfl, fun b hb => ?_⟩).symm, ?_⟩
  · simpa using List.all_eq_true.mp h b hb
  · rw [← List.append_assoc]
    exact List.drop_left' (by simp [threefold])

theorem lineBreak?_append_threefold (hquote : quote ≠ Byte.newline ∧ quote ≠ Byte.carriageReturn)
    {body : Text} (h : ∀ b ∈ body.head?, b ≠ Byte.newline ∧ b ≠ Byte.carriageReturn) :
    lineBreak? (body ++ (threefold quote ++ rest)) = none := by
  apply lineBreak?_eq_none
  cases body with
  | nil => simpa [threefold] using hquote
  | cons b body => exact h

/-- The line break behind the opening quotes is there exactly if the reader would drop one. -/
theorem skipFirstBreak_openLines (hquote : quote ≠ Byte.newline ∧ quote ≠ Byte.carriageReturn)
    {body : Text} (h : text.contains Byte.newline = false →
      ∀ b ∈ body.head?, b ≠ Byte.newline ∧ b ≠ Byte.carriageReturn) :
    skipFirstBreak (Text.when (text.contains Byte.newline) [Byte.newline] ++
      (body ++ (threefold quote ++ rest))) = body ++ (threefold quote ++ rest) := by
  cases hnewline : text.contains Byte.newline with
  | true => rfl
  | false =>
    have hnone := @lineBreak?_append_threefold quote rest hquote body (h hnewline)
    rw [Text.when, if_neg (by decide), List.nil_append, skipFirstBreak, hnone]
    rfl

/-! ### Strings over several lines with escapes -/

theorem takeWhile_quotes_escapeLines (h : run ≤ 2) :
    ((escapeLines run text).takeWhile (· == Byte.doubleQuote)).length + run ≤ 2 := by
  induction text generalizing run with
  | nil => simpa [escapeLines] using h
  | cons b text ih =>
    unfold escapeLines
    split
    next hnewline =>
      rw [eq_of_beq hnewline, List.takeWhile_cons_of_neg (by decide)]
      simpa using h
    next =>
      split
      next hquote =>
        simp only [Bool.and_eq_true, beq_iff_eq, decide_eq_true_eq] at hquote
        obtain ⟨rfl, hrun⟩ := hquote
        rw [List.takeWhile_cons_of_pos (by decide), List.length_cons]
        have hlater := @ih (run + 1) hrun
        omega
      next =>
        obtain ⟨first, others, hfirst, hne, -⟩ := exists_cons_escapeByte b
        rw [hfirst, List.cons_append, List.takeWhile_cons_of_neg (by simpa using hne)]
        simpa using h

/-- Only double quotes are written as double quotes alone. -/
theorem escapeLines_eq_self_of_all_quotes
    (h : (escapeLines run text).all (· == Byte.doubleQuote) = true) :
    escapeLines run text = text := by
  induction text generalizing run with
  | nil => rfl
  | cons b text ih =>
    unfold escapeLines at h ⊢
    split at h
    next hnewline =>
      rw [eq_of_beq hnewline] at h
      exact absurd (Bool.and_eq_true_iff.mp h).1 (by decide)
    next hnewline =>
      split at h
      next hquote =>
        rw [if_neg hnewline, if_pos hquote, ih (Bool.and_eq_true_iff.mp h).2]
      next =>
        obtain ⟨first, others, hfirst, hne, -⟩ := exists_cons_escapeByte b
        rw [hfirst] at h
        exact absurd h (by simp [hne])

theorem multiBasic?_escapeByte_append (fuel : Nat) (b : UInt8) (rest : Text) :
    multiBasic? (fuel + 1) (escapeByte b ++ rest) =
      (multiBasic? fuel rest).map fun (content, rest) => (b :: content, rest) := by
  obtain ⟨first, others, hfirst, hquote, hbreak⟩ := exists_cons_escapeByte b
  have hcloses : closingQuotes? Byte.doubleQuote (escapeByte b ++ rest) = none := by
    simp [hfirst, closingQuotes?, hquote]
  have hnone : lineBreak? (escapeByte b ++ rest) = none :=
    lineBreak?_eq_none (by simpa [hfirst] using hbreak)
  rw [multiBasic?.eq_def (fuel + 1)]
  simp only [hcloses, hnone]
  rcases escapeByte_cases b with ⟨hself, hbasic⟩ | ⟨escape, hescape, hreads⟩
  · have hplain := hbasic
    simp only [isBasicByte, Bool.and_eq_true, bne_iff_ne] at hplain
    simp [hself, hbasic, hplain]
  · obtain ⟨hescapes, hjoined⟩ := hreads rest
    simp only [hescape, List.cons_append, beq_self_eq_true, if_true, hjoined, hescapes,
      Option.bind_eq_bind, Option.bind_some, Option.pure_def, Option.map_eq_bind]
    rfl

theorem multiBasic?_newline (fuel : Nat) (rest : Text) :
    multiBasic? (fuel + 1) (Byte.newline :: rest) =
      (multiBasic? fuel rest).map fun (content, rest) => (Byte.newline :: content, rest) := rfl

theorem multiBasic?_doubleQuote
    (hcloses : closingQuotes? Byte.doubleQuote (Byte.doubleQuote :: rest) = none) :
    multiBasic? (fuel + 1) (Byte.doubleQuote :: rest) =
      (multiBasic? fuel rest).map fun (content, rest) => (Byte.doubleQuote :: content, rest) := by
  rw [multiBasic?, hcloses]
  rfl

theorem multiBasic?_of_all_quotes {body : Text} (hrest : rest.head? ≠ some Byte.doubleQuote)
    (hbody : (body.takeWhile (· == Byte.doubleQuote)).length ≤ 2)
    (hall : body.all (· == Byte.doubleQuote) = true) (fuel : Nat) :
    multiBasic? (fuel + 1) (body ++ (threefold Byte.doubleQuote ++ rest)) = some (body, rest) := by
  obtain ⟨hkept, hdropped⟩ := kept_of_all_quotes hall rest
  unfold multiBasic?
  simp only [closingQuotes?_append hbody hrest, hall, if_true, hkept, hdropped]

/-- One byte of a string that goes on is read, as a quote of a run, a line break or an escape. -/
theorem exists_multiBasic?_cons {after : Text}
    (hcloses : closingQuotes? Byte.doubleQuote (escapeLines run (b :: text) ++ after) = none) :
    ∃ next ≤ 2, multiBasic? (fuel + 1) (escapeLines run (b :: text) ++ after) =
      (multiBasic? fuel (escapeLines next text ++ after)).map
        fun (content, rest) => (b :: content, rest) := by
  unfold escapeLines at hcloses
  rw [escapeLines]
  split at hcloses
  next hnewline =>
    obtain rfl := eq_of_beq hnewline
    rw [if_pos hnewline]
    exact ⟨0, Nat.zero_le 2, multiBasic?_newline fuel _⟩
  next hnewline =>
    rw [if_neg hnewline]
    split at hcloses
    next hquote =>
      rw [if_pos hquote]
      simp only [Bool.and_eq_true, beq_iff_eq, decide_eq_true_eq] at hquote
      obtain ⟨rfl, hless⟩ := hquote
      exact ⟨run + 1, hless, multiBasic?_doubleQuote hcloses⟩
    next hquote =>
      rw [if_neg hquote, List.append_assoc]
      exact ⟨0, Nat.zero_le 2, multiBasic?_escapeByte_append fuel b _⟩

/-- Between three double quotes every text reads back. -/
theorem multiBasic?_append (hrest : rest.head? ≠ some Byte.doubleQuote) (hrun : run ≤ 2)
    (h : text.length < fuel) :
    multiBasic? fuel (escapeLines run text ++ (threefold Byte.doubleQuote ++ rest)) =
      some (text, rest) := by
  induction text generalizing fuel run with
  | nil =>
    obtain ⟨fuel, rfl⟩ := Nat.exists_eq_add_one_of_ne_zero (Nat.ne_zero_of_lt h)
    exact multiBasic?_of_all_quotes hrest (Nat.zero_le _) rfl fuel
  | cons b text ih =>
    obtain ⟨fuel, rfl⟩ := Nat.exists_eq_add_one_of_ne_zero (Nat.ne_zero_of_lt h)
    have hleading := Nat.le_of_add_right_le (@takeWhile_quotes_escapeLines (b :: text) run hrun)
    have hcloses := closingQuotes?_append hleading hrest
    cases hall : (escapeLines run (b :: text)).all (· == Byte.doubleQuote) with
    | true =>
      rw [multiBasic?_of_all_quotes hrest hleading hall, escapeLines_eq_self_of_all_quotes hall]
    | false =>
      rw [hall, if_neg (by decide)] at hcloses
      obtain ⟨next, hnext, hstep⟩ := @exists_multiBasic?_cons b text fuel run _ hcloses
      rw [hstep, ih hnext (Nat.lt_of_succ_lt_succ h)]
      rfl

theorem length_le_length_escapeLines (run : Nat) (text : Text) :
    text.length ≤ (escapeLines run text).length := by
  induction text generalizing run with
  | nil => exact Nat.le_refl _
  | cons b text ih =>
    unfold escapeLines
    split
    · exact Nat.succ_le_succ (ih 0)
    · split
      · exact Nat.succ_le_succ (ih (run + 1))
      · obtain ⟨first, others, hfirst, -⟩ := exists_cons_escapeByte b
        have hlater := ih 0
        simp only [hfirst, List.length_append, List.length_cons]
        omega

/-- No line break stands first in a text without line breaks. -/
theorem head_escapeLines (h : text.contains Byte.newline = false) :
    ∀ b ∈ (escapeLines run text).head?, b ≠ Byte.newline ∧ b ≠ Byte.carriageReturn := by
  cases text with
  | nil => simp [escapeLines]
  | cons b text =>
    have hnewline : (b == Byte.newline) = false := by
      simp only [List.contains_cons, Bool.or_eq_false_iff, beq_eq_false_iff_ne] at h
      exact beq_eq_false_iff_ne.mpr (Ne.symm h.1)
    obtain ⟨first, others, hfirst, -, hbreak⟩ := exists_cons_escapeByte b
    rw [escapeLines, hnewline, if_neg (by decide)]
    split
    next hquote =>
      obtain rfl := eq_of_beq (Bool.and_eq_true_iff.mp hquote).1
      rintro _ ⟨⟩
      decide
    next => simpa [hfirst] using hbreak

theorem string?_multiBasic (hrest : rest.head? ≠ some Byte.doubleQuote) :
    string? (stringIn text .multiBasic ++ rest) = some (text, rest) := by
  have hstring : stringIn text .multiBasic ++ rest = threefold Byte.doubleQuote ++
      (Text.when (text.contains Byte.newline) [Byte.newline] ++
        (escapeLines 0 text ++ (threefold Byte.doubleQuote ++ rest))) := by
    simp only [stringIn, openLines, List.append_assoc]
    rfl
  have hlength := length_le_length_escapeLines 0 text
  rw [hstring, string?_threefold_doubleQuote,
    skipFirstBreak_openLines (by decide) head_escapeLines]
  refine multiBasic?_append hrest (Nat.zero_le 2) ?_
  simp only [List.length_append]
  omega

/-! ### Strings over several lines without escapes -/

theorem length_takeWhile_add_le_longestRun (b : UInt8) (run : Nat) (text : Text) :
    (text.takeWhile (· == b)).length + run ≤ longestRun b run text := by
  induction text generalizing run with
  | nil => simp [longestRun]
  | cons c text ih =>
    unfold longestRun
    split
    next hsame =>
      have hlater := ih (run + 1)
      simp only [List.takeWhile_cons, hsame, if_true, List.length_cons]
      omega
    next hother =>
      simp only [List.takeWhile_cons, hother, Bool.false_eq_true, if_false, List.length_nil,
        Nat.zero_add]
      exact Nat.le_max_left run _

theorem longestRun_pos_of_mem (h : b ∈ text) : 0 < longestRun b run text := by
  induction text generalizing run with
  | nil => simp at h
  | cons c text ih =>
    unfold longestRun
    split
    next =>
      have hrun := length_takeWhile_add_le_longestRun b (run + 1) text
      omega
    next hother =>
      have hne : b ≠ c := fun heq => hother (beq_iff_eq.mpr heq.symm)
      have hlater := @ih 0 ((List.mem_cons.mp h).resolve_left hne)
      omega

theorem longestRun_mono (b : UInt8) {run more : Nat} (h : run ≤ more) (text : Text) :
    longestRun b run text ≤ longestRun b more text := by
  induction text generalizing run more with
  | nil => exact h
  | cons c text ih =>
    unfold longestRun
    split
    · exact ih (Nat.succ_le_succ h)
    · omega

theorem longestRun_le_cons (b c : UInt8) (text : Text) :
    longestRun b 0 text ≤ longestRun b 0 (c :: text) := by
  conv => rhs; unfold longestRun
  split
  · exact longestRun_mono b (Nat.zero_le 1) text
  · exact Nat.le_max_right _ _

theorem multiLiteral?_of_all_quotes {body : Text} (hrest : rest.head? ≠ some Byte.quote)
    (hbody : (body.takeWhile (· == Byte.quote)).length ≤ 2)
    (hall : body.all (· == Byte.quote) = true) (fuel : Nat) :
    multiLiteral? (fuel + 1) (body ++ (threefold Byte.quote ++ rest)) = some (body, rest) := by
  obtain ⟨hkept, hdropped⟩ := kept_of_all_quotes hall rest
  unfold multiLiteral?
  simp only [closingQuotes?_append hbody hrest, hall, if_true, hkept, hdropped]

/-- One byte of a string that goes on is read as it stands. -/
theorem multiLiteral?_cons (hb : isHidden b = false)
    (hcloses : closingQuotes? Byte.quote (b :: rest) = none) (fuel : Nat) :
    multiLiteral? (fuel + 1) (b :: rest) =
      (multiLiteral? fuel rest).map fun (content, rest) => (b :: content, rest) := by
  by_cases hnewline : b = Byte.newline
  · subst hnewline
    rfl
  · have hcomment := isCommentByte_of_not_isHidden hb hnewline
    have hnone : lineBreak? (b :: rest) = none :=
      lineBreak?_eq_none (by simpa using not_lineBreak_of_isCommentByte hcomment)
    have hliteral : (isLiteralByte b || b == Byte.quote) = true := by
      simpa [isLiteralByte, hcomment] using (Classical.em (b = Byte.quote)).symm
    rw [multiLiteral?.eq_def (fuel + 1)]
    simp only [hcloses, hnone, hliteral, if_true]

/-- Between three apostrophes a text reads back that has nothing hidden and no three apostrophes in
a row. -/
theorem multiLiteral?_append (hrest : rest.head? ≠ some Byte.quote)
    (hrun : longestRun Byte.quote 0 text ≤ 2) (hshown : ∀ b ∈ text, isHidden b = false)
    (h : text.length < fuel) :
    multiLiteral? fuel (text ++ (threefold Byte.quote ++ rest)) = some (text, rest) := by
  induction text generalizing fuel with
  | nil =>
    obtain ⟨fuel, rfl⟩ := Nat.exists_eq_add_one_of_ne_zero (Nat.ne_zero_of_lt h)
    exact multiLiteral?_of_all_quotes hrest (Nat.zero_le _) rfl fuel
  | cons b text ih =>
    obtain ⟨fuel, rfl⟩ := Nat.exists_eq_add_one_of_ne_zero (Nat.ne_zero_of_lt h)
    obtain ⟨hb, hshown⟩ := List.forall_mem_cons.mp hshown
    have hlater := @ih fuel ((longestRun_le_cons _ b text).trans hrun) hshown
      (Nat.lt_of_succ_lt_succ h)
    have hleading : ((b :: text).takeWhile (· == Byte.quote)).length ≤ 2 :=
      (length_takeWhile_add_le_longestRun Byte.quote 0 (b :: text)).trans hrun
    have hcloses := closingQuotes?_append hleading hrest
    cases hall : (b :: text).all (· == Byte.quote) with
    | true => exact multiLiteral?_of_all_quotes hrest hleading hall fuel
    | false =>
      rw [hall, if_neg (by decide), List.cons_append] at hcloses
      rw [List.cons_append, multiLiteral?_cons hb hcloses, hlater]
      rfl

theorem string?_multiLiteral (hrun : longestRun Byte.quote 0 text ≤ 2)
    (hshown : ∀ b ∈ text, isHidden b = false) (hrest : rest.head? ≠ some Byte.quote) :
    string? (stringIn text .multiLiteral ++ rest) = some (text, rest) := by
  have hstring : stringIn text .multiLiteral ++ rest = threefold Byte.quote ++
      (Text.when (text.contains Byte.newline) [Byte.newline] ++
        (text ++ (threefold Byte.quote ++ rest))) := by
    simp only [stringIn, openLines, List.append_assoc]
    rfl
  have hfirst (h : text.contains Byte.newline = false) :
      ∀ b ∈ text.head?, b ≠ Byte.newline ∧ b ≠ Byte.carriageReturn := by
    intro b hb
    have hmem := List.mem_of_mem_head? hb
    have hne : b ≠ Byte.newline := by
      rintro rfl
      simp [hmem] at h
    exact not_lineBreak_of_isCommentByte (isCommentByte_of_not_isHidden (hshown b hmem) hne)
  rw [hstring, string?_threefold_quote, skipFirstBreak_openLines (by decide) hfirst]
  refine multiLiteral?_append hrest hrun hshown ?_
  simp only [List.length_append]
  omega

end Toml

end QueryBridge
