import QueryBridge.Lexical.Call
import QueryBridge.Proofs.Lexical.Motion
import QueryBridge.Proofs.Lexical.Splice

/-!
# Where calls stand

The name of a call, its parentheses and the commas between its arguments are code. So every
argument, read by itself, leads from code back to code, unless trimming has cut off the newline
of a line comment at its end.
-/

namespace QueryBridge

namespace Cursor

/-- The code of a stretch is part of the code of the text, and stands in the stretch. -/
theorem codeWithinFrom_sublist (count : Nat) (mode : Mode) (offset : Nat) (before text : Text) :
    (codeWithinFrom count mode offset before text).Sublist (codeFrom mode offset before text) ∧
      ∀ c ∈ codeWithinFrom count mode offset before text, c.offset < offset + count := by
  induction text generalizing count mode offset before with
  | nil => cases count <;> simp [codeWithinFrom]
  | cons b text ih =>
    cases count with
    | zero => simp [codeWithinFrom]
    | succ count =>
      obtain ⟨hsub, hlt⟩ := ih count (mode.step b text.head?) (offset + 1) (b :: before)
      have hlater : ∀ c ∈ codeWithinFrom count (mode.step b text.head?) (offset + 1)
          (b :: before) text, c.offset < offset + (count + 1) := fun c hc => by
        have := hlt c hc
        omega
      rw [codeWithinFrom, codeFrom]
      split
      · exact ⟨hsub.cons_cons _, List.forall_mem_cons.mpr
          ⟨show offset < offset + (count + 1) by omega, hlater⟩⟩
      · exact ⟨hsub, hlater⟩

end Cursor

namespace Text

/-- The code between two offsets, the first of them in code. -/
theorem codeBetween_spec {text : Text} {start stop : Nat} (hle : start ≤ stop)
    (hbound : start ≤ text.length) (hcode : text.modeAt start = .code) :
    (∀ c ∈ text.codeBetween start stop,
        c ∈ text.code ∧ start ≤ c.offset ∧ c.offset < stop) ∧
      (text.codeBetween start stop).Pairwise fun c d => c.offset < d.offset := by
  have hin := Cursor.liesIn_cursor text start
  have hoffset : (text.cursor start).offset = start := Nat.min_eq_left hbound
  rw [codeBetween, Nat.min_eq_left hle, Cursor.codeWithin]
  obtain ⟨hsub, hlt⟩ := Cursor.codeWithinFrom_sublist (stop - start) .code
    (text.cursor start).offset (text.cursor start).before (text.cursor start).after
  refine ⟨fun c hc => ?_, Cursor.pairwise_codeFrom.sublist hsub⟩
  obtain ⟨hlies, hshows, hfrom⟩ := (Cursor.mem_code hin hcode).mp (hsub.mem hc)
  have := hlt c hc
  exact ⟨mem_code.mpr ⟨hlies, hshows⟩, by omega, by omega⟩

/-- The stretches between commas lie one behind the other and begin and end in code. -/
theorem commaSpans_spec {text : Text} {stop start : Nat} {depth : Int} {code : List Cursor}
    (hstop : text.modeAt stop = .code) (hstart : text.modeAt start = .code) (hle : start ≤ stop)
    (hcode : ∀ c ∈ code, c ∈ text.code ∧ start ≤ c.offset ∧ c.offset < stop)
    (hsorted : code.Pairwise fun c d => c.offset < d.offset) :
    ∀ span ∈ commaSpans stop depth start code,
      span.1 ≤ span.2 ∧ text.modeAt span.1 = .code ∧ text.modeAt span.2 = .code := by
  induction code generalizing start depth with
  | nil => simpa [commaSpans] using ⟨hle, hstart, hstop⟩
  | cons c code ih =>
    obtain ⟨⟨hc, hfrom, hto⟩, hrest⟩ := List.forall_mem_cons.mp hcode
    obtain ⟨hlater, hsorted⟩ := List.pairwise_cons.mp hsorted
    rw [commaSpans]
    split
    · exact ih hstart hle hrest hsorted
    · split
      · exact ih hstart hle hrest hsorted
      · split
        · refine List.forall_mem_cons.mpr ⟨⟨hfrom, hstart, modeAt_of_mem_code hc⟩, ?_⟩
          refine ih (modeAt_succ_of_mem_code hc) hto (fun d hd => ?_) hsorted
          exact ⟨(hrest d hd).1, hlater d hd, (hrest d hd).2.2⟩
        · exact ih hstart hle hrest hsorted

/-- No stretch between commas ends behind the last place. -/
theorem snd_le_of_mem_commaSpans {stop start : Nat} {depth : Int} {code : List Cursor}
    (hcode : ∀ c ∈ code, c.offset < stop) :
    ∀ span ∈ commaSpans stop depth start code, span.2 ≤ stop := by
  induction code generalizing start depth with
  | nil => simp [commaSpans]
  | cons c code ih =>
    obtain ⟨hc, hcode⟩ := List.forall_mem_cons.mp hcode
    rw [commaSpans]
    split
    · exact ih hcode
    · split
      · exact ih hcode
      · split
        · exact List.forall_mem_cons.mpr ⟨Nat.le_of_lt hc, ih hcode⟩
        · exact ih hcode

/-- An argument has no more bytes than stand before the end of the list. -/
theorem length_le_of_mem_arguments {text argument : Text} {start stop : Nat} (hle : start ≤ stop)
    (h : argument ∈ text.arguments start stop) : argument.length ≤ stop := by
  unfold arguments at h
  split at h
  · simp at h
  · obtain ⟨span, hspan, rfl⟩ := List.mem_map.mp h
    have hcode : ∀ c ∈ text.codeBetween start stop, c.offset < stop := by
      intro c hc
      rw [codeBetween, Nat.min_eq_left hle] at hc
      have hlt := (Cursor.codeWithinFrom_sublist _ _ _ _ _).2 c hc
      have hstart : (text.cursor start).offset ≤ start := Nat.min_le_left _ _
      omega
    have hlast := snd_le_of_mem_commaSpans hcode span hspan
    have htrim := length_trim_le (text.slice span.1 span.2)
    have hslice : (text.slice span.1 span.2).length ≤ span.2 - span.1 := List.length_take_le _ _
    dsimp only
    omega

/-- An argument between two places in code is sealed, unless trimming has cut off the newline of
a line comment. -/
theorem sealed_or_of_mem_arguments {text argument : Text} {start stop : Nat}
    (hle : start ≤ stop) (hbound : start ≤ text.length) (hstart : text.modeAt start = .code)
    (hstop : text.modeAt stop = .code) (h : argument ∈ text.arguments start stop) :
    argument.Sealed ∨ argument.EndsInLine := by
  unfold arguments at h
  split at h
  · simp at h
  · obtain ⟨⟨first, last⟩, hspan, rfl⟩ := List.mem_map.mp h
    obtain ⟨hcode, hsorted⟩ := codeBetween_spec hle hbound hstart
    obtain ⟨hspan_le, hfirst, hlast⟩ := commaSpans_spec hstop hstart hle hcode hsorted _ hspan
    exact sealed_trim_or (Or.inl (sealed_of_after (after_slice hspan_le hfirst hlast)))

end Text

section Closing

variable {opening closing : UInt8} {c : Cursor} {depth : Nat} {code : List Cursor}

theorem closing?_of_opening (hopen : c.sees opening = true) :
    closing? opening closing depth (c :: code) = closing? opening closing (depth + 1) code := by
  rw [closing?.eq_def]
  simp [hopen]

theorem closing?_of_closing (hopen : c.sees opening = false) (hclose : c.sees closing = true) :
    closing? opening closing (depth + 2) (c :: code) =
      closing? opening closing (depth + 1) code := by
  rw [closing?.eq_def]
  simp [hopen, hclose]

theorem closing?_of_last (hopen : c.sees opening = false) (hclose : c.sees closing = true) :
    closing? opening closing 1 (c :: code) = some c := by
  rw [closing?.eq_def]
  simp [hopen, hclose]

theorem closing?_of_none (hopen : c.sees opening = false) (hclose : c.sees closing = true) :
    closing? opening closing 0 (c :: code) = none := by
  simp [closing?, hopen, hclose]

theorem closing?_of_other (hopen : c.sees opening = false) (hclose : c.sees closing = false) :
    closing? opening closing depth (c :: code) = closing? opening closing depth code := by
  rw [closing?.eq_def]
  simp [hopen, hclose]

end Closing

/-- The bracket that closes another one is one of the cursors searched. -/
theorem mem_of_closing? {opening closing : UInt8} {depth : Nat} {code : List Cursor} {d : Cursor}
    (h : closing? opening closing depth code = some d) : d ∈ code ∧ d.sees closing = true := by
  induction code generalizing depth with
  | nil => simp [closing?] at h
  | cons c code ih =>
    rw [closing?.eq_def] at h
    dsimp only at h
    have hlater {n : Nat} (h : closing? opening closing n code = some d) :
        d ∈ c :: code ∧ d.sees closing = true := by
      obtain ⟨hmem, hsees⟩ := ih h
      exact ⟨List.mem_cons_of_mem _ hmem, hsees⟩
    split at h
    · exact hlater h
    · split at h
      next hclose =>
        split at h
        · simp at h
        · obtain rfl := Option.some.inj h
          exact ⟨List.mem_cons_self, hclose⟩
        · exact hlater h
      · exact hlater h

/-- The bracket that closes one of the code is code behind it. -/
theorem Cursor.closing?_spec {opening closing : UInt8} {c d : Cursor} {text : Text}
    (hc : c ∈ text.code) (h : closing? opening closing 0 c.code = some d) :
    d ∈ text.code ∧ d.sees closing = true ∧ c.offset ≤ d.offset := by
  obtain ⟨hin, hcode⟩ := Text.mem_code.mp hc
  obtain ⟨hmem, hsees⟩ := mem_of_closing? h
  obtain ⟨hlies, hshows, hle⟩ := (mem_code hin (mode_eq_code_of_isCode hcode)).mp hmem
  exact ⟨Text.mem_code.mpr ⟨hlies, hshows⟩, hsees, hle⟩

/-- The parenthesis that closes one of the code is code behind it. -/
theorem Cursor.closingParen?_spec {c d : Cursor} {text : Text} (hc : c ∈ text.code)
    (hopen : c.sees Byte.openParen = true) (h : c.closingParen? = some d) :
    d ∈ text.code ∧ d.sees Byte.closeParen = true ∧ c.offset < d.offset := by
  obtain ⟨hmem, hsees, hle⟩ := closing?_spec hc h
  refine ⟨hmem, hsees, Nat.lt_of_le_of_ne hle fun heq => ?_⟩
  rw [← (Text.mem_code.mp hc).1.ext (Text.mem_code.mp hmem).1 heq] at hsees
  exact absurd (eq_of_sees hopen hsees) (by decide)

/-- The name of a callee consists of bytes of identifiers. -/
def Callee.IsWord (callee : Callee) : Prop := callee.name.all Byte.isIdent = true

instance (callee : Callee) : Decidable callee.IsWord :=
  inferInstanceAs (Decidable (_ = true))

/-- The opening parenthesis of a call stands in code right behind the name. -/
theorem Callee.opening?_spec {callee : Callee} {c o : Cursor} {text : Text}
    (hword : callee.IsWord) (hc : c ∈ text.code) (h : callee.opening? c = some o) :
    o ∈ text.code ∧ o.sees Byte.openParen = true ∧ c.offset < o.offset := by
  obtain ⟨hin, hcode⟩ := Text.mem_code.mp hc
  unfold opening? at h
  cases hrest : Text.rest? callee.letters callee.name c.after with
  | none => simp [hrest] at h
  | some rest =>
    simp only [hrest, Option.ite_none_right_eq_some, Bool.and_eq_true, beq_iff_eq,
      Bool.not_eq_eq_eq_not, Bool.not_true, List.isEmpty_eq_false_iff, Option.some.injEq] at h
    obtain ⟨⟨⟨hne, -⟩, hparen⟩, rfl⟩ := h
    obtain ⟨hmode, hafter, hoffset⟩ :=
      Cursor.forward_of_rest? (Cursor.mode_eq_code_of_isCode hcode) hword hrest
    have hsees : (c.forward callee.name.length).sees Byte.openParen = true := by
      simpa [Cursor.sees, Cursor.byte?, hafter] using hparen
    have hpos : 0 < callee.name.length := List.length_pos_iff.mpr hne
    exact ⟨Cursor.mem_code_of_sees (hin.forward _) hmode hsees (by decide), hsees, by omega⟩

/-- The name of a call leads to its parenthesis, and no identifier goes on with it. -/
theorem Callee.opening?_moves {callee : Callee} {c o : Cursor} (hword : callee.IsWord)
    (h : callee.opening? c = some o) :
    c.followsIdent = false ∧ ∃ run, c.Moves run o ∧ ∀ b ∈ run, Byte.isIdent b = true := by
  unfold opening? at h
  cases hrest : Text.rest? callee.letters callee.name c.after with
  | none => simp [hrest] at h
  | some rest =>
    simp only [hrest, Option.ite_none_right_eq_some, Bool.and_eq_true, Bool.not_eq_true',
      Option.some.injEq] at h
    obtain ⟨⟨⟨-, hfollows⟩, -⟩, rfl⟩ := h
    obtain ⟨run, hafter, hlength, hident⟩ := Text.exists_of_rest?_eq_some hword hrest
    have hmoves := c.moves_forward callee.name.length
    rw [hafter, ← hlength, List.take_left, hlength] at hmoves
    exact ⟨hfollows, run, hmoves, hident⟩

namespace CallSite

/-- A call of a text: it starts with code, and its parentheses are code. -/
structure StandsIn (site : CallSite) (text : Text) : Prop where
  start : ∃ c ∈ text.code, c.offset = site.start
  opening : ∃ c ∈ text.code, c.offset = site.opening
  closing : ∃ c ∈ text.code, c.offset = site.closing
  nonempty : site.start < site.opening
  closed : site.opening < site.closing

theorem StandsIn.sealed_or {site : CallSite} {text argument : Text} (h : site.StandsIn text)
    (hargument : argument ∈ site.arguments text) : argument.Sealed ∨ argument.EndsInLine := by
  obtain ⟨c, hc, hopening⟩ := h.opening
  obtain ⟨d, hd, hclosing⟩ := h.closing
  have hlt := h.closed
  have hbound := (Text.mem_code.mp hd).1.offset_le
  refine Text.sealed_or_of_mem_arguments (by omega) (by omega) ?_ ?_ hargument
  · rw [← hopening]
    exact Text.modeAt_succ_of_mem_code hc
  · rw [← hclosing]
    exact Text.modeAt_of_mem_code hd

end CallSite

end QueryBridge
