import Mathlib.Data.List.TakeWhile
import QueryBridge.Proofs.Lexical.Seam
import QueryBridge.Text.Blank

/-!
# Trimming and the lexical modes

White space neither opens nor closes a quoted run or a block comment, in no encoding that the
glyphs of a text can have. So trimming keeps a text sealed, unless it cuts off the newline that
ends a line comment.
-/

namespace QueryBridge

namespace Byte

/-- Every blank is plain. -/
theorem isPlain_of_isBlank {b : UInt8} (h : isBlank b = true) : isPlain b = true :=
  isPlain_of_class (by decide) h

/-- The bytes that glyphs of white space consist of, in no encoding any others. -/
def isFiller (b : UInt8) : Bool := b ≤ 32 || b == 90 || 128 ≤ b

theorem isFiller_iff {b : UInt8} :
    isFiller b = true ↔ b.toNat ≤ 32 ∨ b.toNat = 90 ∨ 128 ≤ b.toNat := by
  simp [isFiller, UInt8.le_iff_toNat_le, ← UInt8.toNat_inj, or_assoc]

/-- Bytes of white space neither open nor close anything. -/
theorem isPlain_of_isFiller {b : UInt8} (h : isFiller b = true) : isPlain b = true :=
  isPlain_of_class (by decide) h

theorem toNat_of_continues {b : UInt8} (h : continues b = true) :
    128 ≤ b.toNat ∧ b.toNat < 192 := by
  simpa [continues, UInt8.le_iff_toNat_le, UInt8.lt_iff_toNat_lt] using h

/-- Neither a control byte nor one beyond ASCII belongs to an identifier. -/
theorem not_isIdent_of_bounds {b : UInt8} (h : 128 ≤ b.toNat ∨ b.toNat ≤ 32) :
    isIdent b = false := by
  have hscore : underscore.toNat = 95 := rfl
  by_contra hnot
  simp only [isIdent, isLetter, isUpper, isLower, isDigit, Bool.not_eq_false, Bool.or_eq_true,
    Bool.and_eq_true, decide_eq_true_eq, beq_iff_eq, UInt8.le_iff_toNat_le, ← UInt8.toNat_inj,
    UInt8.reduceToNat] at hnot
  omega

theorem isFiller_of_isDigit {b : UInt8} (h : isDigit b = true) : isFiller b = false := by
  rw [Bool.eq_false_iff, ne_eq, isFiller_iff]
  simp [isDigit, UInt8.le_iff_toNat_le] at h
  omega

end Byte

namespace Text

/-- A glyph is one byte and the bytes that continue it. -/
theorem exists_cons_of_mem_glyphs {text : Text} {glyph : Glyph} (h : glyph ∈ glyphs text) :
    ∃ lead rest, glyph = lead :: rest ∧ ∀ b ∈ rest, Byte.continues b = true := by
  induction text generalizing glyph with
  | nil => simp [glyphs] at h
  | cons b text ih =>
    rw [glyphs] at h
    cases hglyphs : glyphs text with
    | nil =>
      rw [hglyphs] at h
      obtain rfl := List.mem_singleton.mp h
      exact ⟨b, [], rfl, by simp⟩
    | cons next others =>
      rw [hglyphs] at h ih
      obtain ⟨lead, rest, rfl, hrest⟩ := ih List.mem_cons_self
      dsimp only at h
      split at h
      next hlead =>
        rcases List.mem_cons.mp h with rfl | hmem
        · exact ⟨b, lead :: rest, rfl, List.forall_mem_cons.mpr ⟨by simpa using hlead, hrest⟩⟩
        · exact ih (List.mem_cons_of_mem _ hmem)
      · rcases List.mem_cons.mp h with rfl | hmem
        · exact ⟨b, [], rfl, by simp⟩
        · exact ih hmem

/-- Reading continuation bytes makes no code point smaller. -/
theorem le_foldl_continuation (start : Nat) (rest : Text) :
    start ≤ rest.foldl (fun n b => n * 64 + (b.toNat - 128)) start := by
  induction rest generalizing start with
  | nil => exact Nat.le_refl _
  | cons b rest ih =>
    have := ih (start * 64 + (b.toNat - 128))
    simp only [List.foldl_cons]
    omega

/-- White space lies in a few narrow ranges. -/
theorem isWhiteSpace_bounds {n : Nat} (h : isWhiteSpace n = true) :
    n ≤ 32 ∨ n = 133 ∨ n = 160 ∨ n = 5760 ∨ (8192 ≤ n ∧ n ≤ 12288) := by
  simp only [isWhiteSpace, Bool.or_eq_true, Bool.and_eq_true, decide_eq_true_eq, beq_iff_eq] at h
  omega

/-- A glyph of white space starts with filler, with a `Z` only where more bytes follow. -/
theorem lead_of_isWhiteSpace {lead : UInt8} {rest : Text}
    (hrest : ∀ b ∈ rest, Byte.continues b = true)
    (hspace : isWhiteSpace (Glyph.codePoint (lead :: rest)) = true) :
    lead.toNat ≤ 32 ∨ (lead.toNat = 90 ∧ rest ≠ []) ∨ 128 ≤ lead.toNat := by
  by_contra hnot
  have hascii : lead < 128 := by
    have h128 : (128 : UInt8).toNat = 128 := rfl
    rw [UInt8.lt_iff_toNat_lt]
    omega
  have hbounds := isWhiteSpace_bounds hspace
  simp only [Glyph.codePoint, if_pos hascii] at hbounds
  -- One continuation after an ASCII byte is enough for one space only, and two are too many.
  rcases rest with _ | ⟨b, _ | ⟨c, rest⟩⟩
  · simp only [List.foldl_nil] at hbounds
    simp only [ne_eq, not_true_eq_false, and_false, false_or] at hnot
    omega
  · have hb := Byte.toNat_of_continues (hrest b List.mem_cons_self)
    simp only [List.foldl_cons, List.foldl_nil] at hbounds
    simp only [ne_eq, reduceCtorEq, not_false_eq_true, and_true] at hnot
    omega
  · have hle := le_foldl_continuation
      ((lead.toNat * 64 + (b.toNat - 128)) * 64 + (c.toNat - 128)) rest
    simp only [List.foldl_cons] at hbounds
    omega

/-- A glyph of white space consists of filler, and its last byte belongs to no identifier. -/
theorem isFiller_of_isWhiteSpace {text : Text} {glyph : Glyph} (hmem : glyph ∈ glyphs text)
    (hspace : isWhiteSpace glyph.codePoint = true) :
    (∀ b ∈ glyph, Byte.isFiller b = true) ∧
      ∃ init last, glyph = init ++ [last] ∧ Byte.isIdent last = false := by
  obtain ⟨lead, rest, rfl, hrest⟩ := exists_cons_of_mem_glyphs hmem
  have hlead := lead_of_isWhiteSpace hrest hspace
  constructor
  · refine List.forall_mem_cons.mpr ⟨Byte.isFiller_iff.mpr (by omega), fun b hb => ?_⟩
    have := Byte.toNat_of_continues (hrest b hb)
    exact Byte.isFiller_iff.mpr (by omega)
  · rcases eq_nil_or_snoc rest with rfl | ⟨init, last, rfl⟩
    · refine ⟨[], lead, rfl, Byte.not_isIdent_of_bounds ?_⟩
      simp only [ne_eq, not_true_eq_false, and_false, false_or] at hlead
      omega
    · have := Byte.toNat_of_continues (hrest last (by simp))
      exact ⟨lead :: init, last, rfl, Byte.not_isIdent_of_bounds (by omega)⟩

/-- Glyphs of white space together consist of filler, and the last byte belongs to no identifier. -/
theorem isFiller_of_mem_flatten {text : Text} {gs : List Glyph} (hsub : ∀ g ∈ gs, g ∈ glyphs text)
    (hspace : ∀ g ∈ gs, isWhiteSpace g.codePoint = true) :
    (∀ b ∈ gs.flatten, Byte.isFiller b = true) ∧
      gs.flatten.getLast?.any Byte.isIdent = false := by
  induction gs with
  | nil => simp
  | cons g gs ih =>
    obtain ⟨hg, hsub⟩ := List.forall_mem_cons.mp hsub
    obtain ⟨hwhite, hspace⟩ := List.forall_mem_cons.mp hspace
    obtain ⟨hfiller, hlast⟩ := ih hsub hspace
    obtain ⟨hbytes, init, last, rfl, hident⟩ := isFiller_of_isWhiteSpace hg hwhite
    refine ⟨List.forall_mem_append.mpr ⟨hbytes, hfiller⟩, ?_⟩
    by_cases hnil : gs.flatten = []
    · simp [hnil, hident]
    · rwa [List.flatten_cons, List.getLast?_append_of_ne_nil _ hnil]

/-- Trimming the start cuts off filler, and no identifier byte last. -/
theorem exists_trimStart_filler (text : Text) :
    ∃ cut, text = cut ++ trimStart text ∧ (∀ b ∈ cut, Byte.isFiller b = true) ∧
      cut.getLast?.any Byte.isIdent = false := by
  refine ⟨((glyphs text).takeWhile fun g => isWhiteSpace g.codePoint).flatten, ?_, ?_⟩
  · rw [trimStart, ← List.flatten_append, List.takeWhile_append_dropWhile, glyphs_flatten]
  · refine isFiller_of_mem_flatten (fun g hg => (List.takeWhile_sublist _).mem hg) fun g hg => ?_
    have hspace := List.mem_takeWhile_imp hg
    exact hspace

/-- Trimming the end cuts off filler. -/
theorem exists_trimEnd_filler (text : Text) :
    ∃ cut, text = trimEnd text ++ cut ∧ ∀ b ∈ cut, Byte.isFiller b = true := by
  refine ⟨((glyphs text).reverse.takeWhile fun g => isWhiteSpace g.codePoint).reverse.flatten,
    ?_, ?_⟩
  · rw [trimEnd, ← List.flatten_append, ← List.reverse_append, List.takeWhile_append_dropWhile,
      List.reverse_reverse, glyphs_flatten]
  · refine (@isFiller_of_mem_flatten text _ (fun g hg => ?_) fun g hg => ?_).1
    · exact List.mem_reverse.mp ((List.takeWhile_sublist _).mem (List.mem_reverse.mp hg))
    · have hspace := List.mem_takeWhile_imp (List.mem_reverse.mp hg)
      exact hspace

/-- Trimming cuts off filler on both sides, and no identifier byte right before what is left. -/
theorem exists_trim_filler (text : Text) :
    ∃ before behind, text = before ++ trim text ++ behind ∧
      (∀ b ∈ before, Byte.isFiller b = true) ∧ (∀ b ∈ behind, Byte.isFiller b = true) ∧
      before.getLast?.any Byte.isIdent = false := by
  obtain ⟨before, hstart, hbefore, hlast⟩ := exists_trimStart_filler text
  obtain ⟨behind, hend, hbehind⟩ := exists_trimEnd_filler (trimStart text)
  refine ⟨before, behind, ?_, hbefore, hbehind, hlast⟩
  rw [trim, List.append_assoc, ← hend, ← hstart]

/-- A text whose first and last bytes are no filler has nothing to trim. -/
theorem trim_eq_self {text : Text} (hfirst : ∀ b ∈ text.head?, Byte.isFiller b = false)
    (hlast : ∀ b ∈ text.getLast?, Byte.isFiller b = false) : trim text = text := by
  obtain ⟨before, behind, htext, hbefore, hbehind, -⟩ := exists_trim_filler text
  have hnone : before = [] := by
    cases before with
    | nil => rfl
    | cons b before =>
      have hb := hfirst b (by rw [htext]; rfl)
      simp [hbefore b List.mem_cons_self] at hb
  have hbare : behind = [] := by
    rcases eq_nil_or_snoc behind with rfl | ⟨init, b, rfl⟩
    · rfl
    · have hb := hlast b (by rw [htext, List.getLast?_append_of_ne_nil _ (by simp)]; simp)
      simp [hbehind b (by simp)] at hb
  rw [hnone, hbare] at htext
  simpa using htext.symm

/-- Two texts are cut into glyphs by themselves unless the second one starts within a glyph. -/
theorem glyphs_append (first : Text) {second : Text}
    (h : ∀ b ∈ second.head?, Byte.continues b = false) :
    glyphs (first ++ second) = glyphs first ++ glyphs second := by
  have hhead : ∀ glyph others, glyphs second = glyph :: others →
      glyph.head?.any Byte.continues = false := by
    intro glyph others hglyphs
    obtain ⟨lead, rest, rfl, -⟩ := exists_cons_of_mem_glyphs (hglyphs ▸ List.mem_cons_self)
    have hflat := glyphs_flatten second
    rw [hglyphs] at hflat
    simpa using h lead (by rw [← hflat]; rfl)
  induction first with
  | nil => rfl
  | cons b first ih =>
    rw [List.cons_append, glyphs, ih, glyphs]
    cases hfirst : glyphs first with
    | cons glyph others =>
      simp only [List.cons_append]
      split <;> rfl
    | nil =>
      cases hsecond : glyphs second with
      | nil => rfl
      | cons glyph others => simp [hhead glyph others hsecond]

theorem glyphs_singleton (b : UInt8) : glyphs [b] = [[b]] := rfl

theorem glyphs_cons {b : UInt8} {text : Text} (h : ∀ x ∈ text.head?, Byte.continues x = false) :
    glyphs (b :: text) = [b] :: glyphs text := glyphs_append [b] h

/-- A byte and the ones that continue it make one glyph. -/
theorem glyphs_wide (lead : UInt8) {rest : Text} (h : ∀ b ∈ rest, Byte.continues b = true) :
    glyphs (lead :: rest) = [lead :: rest] := by
  induction rest generalizing lead with
  | nil => rfl
  | cons b rest ih =>
    obtain ⟨hb, hrest⟩ := List.forall_mem_cons.mp h
    rw [glyphs, ih b hrest]
    simp [hb]

/-- A byte that is no filler starts a glyph that is no white space. -/
theorem isWhiteSpace_eq_false_of_head? {text : Text} {glyph : Glyph} (hmem : glyph ∈ glyphs text)
    (h : glyph.head?.any Byte.isFiller = false) : isWhiteSpace glyph.codePoint = false := by
  by_contra hspace
  obtain ⟨hfiller, -⟩ := isFiller_of_isWhiteSpace hmem (by simpa using hspace)
  obtain ⟨lead, rest, rfl, -⟩ := exists_cons_of_mem_glyphs hmem
  simp [hfiller lead List.mem_cons_self] at h

theorem not_continues_of_isFiller {b : UInt8} (h : Byte.isFiller b = false) :
    Byte.continues b = false := by
  by_contra hcontinues
  have hfiller : Byte.isFiller b = true := by
    simp only [Byte.continues, Bool.not_eq_false, Bool.and_eq_true, decide_eq_true_eq] at hcontinues
    simp [Byte.isFiller, hcontinues.1]
  simp [hfiller] at h

/-- Trimming the start stops before a byte that is no filler. -/
theorem trimStart_append {before text : Text} (h : text.head?.any Byte.isFiller = false) :
    trimStart (before ++ text) = trimStart before ++ text := by
  have hhead : ∀ b ∈ text.head?, Byte.continues b = false := fun b hb =>
    not_continues_of_isFiller (by simpa [Option.mem_def.mp hb] using h)
  have hkept : ((glyphs text).dropWhile fun g => isWhiteSpace g.codePoint) = glyphs text := by
    cases hglyphs : glyphs text with
    | nil => rfl
    | cons glyph others =>
      have hmem : glyph ∈ glyphs text := hglyphs ▸ List.mem_cons_self
      obtain ⟨lead, rest, rfl, -⟩ := exists_cons_of_mem_glyphs hmem
      have hlead : text.head? = some lead := by
        rw [← glyphs_flatten text, hglyphs]
        rfl
      rw [List.dropWhile_cons_of_neg]
      rw [isWhiteSpace_eq_false_of_head? hmem (by simpa [hlead] using h)]
      simp
  rw [trimStart, glyphs_append before hhead, List.dropWhile_append]
  split
  next hnil =>
    rw [hkept, glyphs_flatten, trimStart, List.isEmpty_iff.mp hnil]
    rfl
  next => rw [List.flatten_append, glyphs_flatten, trimStart]

/-- Trimming the end goes on before a glyph only if nothing is left from there on. -/
theorem trimEnd_append {before text : Text} (h : text.head?.any Byte.continues = false) :
    trimEnd (before ++ text) =
      if trimEnd text = [] then trimEnd before else before ++ trimEnd text := by
  have hnil : trimEnd text = [] ↔
      ((glyphs text).reverse.dropWhile fun g => isWhiteSpace g.codePoint).isEmpty = true := by
    rw [List.isEmpty_iff, trimEnd, List.flatten_eq_nil_iff]
    refine ⟨fun hempty => List.eq_nil_iff_forall_not_mem.mpr fun glyph hmem => ?_,
      fun hnone => by rw [hnone]; simp⟩
    have hglyph := List.mem_reverse.mp ((List.dropWhile_sublist _).mem hmem)
    obtain ⟨lead, rest, rfl, -⟩ := exists_cons_of_mem_glyphs hglyph
    exact absurd (hempty _ (List.mem_reverse.mpr hmem)) (by simp)
  simp only [hnil]
  have hhead : ∀ b ∈ text.head?, Byte.continues b = false := fun b hb => by
    simpa [Option.mem_def.mp hb] using h
  rw [trimEnd, glyphs_append before hhead, List.reverse_append, List.dropWhile_append]
  split
  · rfl
  · rw [List.reverse_append, List.flatten_append, List.reverse_reverse, glyphs_flatten, trimEnd]

/-- How a text is cut into glyphs does not depend on its first byte. -/
theorem exists_glyphs_cons (text : Text) :
    ∃ rest others, ∀ b, glyphs (b :: text) = (b :: rest) :: others := by
  cases hglyphs : glyphs text with
  | nil => exact ⟨[], [], fun b => by rw [glyphs, hglyphs]⟩
  | cons glyph others =>
    by_cases hhead : glyph.head?.any Byte.continues = true
    · exact ⟨glyph, others, fun b => by rw [glyphs, hglyphs]; simp [hhead]⟩
    · exact ⟨[], glyph :: others, fun b => by rw [glyphs, hglyphs]; simp [hhead]⟩

/-- What trimming the end leaves behind the first byte is left behind any other one that is no
filler. -/
theorem trimEnd_cons {c d : UInt8} {text kept : Text} (h : trimEnd (c :: text) = c :: kept)
    (hd : Byte.isFiller d = false) : trimEnd (d :: text) = d :: kept := by
  obtain ⟨rest, others, hglyphs⟩ := exists_glyphs_cons text
  have hspace : isWhiteSpace (Glyph.codePoint (d :: rest)) = false :=
    @isWhiteSpace_eq_false_of_head? (d :: text) _ (by rw [hglyphs]; exact List.mem_cons_self)
      (by simpa using hd)
  simp only [trimEnd, hglyphs, List.reverse_cons, List.dropWhile_append] at h ⊢
  split
  next hnone =>
    rw [if_pos hnone] at h
    cases hwhite : isWhiteSpace (Glyph.codePoint (c :: rest)) with
    | true => simp [hwhite] at h
    | false => simpa [hwhite, hspace] using h
  next hsome =>
    rw [if_neg hsome] at h
    simpa using h

/-- Where the end of a text is trimmed does not depend on what stands before its last byte but for
continuations, nor on that byte as long as it is no filler. -/
theorem trimEnd_exchange {before behind text kept : Text} {c d : UInt8}
    (hc : Byte.continues c = false) (h : trimEnd (before ++ c :: text) = before ++ c :: kept)
    (hd : d = c ∨ Byte.isFiller d = false) :
    trimEnd (behind ++ d :: text) = behind ++ d :: kept := by
  have hkept : trimEnd (c :: text) = c :: kept := by
    rw [trimEnd_append (by simpa using hc)] at h
    split at h
    · have hle := length_trimEnd_le before
      rw [h, List.length_append, List.length_cons] at hle
      omega
    · exact List.append_cancel_left h
  have hlater : trimEnd (d :: text) = d :: kept := by
    rcases hd with rfl | hd
    · exact hkept
    · exact trimEnd_cons hkept hd
  have hhead : Byte.continues d = false := by
    rcases hd with rfl | hd
    · exact hc
    · exact not_continues_of_isFiller hd
  rw [trimEnd_append (by simpa using hhead), hlater, if_neg (by simp)]

/-- Trimming the start cuts off plain bytes. -/
theorem exists_trimStart_eq (text : Text) :
    ∃ cut, text = cut ++ trimStart text ∧ ∀ b ∈ cut, Byte.isPlain b = true := by
  obtain ⟨cut, hcut, hfiller, -⟩ := exists_trimStart_filler text
  exact ⟨cut, hcut, fun b hb => Byte.isPlain_of_isFiller (hfiller b hb)⟩

/-- Trimming cuts off plain bytes on both sides. -/
theorem exists_trim_eq (text : Text) :
    ∃ before behind, text = before ++ trim text ++ behind ∧
      (∀ b ∈ before, Byte.isPlain b = true) ∧ ∀ b ∈ behind, Byte.isPlain b = true := by
  obtain ⟨before, behind, htext, hbefore, hbehind, -⟩ := exists_trim_filler text
  exact ⟨before, behind, htext, fun b hb => Byte.isPlain_of_isFiller (hbefore b hb),
    fun b hb => Byte.isPlain_of_isFiller (hbehind b hb)⟩

/-- Whether a text read by itself ends within a line comment. -/
def EndsInLine (text : Text) : Prop := Mode.code.after none text = .lineComment

instance (text : Text) : Decidable text.EndsInLine := inferInstanceAs (Decidable (_ = _))

/-- Plain bytes around a text change neither that it is sealed nor that it ends in a line
comment, except that they may end the line. -/
theorem after_of_isPlain {before text behind : Text} (hbefore : ∀ b ∈ before, Byte.isPlain b = true)
    (hbehind : ∀ b ∈ behind, Byte.isPlain b = true)
    (h : (before ++ text ++ behind).Sealed ∨ (before ++ text ++ behind).EndsInLine) :
    text.Sealed ∨ text.EndsInLine := by
  have hhead : ∀ b ∈ behind.head?, b ≠ Byte.hyphen ∧ b ≠ Byte.star := fun b hb => by
    obtain ⟨-, hhyphen, -, hstar⟩ := Byte.isPlain_iff.mp (hbehind b (List.mem_of_mem_head? hb))
    exact ⟨hhyphen, hstar⟩
  have hmode : Mode.code.after behind.head? text = .code ∨
      Mode.code.after behind.head? text = .lineComment := by
    unfold Sealed EndsInLine at h
    rw [List.append_assoc, Mode.after_append, Mode.after_code_of_isPlain hbefore,
      Mode.after_append, Option.or_none] at h
    exact Mode.eq_of_after_isPlain hbehind (by simpa using Mode.admits_after_code _ _) h
  rcases hmode with hcode | hline
  · exact Or.inl (sealed_of_after hcode)
  · exact Or.inr (after_eq_lineComment hline (seam_eq_false_of_next hhead) none)

/-- Trimming keeps a text sealed, unless it leaves a line comment without its newline. -/
theorem sealed_trim_or {text : Text} (h : text.Sealed ∨ text.EndsInLine) :
    (trim text).Sealed ∨ (trim text).EndsInLine := by
  obtain ⟨before, behind, htext, hbefore, hbehind⟩ := exists_trim_eq text
  rw [htext] at h
  exact after_of_isPlain hbefore hbehind h

end Text

end QueryBridge
