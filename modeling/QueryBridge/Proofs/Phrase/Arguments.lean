import Mathlib.Data.List.Induction
import QueryBridge.Dialect.Builtin
import QueryBridge.Proofs.Phrase.Distribute

/-!
# The arguments of a rewritten phrase

What takes the place of a call starts and ends with bytes that are never trimmed. So trimming a
rewritten phrase gives the rewrite of the trimmed one, and the arguments of a rewritten phrase are
those of the phrase, each rewritten by itself.
-/

namespace QueryBridge

open Text

/-- The bytes that a replacement can end with: a parenthesis, and the last letter of END. -/
def Byte.isStop (b : UInt8) : Bool := b == closeParen || b == 68

namespace Text

/-- Whether a text differs from a word before one of them ends. -/
def clashes (letters : LetterCase) : Text → Text → Bool
  | w :: word, b :: text => !letters.same w b || clashes letters word text
  | _, _ => false

theorem clashes_append {letters : LetterCase} {word text : Text}
    (h : clashes letters word text = true) (behind : Text) :
    clashes letters word (text ++ behind) = true := by
  induction word generalizing text with
  | nil => simp [clashes] at h
  | cons w word ih =>
    cases text with
    | nil => simp [clashes] at h
    | cons b text =>
      rw [clashes, Bool.or_eq_true] at h
      rw [List.cons_append, clashes, Bool.or_eq_true]
      exact h.imp_right ih

theorem rest?_of_clashes {letters : LetterCase} {word text : Text}
    (h : clashes letters word text = true) (behind : Text) :
    rest? letters word (text ++ behind) = none := by
  induction word generalizing text with
  | nil => simp [clashes] at h
  | cons w word ih =>
    cases text with
    | nil => simp [clashes] at h
    | cons b text =>
      rw [clashes, Bool.or_eq_true, Bool.not_eq_true'] at h
      rw [List.cons_append, rest?]
      rcases h with h | h
      · simp [h]
      · simp [ih h]

/-- The bytes of a class at the start of a text, with what is behind them. -/
theorem exists_run (f : UInt8 → Bool) (text : Text) :
    ∃ run rest, text = run ++ rest ∧ (∀ b ∈ run, f b = true) ∧ rest.head?.any f = false := by
  induction text with
  | nil => exact ⟨[], [], rfl, by simp, rfl⟩
  | cons b text ih =>
    cases hb : f b with
    | false => exact ⟨[], b :: text, rfl, by simp, by simpa using hb⟩
    | true =>
      obtain ⟨run, rest, rfl, hrun, hrest⟩ := ih
      exact ⟨b :: run, rest, rfl, List.forall_mem_cons.mpr ⟨hb, hrun⟩, hrest⟩

/-- The last byte of a text outside a class, with what is behind it. -/
theorem exists_last_not (f : UInt8 → Bool) (text : Text) :
    (∀ b ∈ text, f b = true) ∨ ∃ before c run, text = before ++ c :: run ∧ f c = false ∧
      ∀ b ∈ run, f b = true := by
  induction text using List.reverseRecOn with
  | nil => exact Or.inl (by simp)
  | append_singleton text b ih =>
    cases hb : f b with
    | false => exact Or.inr ⟨text, b, [], rfl, hb, by simp⟩
    | true =>
      rcases ih with hall | ⟨before, c, run, rfl, hc, hall⟩
      · exact Or.inl (List.forall_mem_append.mpr ⟨hall, by simpa using hb⟩)
      · refine Or.inr ⟨before, c, run ++ [b], by simp, hc, ?_⟩
        exact List.forall_mem_append.mpr ⟨hall, by simpa using hb⟩

/-- Two texts are the same, or a replacement could end in both of them. -/
def Resembles (old new : Text) : Prop :=
  new = old ∨ (∃ b ∈ old, Byte.isStop b = true) ∧ ∃ b ∈ new, Byte.isStop b = true

theorem Resembles.refl (text : Text) : Resembles text text := Or.inl rfl

theorem Resembles.append {old new later last : Text} (h : Resembles old new)
    (hlater : Resembles later last) : Resembles (old ++ later) (new ++ last) := by
  rcases h with rfl | ⟨⟨b, hb, hold⟩, c, hc, hnew⟩
  · rcases hlater with rfl | ⟨⟨b, hb, hold⟩, c, hc, hnew⟩
    · exact .refl _
    · exact Or.inr ⟨⟨b, List.mem_append_right _ hb, hold⟩, c, List.mem_append_right _ hc, hnew⟩
  · exact Or.inr ⟨⟨b, List.mem_append_left _ hb, hold⟩, c, List.mem_append_left _ hc, hnew⟩

theorem Resembles.eq_nil_iff {old new : Text} (h : Resembles old new) : new = [] ↔ old = [] := by
  rcases h with rfl | ⟨⟨b, hb, -⟩, c, hc, -⟩
  · rfl
  · exact ⟨fun hnil => by simp [hnil] at hc, fun hnil => by simp [hnil] at hb⟩

/-- A byte that a replacement can end with is part of no integer. -/
theorem toWord?_of_isStop {text : Text} {b : UInt8} (hb : b ∈ text) (hstop : Byte.isStop b = true) :
    Text.toWord? text = none := by
  have hdigit : Byte.isDigit b = false ∧ b ≠ Byte.hyphen ∧ b ≠ Byte.plus := by
    simp only [Byte.isStop, Bool.or_eq_true, beq_iff_eq] at hstop
    rcases hstop with rfl | rfl <;> decide
  have hall {digits : Text} (hmem : b ∈ digits) : digits.all Byte.isDigit = false :=
    List.all_eq_false.mpr ⟨b, hmem, by simp [hdigit.1]⟩
  have hint : text.toInt? = none := by
    cases text with
    | nil => rfl
    | cons c rest =>
      unfold Text.toInt?
      split
      next negative digits hsplit =>
        have hmem : b ∈ digits := by
          split at hsplit
          next heq =>
            obtain ⟨rfl, rfl⟩ := List.cons.inj heq
            cases hsplit
            exact (List.mem_cons.mp hb).resolve_left hdigit.2.1
          next heq =>
            obtain ⟨rfl, rfl⟩ := List.cons.inj heq
            cases hsplit
            exact (List.mem_cons.mp hb).resolve_left hdigit.2.2
          next =>
            cases hsplit
            exact hb
        simp [hall hmem]
  rw [Text.toWord?, hint]
  rfl

theorem Resembles.toWord? {old new : Text} (h : Resembles old new) :
    Text.toWord? new = Text.toWord? old := by
  rcases h with rfl | ⟨⟨b, hb, hold⟩, c, hc, hnew⟩
  · rfl
  · rw [toWord?_of_isStop hb hold, toWord?_of_isStop hc hnew]

/-- What follows the keyword DISTINCT, if it is the first word of a text. -/
theorem afterDistinct?_append {word rest : Text} (hword : ∀ b ∈ word, Byte.isIdent b = true)
    (hrest : rest.head?.any Byte.isIdent = false) :
    Replacement.afterDistinct? (word ++ rest) =
      if Text.same .folded "distinct" word = true ∧
          rest.head?.any (fun b => Byte.isBlank b || b == Byte.openParen) = true then
        some (trimStart rest)
      else none := by
  have hbreak {behind : Text}
      (h : behind.head?.any (fun b => Byte.isBlank b || b == Byte.openParen) = true) :
      behind.head?.any Byte.isIdent = false := by
    simp only [Option.any_eq_true, Bool.or_eq_true, beq_iff_eq] at h
    obtain ⟨b, hb, hblank | rfl⟩ := h
    · exact not_isIdent_of_isBlank (by simpa [hb] using hblank)
    · rw [hb]
      decide
  have hiff (behind : Text)
      (h : behind.head?.any (fun b => Byte.isBlank b || b == Byte.openParen) = true) :=
    @rest?_append_iff .folded "distinct" word rest behind (by decide) hword hrest (hbreak h)
  unfold Replacement.afterDistinct?
  split
  next hnone =>
    rw [if_neg]
    rintro ⟨hsame, hhead⟩
    rw [(hiff rest hhead).mpr ⟨hsame, rfl⟩] at hnone
    cases hnone
  next behind hstarts =>
    split
    next hhead =>
      obtain ⟨hsame, rfl⟩ := (hiff behind hhead).mp hstarts
      rw [if_pos ⟨hsame, hhead⟩]
    next hhead =>
      rw [if_neg]
      rintro ⟨hsame, hrestHead⟩
      rw [(hiff rest hrestHead).mpr ⟨hsame, rfl⟩] at hstarts
      exact hhead (Option.some.inj hstarts ▸ hrestHead)

/-- A text that is not trimmed at its ends, and that starts neither a literal nor with the keyword
DISTINCT. -/
structure Firm (text : Text) : Prop where
  head : ∃ b, text.head? = some b ∧ (!Byte.isFiller b && !Byte.isQuote b) = true
  last : ∃ b, text.getLast? = some b ∧ Byte.isStop b = true
  keyword : clashes .folded "distinct" text = true

end Text

namespace Phrase

variable {callee : Callee} {replace : Phrase → Phrase} {word : Text} {p : Phrase}

/-- A parenthesis at the start of a phrase is a group. -/
theorem exists_group_of_head? {next : Option UInt8} (hreads : p.Reads next)
    (h : p.text.head? = some Byte.openParen) : ∃ inner rest, p = group .paren inner rest := by
  cases p with
  | nil => cases h
  | byte b rest =>
    obtain rfl : b = Byte.openParen := by simpa [text] using h
    exact absurd hreads.2.1 (by decide)
  | quoted q value rest =>
    obtain rfl : q = Byte.openParen := by simpa [text, quoteRun] using h
    exact absurd hreads.1 (by decide)
  | group kind inner rest =>
    cases kind with
    | paren => exact ⟨inner, rest, rfl⟩
    | square => cases h
    | brace => cases h

/-- Behind a word that starts no name of the callee, the word is left as it is. -/
theorem exists_rewrite_of_names (h : ∀ behind, callee.names (word ++ behind) = false) :
    ∃ rest, (p.rewrite callee replace word).text = word ++ rest ∧ rest.head? = p.text.head? := by
  induction p generalizing word with
  | nil => exact ⟨[], by simp [rewrite], rfl⟩
  | byte b rest ih =>
    rw [rewrite]
    split
    next hb =>
      obtain ⟨behind, htext, -⟩ := @ih (word ++ [b]) fun behind => by simpa using h (b :: behind)
      exact ⟨b :: behind, by simp [htext], rfl⟩
    next hb => exact ⟨b :: (rest.rewrite callee replace []).text, by simp [text], rfl⟩
  | quoted q value rest ih =>
    exact ⟨_, by rw [rewrite, text_append, text_ofBytes], by simp [text, quoteRun]⟩
  | group kind inner rest ihinner ih =>
    have hmiss : ¬(kind = .paren ∧ callee.names word = true) := by
      rintro ⟨-, hnames⟩
      have := h []
      rw [List.append_nil, hnames] at this
      cases this
    exact ⟨_, by rw [rewrite, if_neg hmiss, text_append, text_ofBytes], by simp [text]⟩

/-- Filler at the start of a phrase is left as it is, and what is behind it starts with no filler,
if no name of the callee starts with filler. -/
theorem exists_rewrite_filler {f behind : Text} (hreads : p.Reads none)
    (hfirm : p.AllCalls (fun name inner => callee.names name = true → (replace inner).text.Firm)
      word)
    (hnames : ∀ b name, Byte.isFiller b = true → callee.names (b :: name) = false)
    (hword : word = [] ∨ ∀ name, callee.names (word ++ name) = false)
    (htext : p.text = f ++ behind) (hf : ∀ b ∈ f, Byte.isFiller b = true)
    (hbehind : behind.head?.any Byte.isFiller = false) :
    ∃ rest, (p.rewrite callee replace word).text = word ++ f ++ rest ∧
      rest.head?.any Byte.isFiller = false := by
  induction f generalizing p word with
  | nil =>
    rw [List.nil_append] at htext
    rcases hword with rfl | hword
    · refine ⟨_, rfl, ?_⟩
      rcases head?_rewrite (hfirm.mono fun _ _ hcall hname => (hcall hname).head) with hhead | hhead
      · rw [hhead, htext]
        exact hbehind
      · obtain ⟨b, hhead, hb⟩ := hhead
        rw [Bool.and_eq_true, Bool.not_eq_true'] at hb
        simp [hhead, hb.1]
    · obtain ⟨rest, hrest, hhead⟩ := @exists_rewrite_of_names callee replace word p hword
      exact ⟨rest, by rw [hrest, List.append_nil], by rw [hhead, htext, hbehind]⟩
  | cons b f ih =>
    obtain ⟨hb, hf⟩ := List.forall_mem_cons.mp hf
    obtain ⟨rest, rfl, hrest⟩ := @exists_behind p none [b] (f ++ behind) hreads htext
      (by simpa using isCode_of_isFiller hb)
    obtain ⟨-, -, -, hreads⟩ := hreads
    change rest.Reads none at hreads
    change rest.AllCalls _ (wordWith word b) at hfirm
    change ∃ later, ((byte b rest).rewrite callee replace word).text = _ ∧ _
    rw [wordWith] at hfirm
    rw [rewrite]
    split
    next hident =>
      rw [if_pos hident] at hfirm
      have hword' (name : Text) : callee.names ((word ++ [b]) ++ name) = false := by
        rcases hword with rfl | hword
        · exact hnames b name hb
        · simpa using hword (b :: name)
      obtain ⟨later, hlater, hhead⟩ := ih hreads hfirm (Or.inr hword') hrest hf
      exact ⟨later, by simpa using hlater, hhead⟩
    next hident =>
      rw [if_neg hident] at hfirm
      obtain ⟨later, hlater, hhead⟩ := ih hreads hfirm (Or.inl rfl) hrest hf
      exact ⟨later, by simp [text, hlater], hhead⟩

theorem rewrite_ofBytes (bytes : Text) :
    (ofBytes bytes).rewrite callee replace word = ofBytes (word ++ bytes) := by
  induction bytes generalizing word with
  | nil => simp [ofBytes, rewrite]
  | cons b bytes ih =>
    rw [ofBytes, rewrite]
    split
    · rw [ih, List.append_assoc, List.singleton_append]
    · rw [ih, List.nil_append, ofBytes_append, ofBytes]

/-- Bytes of code behind a phrase are left as they are. -/
theorem text_rewrite_append_ofBytes (bytes : Text) :
    ((p.append (ofBytes bytes)).rewrite callee replace word).text =
      (p.rewrite callee replace word).text ++ bytes := by
  rw [rewrite_append_of_eq, text_append, rewrite_ofBytes, List.nil_append, text_ofBytes]
  rw [rewrite_ofBytes, rewrite_ofBytes, List.nil_append, ofBytes_append]

theorem isCode_of_continues {b : UInt8} (h : Byte.continues b = true) :
    Byte.isQuote b = false ∧ Byte.isBracket b = false := by
  refine isCode_of_isFiller ?_
  by_contra hfiller
  have := not_continues_of_isFiller (by simpa using hfiller)
  simp [h] at this

/-- A phrase of bytes of code only. -/
theorem eq_ofBytes {next : Option UInt8} (hreads : p.Reads next)
    (h : ∀ b ∈ p.text, Byte.isQuote b = false ∧ Byte.isBracket b = false) : p = ofBytes p.text := by
  obtain ⟨last, hp, hlast⟩ := exists_behind hreads (List.append_nil _).symm h
  rwa [eq_nil_of_text hlast, append_nil] at hp

/-- A trimmed phrase, with what was cut off. -/
structure Trims (p : Phrase) (before : Text) (middle : Phrase) (behind : Text) : Prop where
  eq : p = (ofBytes before).append (middle.append (ofBytes behind))
  lastWord : (ofBytes before).lastWord [] = []
  start : (middle.append (ofBytes behind)).text = trimStart p.text
  stop : middle.text = Text.trim p.text

theorem exists_trims (hreads : p.Reads none) :
    ∃ before middle behind, p.Trims before middle behind := by
  obtain ⟨before, hbefore, hfiller, hlast⟩ := exists_trimStart_filler p.text
  obtain ⟨q, hq, hstart⟩ :=
    exists_behind hreads hbefore fun b hb => isCode_of_isFiller (hfiller b hb)
  obtain ⟨behind, hbehind, hfiller⟩ := exists_trimEnd_filler q.text
  rw [hq, reads_append] at hreads
  obtain ⟨middle, hmiddle, hstop⟩ :=
    exists_before hreads.2 hbehind fun b hb => isCode_of_isFiller (hfiller b hb)
  refine ⟨before, middle, behind, by rw [hq, hmiddle], ?_, by rw [← hmiddle, hstart], ?_⟩
  · by_cases hne : before = []
    · rw [hne]
      rfl
    · exact lastWord_ofBytes hne hlast
  · rw [hstop, hstart, Text.trim]

theorem isFiller_of_isStop {b : UInt8} (h : Byte.isStop b = true) : Byte.isFiller b = false := by
  simp only [Byte.isStop, Bool.or_eq_true, beq_iff_eq] at h
  rcases h with rfl | rfl <;> decide

section Trim

variable {before behind : Text} {middle : Phrase}

/-- Trimming the start of a rewritten phrase cuts off what it did before. -/
theorem trimStart_rewrite {q : Phrase} (hreads : p.Reads none)
    (hfirm : p.AllCalls (fun name inner => callee.names name = true → (replace inner).text.Firm) [])
    (hnames : ∀ b name, Byte.isFiller b = true → callee.names (b :: name) = false)
    (hp : p = (ofBytes before).append q) (hbefore : (ofBytes before).lastWord [] = [])
    (hq : q.text = trimStart p.text) :
    trimStart (p.rewrite callee replace []).text = (q.rewrite callee replace []).text := by
  have hnew : (p.rewrite callee replace []).text =
      before ++ (q.rewrite callee replace []).text := by
    rw [hp, rewrite_append_of_lastWord hbefore, text_append, rewrite_ofBytes, text_ofBytes,
      List.nil_append]
  have hold : p.text = before ++ q.text := by rw [hp, text_append, text_ofBytes]
  rw [hp, reads_append] at hreads
  rw [hp, allCalls_append, hbefore] at hfirm
  -- Both are cut within their first filler, which is the same.
  obtain ⟨run, rest, hrun, hfiller, hrest⟩ := exists_run Byte.isFiller q.text
  obtain ⟨later, hlater, hhead⟩ :=
    exists_rewrite_filler hreads.2 hfirm.2 hnames (Or.inl rfl) hrun hfiller hrest
  have hcut : trimStart (before ++ run) = run := by
    rw [hold, hrun, ← List.append_assoc, trimStart_append hrest] at hq
    exact (List.append_cancel_right hq).symm
  rw [hnew, hlater, List.nil_append, ← List.append_assoc, trimStart_append hhead, hcut]

/-- Trimming the end of a rewritten phrase cuts off what it did before. -/
theorem trimEnd_rewrite (hreads : p.Reads none)
    (hfirm : p.AllCalls (fun name inner => callee.names name = true → (replace inner).text.Firm) [])
    (hp : p = middle.append (ofBytes behind)) (hmiddle : middle.text = trimEnd p.text) :
    trimEnd (p.rewrite callee replace []).text = (middle.rewrite callee replace []).text := by
  have hold : p.text = middle.text ++ behind := by rw [hp, text_append, text_ofBytes]
  rw [hp, reads_append] at hreads
  rw [hp, allCalls_append] at hfirm
  rw [hp, text_rewrite_append_ofBytes]
  rcases exists_last_not Byte.continues middle.text with hall | ⟨before, c, run, htext, hc, hrun⟩
  · have hbytes := eq_ofBytes hreads.1 fun b hb => isCode_of_continues (hall b hb)
    rw [hbytes, rewrite_ofBytes, List.nil_append, text_ofBytes, ← hold, ← hmiddle]
  · -- The last byte that continues no glyph stays, or makes way for one that is no filler.
    obtain ⟨first, hfirst, htextFirst⟩ :=
      @exists_before middle _ (before ++ [c]) run hreads.1 (by simpa using htext)
        fun b hb => isCode_of_continues (hrun b hb)
    have hcalls := hfirm.1
    rw [hfirst, allCalls_append] at hcalls
    have hnew : ∃ start d, (first.rewrite callee replace []).text = start ++ [d] ∧
        (d = c ∨ Byte.isFiller d = false) := by
      rcases getLast?_rewrite (hcalls.1.mono fun _ _ hcall hname => (hcall hname).last) with
        hlast | ⟨d, hlast, hstop⟩
      · rw [htextFirst, List.nil_append, List.getLast?_concat] at hlast
        obtain ⟨start, hstart⟩ := List.getLast?_eq_some_iff.mp hlast
        exact ⟨start, c, hstart, Or.inl rfl⟩
      · obtain ⟨start, hstart⟩ := List.getLast?_eq_some_iff.mp hlast
        exact ⟨start, d, hstart, Or.inr (isFiller_of_isStop hstop)⟩
    obtain ⟨start, d, hstart, hd⟩ := hnew
    have hend : trimEnd (before ++ c :: (run ++ behind)) = before ++ c :: run := by
      rw [← htext, hmiddle, hold, htext]
      simp
    have hlater := @trimEnd_exchange before start _ _ _ _ hc hend hd
    rw [hfirst, text_rewrite_append_ofBytes, hstart]
    simpa using hlater

/-- Trimming a rewritten phrase leaves the rewrite of what trimming the phrase leaves. -/
theorem Trims.rewrite (h : p.Trims before middle behind) (hreads : p.Reads none)
    (hfirm : p.AllCalls (fun name inner => callee.names name = true → (replace inner).text.Firm) [])
    (hnames : ∀ b name, Byte.isFiller b = true → callee.names (b :: name) = false) :
    Text.trim (p.rewrite callee replace []).text = (middle.rewrite callee replace []).text := by
  rw [Text.trim, trimStart_rewrite hreads hfirm hnames h.eq h.lastWord h.start]
  have hp := h.eq
  rw [hp, reads_append] at hreads
  rw [hp, allCalls_append, h.lastWord] at hfirm
  exact trimEnd_rewrite hreads.2 hfirm.2 rfl (by rw [h.start, h.stop, Text.trim])

end Trim

section Arguments

/-- A rewrite leaves a phrase as it is, or takes a parenthesis away and leaves the end of a
replacement. -/
theorem resembles_rewrite (hfirm : p.AllCalls (fun name inner => callee.names name = true →
      (replace inner).text.Firm) word) :
    Resembles (word ++ p.text) (p.rewrite callee replace word).text := by
  induction p generalizing word with
  | nil => simpa [rewrite, text] using Resembles.refl word
  | byte b rest ih =>
    rw [AllCalls, wordWith] at hfirm
    rw [rewrite]
    split
    next hb =>
      rw [if_pos hb] at hfirm
      simpa [text] using ih hfirm
    next hb =>
      rw [if_neg hb] at hfirm
      simpa [text] using (Resembles.refl (word ++ [b])).append (ih hfirm)
  | quoted q value rest ih =>
    simpa [rewrite, text] using (Resembles.refl (word ++ quoteRun q value)).append (ih hfirm)
  | group kind inner rest ihinner ih =>
    obtain ⟨hcall, hinner, hrest⟩ := hfirm
    rw [rewrite]
    split
    next hhit =>
      obtain ⟨b, hb, hstop⟩ := (hcall hhit.1 hhit.2).last
      refine Or.inr ⟨⟨Byte.closeParen, ?_, rfl⟩, b, ?_, hstop⟩
      · simp [text, hhit.1, Bracket.closing]
      · rw [text_append]
        exact List.mem_append_left _ (List.mem_of_getLast? hb)
    next =>
      have hwithin := (Resembles.refl (word ++ [kind.opening])).append (ihinner hinner)
      have hlater := hwithin.append ((Resembles.refl [kind.closing]).append (ih hrest))
      simpa [text] using hlater

/-- The pieces of a rewritten phrase are those of the phrase, each rewritten by itself. -/
theorem pieces_rewrite (h : p.AllCalls (fun name inner => callee.names name = true →
      (replace inner).commas = 0) []) :
    (p.rewrite callee replace []).pieces =
      p.pieces.map fun piece => piece.rewrite callee replace [] := by
  induction p using piecesInduction with
  | last p hcommas hpieces =>
    rw [hpieces, pieces_of_commas (by rw [commas_rewrite (by simp) h, hcommas])]
    rfl
  | more first rest hcommas hpieces ih =>
    rw [allCalls_append] at h
    have hfirst := commas_rewrite (by simp) h.1
    rw [rewrite_append (by simp [text]; decide) (Or.inr (by simp [text]; decide)), hpieces]
    change ((first.rewrite callee replace []).append
      (byte Byte.comma (rest.rewrite callee replace []))).pieces = _
    rw [pieces_append_comma (hfirst.trans hcommas), ih h.2, List.map_cons]

variable (hreads : p.Reads none)
  (hfirm : p.AllCalls (fun name inner => callee.names name = true → (replace inner).text.Firm) [])
  (hnames : ∀ b name, Byte.isFiller b = true → callee.names (b :: name) = false)

include hreads hfirm hnames

/-- Trimming a phrase and its rewrite gives a phrase and its rewrite. -/
theorem resembles_trim_rewrite :
    Resembles (Text.trim p.text) (Text.trim (p.rewrite callee replace []).text) := by
  obtain ⟨before, middle, behind, htrims⟩ := exists_trims hreads
  rw [htrims.rewrite hreads hfirm hnames, ← htrims.stop]
  rw [htrims.eq, allCalls_append, htrims.lastWord, allCalls_append] at hfirm
  exact resembles_rewrite hfirm.2.1

/-- The arguments of a rewritten phrase are those of the phrase, each rewritten by itself. -/
theorem arguments_rewrite {s : Text → Text}
    (hcommas : p.AllCalls (fun name inner => callee.names name = true →
      (replace inner).commas = 0) [])
    (hs : ∀ piece ∈ p.pieces,
      s (Text.trim piece.text) = Text.trim (piece.rewrite callee replace []).text) :
    (p.rewrite callee replace []).arguments = p.arguments.map s := by
  have hempty := (resembles_trim_rewrite hreads hfirm hnames).eq_nil_iff
  rw [arguments, arguments, pieces_rewrite hcommas]
  simp only [List.isEmpty_iff, hempty]
  split
  · rfl
  · rw [List.map_map, List.map_map]
    exact List.map_congr_left fun piece hpiece => (hs piece hpiece).symm

/-- A rewrite leaves what a literal says. -/
theorem unquoteLiteral?_rewrite :
    unquoteLiteral? (p.rewrite callee replace []).text = unquoteLiteral? p.text := by
  obtain ⟨before, middle, behind, htrims⟩ := exists_trims hreads
  have hnew := htrims.rewrite hreads hfirm hnames
  have hold := htrims.stop
  rw [htrims.eq, reads_append, reads_append] at hreads
  rw [htrims.eq, allCalls_append, htrims.lastWord, allCalls_append] at hfirm
  replace hreads := hreads.2.1
  replace hfirm := hfirm.2.1
  -- What is rewritten starts with a quote only if it did before.
  have hstart {q : Phrase} (hcalls : q.AllCalls (fun name inner => callee.names name = true →
      (replace inner).text.Firm) []) (hhead : q.text.head? ≠ some Byte.quote) :
      (q.rewrite callee replace []).text.head? ≠ some Byte.quote := by
    rcases head?_rewrite (hcalls.mono fun _ _ hcall hname => (hcall hname).head) with hsame | hnot
    · rwa [hsame]
    · obtain ⟨b, hb, hquote⟩ := hnot
      rw [hb]
      rintro ⟨rfl⟩
      simp [Byte.isQuote] at hquote
  have hother (hhead : middle.text.head? ≠ some Byte.quote) :
      unquoteLiteral? (p.rewrite callee replace []).text = unquoteLiteral? p.text := by
    have hnone := unquoteLiteral?_of_head? (hnew ▸ hstart hfirm hhead)
    rw [hnone, unquoteLiteral?_of_head? (by rwa [← hold])]
  cases middle with
  | nil => exact hother (by simp [text])
  | byte b rest =>
    refine hother ?_
    rintro ⟨rfl⟩
    exact absurd hreads.1 (by decide)
  | quoted q value rest =>
    by_cases hq : q = Byte.quote
    · subst hq
      by_cases hnil : rest.text = []
      · obtain rfl := eq_nil_of_text hnil
        have hsame : Text.trim (p.rewrite callee replace []).text = Text.trim p.text := by
          rw [hnew, ← hold]
          rfl
        rw [unquoteLiteral?, unquoteLiteral?, hsame]
      · have hhead : rest.text.head? ≠ some Byte.quote := fun heq => hreads.2.1 (by rw [heq]; rfl)
        have hempty := (@resembles_rewrite callee replace [] rest hfirm).eq_nil_iff
        rw [List.nil_append] at hempty
        have hgone := unquoteLiteral?_of_append hnew (mt hempty.mp hnil) (hstart hfirm hhead)
        rw [hgone, unquoteLiteral?_of_append hold.symm hnil hhead]
    · exact hother (by simpa [text, quoteRun] using hq)
  | group kind inner rest =>
    exact hother (by cases kind <;> simp [text, Bracket.opening] <;> decide)

/-- A rewrite leaves what a number spells. -/
theorem toWord?_rewrite : toWord? (Text.trim (p.rewrite callee replace []).text) =
    toWord? (Text.trim p.text) :=
  (resembles_trim_rewrite hreads hfirm hnames).toWord?

omit hnames in
/-- What follows the keyword DISTINCT in a rewritten phrase is the rewrite of what followed it. -/
theorem afterDistinct?_rewrite
    (hkeyword : ∀ name, Text.same .folded "distinct" name = true → callee.names name = false) :
    Replacement.afterDistinct? (p.rewrite callee replace []).text = none ∧
        Replacement.afterDistinct? p.text = none ∨
      ∃ name q, p = (ofBytes name).append q ∧ (∀ b ∈ name, Byte.isIdent b = true) ∧
        q.text.head?.any Byte.isIdent = false ∧
        Replacement.afterDistinct? (p.rewrite callee replace []).text =
          some (trimStart (q.rewrite callee replace []).text) ∧
        Replacement.afterDistinct? p.text = some (trimStart q.text) := by
  obtain ⟨name, rest, htext, hname, hrest⟩ := exists_run Byte.isIdent p.text
  obtain ⟨q, rfl, rfl⟩ := exists_behind hreads htext fun b hb =>
    ⟨(Byte.isPlain_iff.mp (Byte.isPlain_of_isIdent (hname b hb))).1,
      Byte.isBracket_of_isIdent (hname b hb)⟩
  rw [rewrite_ofBytes_append hname, List.nil_append, htext, afterDistinct?_append hname hrest]
  by_cases hcall : callee.names name = false ∨ q.text.head? ≠ some Byte.openParen
  · rw [rewrite_of_break hrest hcall, text_append, text_ofBytes,
      afterDistinct?_append hname (by rwa [head?_rewrite_of_break hrest]),
      head?_rewrite_of_break hrest]
    split
    · exact Or.inr ⟨name, q, rfl, hname, hrest, rfl, rfl⟩
    · exact Or.inl ⟨rfl, rfl⟩
  · -- A call takes the place of the word, and does not start with the keyword.
    obtain ⟨hnames, hparen⟩ : callee.names name = true ∧ q.text.head? = some Byte.openParen := by
      simpa using hcall
    have hnot : Text.same .folded "distinct" name = false := by
      by_contra hsame
      rw [hkeyword name (by simpa using hsame)] at hnames
      cases hnames
    rw [if_neg (by simp [hnot])]
    refine Or.inl ⟨?_, rfl⟩
    rw [reads_append] at hreads
    rw [allCalls_append, lastWord_ofBytes_of_isIdent hname, List.nil_append] at hfirm
    obtain ⟨inner, rest, rfl⟩ := exists_group_of_head? hreads.2 hparen
    rw [rewrite, if_pos ⟨rfl, hnames⟩, text_append, Replacement.afterDistinct?,
      rest?_of_clashes (hfirm.2.1 rfl hnames).keyword]

end Arguments

end Phrase

end QueryBridge
