import QueryBridge.Conversion.Calls
import QueryBridge.Proofs.Edit
import QueryBridge.Proofs.Lexical.Call
import QueryBridge.Proofs.Lexical.Word
import QueryBridge.Proofs.Phrase.Code

/-!
# Replaced calls of a phrase

A call in a phrase is a group in parentheses with the name of the callee right before it. Replacing
the calls of a statement that is a phrase is a recursion over its tree, and no call in it is left
without a closing parenthesis.
-/

namespace QueryBridge

open Text

/-- A text falls into a word and what follows it in one way only. -/
theorem Text.word_eq_of_append_eq {word rest word' rest' : Text}
    (h : word ++ rest = word' ++ rest') (hword : ∀ b ∈ word, Byte.isIdent b = true)
    (hword' : ∀ b ∈ word', Byte.isIdent b = true) (hrest : rest.head?.any Byte.isIdent = false)
    (hrest' : rest'.head?.any Byte.isIdent = false) : word = word' ∧ rest = rest' := by
  rcases List.append_eq_append_iff.mp h with ⟨middle, hlong, htail⟩ | ⟨middle, hlong, htail⟩
  · cases middle with
    | nil => exact ⟨by simpa using hlong.symm, by simpa using htail⟩
    | cons b middle =>
      have hb := hword' b (by simp [hlong])
      simp [htail, hb] at hrest
  · cases middle with
    | nil => exact ⟨by simpa using hlong, by simpa using htail.symm⟩
    | cons b middle =>
      have hb := hword b (by simp [hlong])
      simp [htail, hb] at hrest'

/-- A name with no identifier byte behind it stands at the start of a text exactly if it is the first
word of the text. -/
theorem Text.rest?_append_iff {letters : LetterCase} {name word rest behind : Text}
    (hname : name.all Byte.isIdent = true) (hword : ∀ b ∈ word, Byte.isIdent b = true)
    (hrest : rest.head?.any Byte.isIdent = false)
    (hbehind : behind.head?.any Byte.isIdent = false) :
    rest? letters name (word ++ rest) = some behind ↔
      Text.same letters name word = true ∧ rest = behind := by
  rw [Text.same, beq_iff_eq]
  constructor
  · intro hstarts
    obtain ⟨found, hsplit, hlength, hfound⟩ := exists_of_rest?_eq_some hname hstarts
    obtain ⟨rfl, rfl⟩ := Text.word_eq_of_append_eq hsplit hword hfound hrest hbehind
    have htake : word.take name.length = (word ++ rest).take name.length := by
      rw [← hlength, List.take_left, List.take_length]
    have hwhole := rest?_of_take_eq hstarts htake
    rw [← hlength, List.drop_length] at hwhole
    exact ⟨hwhole, rfl⟩
  · rintro ⟨hwhole, rfl⟩
    have hlength : word.length = name.length := by
      simpa using length_of_rest?_eq_some hwhole
    have htake : (word ++ rest).take name.length = word.take name.length := by
      rw [← hlength, List.take_left, List.take_length]
    have hstarts := rest?_of_take_eq hwhole htake
    rwa [← hlength, List.drop_left] at hstarts

/-- Puts calls in front of those of a survey. -/
def Survey.prepend {α : Type} (calls : List α) (survey : Survey α) : Survey α :=
  ⟨calls ++ survey.calls, survey.unbalanced⟩

namespace Callee

/-- Whether a word is the name of a callee. -/
def names (callee : Callee) (word : Text) : Bool :=
  !callee.name.isEmpty && Text.same callee.letters callee.name word

variable {callee : Callee}

theorem names_iff {word : Text} :
    callee.names word = true ↔
      callee.name ≠ [] ∧ rest? callee.letters callee.name word = some [] := by
  simp [names, Text.same, List.isEmpty_eq_false_iff]

theorem names_nil : callee.names [] = false := by
  by_contra h
  obtain ⟨hne, hrest⟩ := names_iff.mp (by simpa using h)
  obtain ⟨b, name, hname⟩ := List.exists_cons_of_ne_nil hne
  rw [hname] at hrest
  simp [rest?] at hrest

/-- A text that starts with a name starts with a word and a parenthesis only if the word is the
name. -/
theorem opening?_eq (hname : callee.IsWord) {c : Cursor} {word rest : Text}
    (hafter : c.after = word ++ rest) (hword : ∀ b ∈ word, Byte.isIdent b = true)
    (hrest : rest.head?.any Byte.isIdent = false) :
    callee.opening? c =
      if callee.names word && !c.followsIdent && rest.head? == some Byte.openParen then
        some (c.forward word.length)
      else none := by
  have hiff (behind : Text) (hparen : behind.head? = some Byte.openParen) :=
    @rest?_append_iff callee.letters callee.name word rest behind hname hword hrest
      (by rw [hparen]; decide)
  rw [opening?, hafter]
  cases hstarts : rest? callee.letters callee.name (word ++ rest) with
  | none =>
    have hnot : (callee.names word && rest.head? == some Byte.openParen) = false := by
      by_contra hboth
      simp only [Bool.not_eq_false, Bool.and_eq_true, beq_iff_eq, names] at hboth
      rw [(hiff rest hboth.2).mpr ⟨hboth.1.2, rfl⟩] at hstarts
      cases hstarts
    rw [if_neg (by rw [Bool.and_right_comm, hnot, Bool.false_and]; simp)]
  | some behind =>
    by_cases hparen : behind.head? = some Byte.openParen
    · -- The name ends where the parenthesis stands, so it is the whole word.
      obtain ⟨hsame, rfl⟩ := (hiff behind hparen).mp hstarts
      have hlength : word.length = callee.name.length := by
        have := length_of_rest?_eq_some hstarts
        rw [List.length_append] at this
        omega
      simp [names, hsame, hparen, hlength]
    · have hnot : (callee.names word && rest.head? == some Byte.openParen) = false := by
        by_contra hboth
        simp only [Bool.not_eq_false, Bool.and_eq_true, beq_iff_eq, names] at hboth
        rw [(hiff rest hboth.2).mpr ⟨hboth.1.2, rfl⟩] at hstarts
        exact hparen (Option.some.inj hstarts ▸ hboth.2)
      rw [if_neg (by rw [Bool.and_right_comm, hnot, Bool.false_and]; simp)]
      simp [hparen]

theorem opening?_of_followsIdent {c : Cursor} (h : c.followsIdent = true) :
    callee.opening? c = none := by
  unfold opening?
  split
  · rfl
  · simp [h]

section Survey

variable {place : Nat} {first last : List Cursor}

/-- A survey passes over code without calls. -/
theorem survey_append (h : ∀ c ∈ first, callee.opening? c = none) :
    callee.survey place (first ++ last) = callee.survey place last := by
  induction first with
  | nil => rfl
  | cons c first ih =>
    obtain ⟨hc, hfirst⟩ := List.forall_mem_cons.mp h
    rw [List.cons_append, survey, hc]
    split <;> exact ih hfirst

/-- A survey passes over the code before its place. -/
theorem survey_of_lt (h : ∀ c ∈ first, c.offset < place) :
    callee.survey place (first ++ last) = callee.survey place last := by
  induction first with
  | nil => rfl
  | cons c first ih =>
    obtain ⟨hc, hfirst⟩ := List.forall_mem_cons.mp h
    rw [List.cons_append, survey, if_pos hc]
    exact ih hfirst

/-- The place of a survey does not matter if all code stands behind it. -/
theorem survey_of_le (h : ∀ c ∈ last, place ≤ c.offset) :
    callee.survey place last = callee.survey 0 last := by
  induction last with
  | nil => rfl
  | cons c last ih =>
    obtain ⟨hc, hlast⟩ := List.forall_mem_cons.mp h
    rw [survey, survey, if_neg (Nat.not_lt.mpr hc), if_neg (Nat.not_lt_zero _), ih hlast]

/-- Where nothing is found, nothing starts. -/
theorem opening?_of_survey (h : callee.survey 0 last = ⟨[], none⟩) :
    ∀ c ∈ last, callee.opening? c = none := by
  induction last with
  | nil => simp
  | cons c last ih =>
    rw [survey, if_neg (Nat.not_lt_zero _)] at h
    cases hopening : callee.opening? c with
    | none =>
      rw [hopening] at h
      exact List.forall_mem_cons.mpr ⟨hopening, ih h⟩
    | some opening =>
      rw [hopening] at h
      dsimp only at h
      cases hclosing : opening.closingParen? with
      | none =>
        rw [hclosing] at h
        simp at h
      | some closing =>
        rw [hclosing] at h
        simp [Survey.cons] at h

end Survey

end Callee

namespace Phrase

/-- The outermost calls in a phrase that stands at an offset behind a word, each with the phrase
between its parentheses. -/
def sites (callee : Callee) (offset : Nat) (word : Text) : Phrase → List (CallSite × Phrase)
  | nil => []
  | byte b rest => rest.sites callee (offset + 1) (wordWith word b)
  | quoted q value rest => rest.sites callee (offset + (quoteRun q value).length) []
  | group kind inner rest =>
    let stop := offset + 1 + inner.text.length
    if kind = .paren ∧ callee.names word = true then
      (⟨offset - word.length, offset, stop⟩, inner) :: rest.sites callee (stop + 1) []
    else inner.sites callee (offset + 1) [] ++ rest.sites callee (stop + 1) []

variable {callee : Callee} {word before tail : Text} {offset : Nat}

/-- Inside a word no call starts. -/
theorem opening?_of_mem_word (hword : ∀ b ∈ word, Byte.isIdent b = true)
    (hbefore : before.head?.any Byte.isIdent = true) {c : Cursor}
    (h : c ∈ (ofBytes word).cursors offset before tail) : callee.opening? c = none := by
  induction word generalizing offset before with
  | nil => simp [ofBytes, cursors] at h
  | cons b word ih =>
    obtain ⟨hb, hword⟩ := List.forall_mem_cons.mp hword
    rw [ofBytes, cursors] at h
    rcases List.mem_cons.mp h with rfl | h
    · exact Callee.opening?_of_followsIdent hbefore
    · exact ih hword (by simpa using hb) h

/-- A word that no parenthesis follows, or that is not the name of a callee, is no call to it. -/
theorem opening?_of_mem_ofBytes (hname : callee.IsWord) (hword : ∀ b ∈ word, Byte.isIdent b = true)
    (htail : tail.head?.any Byte.isIdent = false)
    (hnot : callee.names word = false ∨ tail.head? ≠ some Byte.openParen) {c : Cursor}
    (h : c ∈ (ofBytes word).cursors offset before tail) : callee.opening? c = none := by
  cases word with
  | nil => simp [ofBytes, cursors] at h
  | cons b word =>
    rw [ofBytes, cursors, text_ofBytes] at h
    rcases List.mem_cons.mp h with rfl | h
    · have hafter : Cursor.after ⟨offset, before, b :: (word ++ tail)⟩ = b :: word ++ tail := rfl
      rw [Callee.opening?_eq hname hafter hword htail, if_neg]
      rcases hnot with hnot | hnot <;> simp [hnot]
    · obtain ⟨hb, hword⟩ := List.forall_mem_cons.mp hword
      exact opening?_of_mem_word hword (by simpa using hb) h

/-- No call starts before a byte of no identifier. -/
theorem opening?_of_not_isIdent (hname : callee.IsWord) {c : Cursor} {b : UInt8} {rest : Text}
    (hafter : c.after = b :: rest) (hb : Byte.isIdent b = false) : callee.opening? c = none := by
  have hsplit : c.after = [] ++ b :: rest := hafter
  rw [Callee.opening?_eq hname hsplit (by simp) (by simpa using hb), Callee.names_nil]
  rfl

theorem isIdent_opening (kind : Bracket) : Byte.isIdent kind.opening = false := by
  cases kind <;> decide

theorem isIdent_closing (kind : Bracket) : Byte.isIdent kind.closing = false := by
  cases kind <;> decide

theorem isIdent_of_isQuote {b : UInt8} (h : Byte.isQuote b = true) : Byte.isIdent b = false := by
  simp only [Byte.isQuote, Bool.or_eq_true, beq_iff_eq] at h
  rcases h with (rfl | rfl) | rfl <;> decide

/-- The name of a callee and a group in parentheses behind it make a call that is closed. -/
theorem call_of_names (hname : callee.IsWord) (hnames : callee.names word = true)
    (hword : ∀ b ∈ word, Byte.isIdent b = true) (hbefore : before.head?.any Byte.isIdent = false)
    {inner : Phrase} (hinner : inner.Reads (some Byte.closeParen)) (behind : Text) :
    ∃ opening closing,
      callee.opening? ⟨offset, before,
        word ++ Byte.openParen :: (inner.text ++ Byte.closeParen :: behind)⟩ = some opening ∧
      opening.offset = offset + word.length ∧ opening.closingParen? = some closing ∧
      closing.offset = offset + word.length + 1 + inner.text.length := by
  have hopening := Callee.opening?_eq hname (c := ⟨offset, before,
    word ++ Byte.openParen :: (inner.text ++ Byte.closeParen :: behind)⟩) rfl hword rfl
  have hfollows : Cursor.followsIdent ⟨offset, before,
      word ++ Byte.openParen :: (inner.text ++ Byte.closeParen :: behind)⟩ = false := hbefore
  rw [hnames, hfollows] at hopening
  refine ⟨_, ⟨offset + word.length + 1 + inner.text.length,
    inner.text.reverse ++ Byte.openParen :: (word.reverse ++ before), Byte.closeParen :: behind⟩,
    hopening, ?_, ?_, rfl⟩
  · simp [Cursor.forward]
  · have hforward : Cursor.forward ⟨offset, before,
        word ++ Byte.openParen :: (inner.text ++ Byte.closeParen :: behind)⟩ word.length =
        ⟨offset + word.length, word.reverse ++ before,
          Byte.openParen :: (inner.text ++ Byte.closeParen :: behind)⟩ := by
      simp [Cursor.forward]
    rw [hforward]
    exact closing?_group .paren hinner _ _ _

/-- A survey passes over a word that is no call, and over a byte of no identifier behind it. -/
theorem survey_word (hname : callee.IsWord) {b : UInt8} {rest : Text}
    (hword : ∀ b ∈ word, Byte.isIdent b = true) (hb : Byte.isIdent b = false)
    (hnot : callee.names word = false ∨ b ≠ Byte.openParen) (offset' : Nat) (before' : Text)
    (code : List Cursor) :
    callee.survey 0 ((ofBytes word).cursors offset before (b :: rest) ++
      (⟨offset', before', b :: rest⟩ :: code)) = callee.survey 0 code := by
  have hparen : callee.names word = false ∨ (b :: rest).head? ≠ some Byte.openParen := by
    simpa using hnot
  rw [Callee.survey_append fun c hc =>
    opening?_of_mem_ofBytes hname hword (by simpa using hb) hparen hc]
  exact Callee.survey_append (List.forall_mem_singleton.mpr
    (opening?_of_not_isIdent hname rfl hb))

/-- A survey finds a call of the callee and goes on behind it. -/
theorem survey_call (hname : callee.IsWord) (hnames : callee.names word = true)
    (hword : ∀ b ∈ word, Byte.isIdent b = true) (hbefore : before.head?.any Byte.isIdent = false)
    {inner : Phrase} (hinner : inner.Reads (some Byte.closeParen)) (behind : Text)
    {code : List Cursor}
    (hcode : ∀ c ∈ code, offset + word.length + 1 + inner.text.length + 1 ≤ c.offset) :
    callee.survey 0
        (((ofBytes word).append (group .paren inner nil)).cursors offset before behind ++ code) =
      (callee.survey 0 code).cons
        ⟨offset, offset + word.length, offset + word.length + 1 + inner.text.length⟩ := by
  obtain ⟨b, later, rfl⟩ := List.exists_cons_of_ne_nil (l := word) fun hnil => by
    rw [hnil, Callee.names_nil] at hnames
    simp at hnames
  obtain ⟨opening, closing, hopening, hstart, hclosing, hstop⟩ :=
    @call_of_names callee (b :: later) before offset hname hnames hword hbefore inner hinner behind
  -- Every cursor of the call stands before the place where the survey goes on.
  have hskipped : ∀ c ∈ ((ofBytes (b :: later)).append (group .paren inner nil)).cursors offset
      before behind, c.offset < closing.offset + 1 := by
    intro c hc
    have := (offset_of_mem_cursors hc).2
    simp only [text_append, text_ofBytes, text, List.length_append, List.length_cons,
      List.length_nil] at this hstop
    omega
  have htext : ((ofBytes (b :: later)).append (group .paren inner nil)).text ++ behind =
      b :: later ++ Byte.openParen :: (inner.text ++ Byte.closeParen :: behind) := by
    simp [text, Bracket.opening, Bracket.closing]
  have hplace : ∀ c ∈ code, closing.offset + 1 ≤ c.offset := by
    intro c hc
    have := hcode c hc
    omega
  rw [ofBytes, append, text, List.cons_append] at htext
  rw [ofBytes, append, cursors] at hskipped ⊢
  rw [List.cons_append, htext, Callee.survey, if_neg (Nat.not_lt_zero _), hopening]
  dsimp only
  rw [hclosing]
  dsimp only
  rw [CallSite.stop, Callee.survey_of_lt fun c hc => hskipped c (List.mem_cons_of_mem _ hc),
    Callee.survey_of_le hplace, hstart, hstop]

/-- A survey passes over the brackets of a group that is no call, and finds what the survey of the
phrase between them finds. -/
theorem survey_group (hname : callee.IsWord) {kind : Bracket} {inner : Phrase}
    (hword : ∀ b ∈ word, Byte.isIdent b = true)
    (hnot : callee.names word = false ∨ kind.opening ≠ Byte.openParen) {behind : Text}
    {code : List Cursor} {calls : List CallSite}
    (hcode : ∀ c ∈ code, offset + word.length + 1 + inner.text.length ≤ c.offset)
    (hinner : ∀ last : List Cursor,
      (∀ c ∈ last, offset + word.length + 1 + inner.text.length ≤ c.offset) →
      callee.survey 0 (inner.cursors (offset + word.length + 1)
          (kind.opening :: (word.reverse ++ before)) (kind.closing :: behind) ++ last) =
        (callee.survey 0 last).prepend calls) :
    callee.survey 0
        (((ofBytes word).append (group kind inner nil)).cursors offset before behind ++ code) =
      (callee.survey 0 code).prepend calls := by
  let closer : Cursor := ⟨offset + word.length + 1 + inner.text.length,
    inner.text.reverse ++ kind.opening :: (word.reverse ++ before), kind.closing :: behind⟩
  have hcloser : callee.survey 0 (closer :: code) = callee.survey 0 code :=
    Callee.survey_append (List.forall_mem_singleton.mpr
      (opening?_of_not_isIdent hname rfl (isIdent_closing kind)))
  have hwithin := hinner (closer :: code) (List.forall_mem_cons.mpr ⟨le_rfl, hcode⟩)
  rw [hcloser] at hwithin
  simp only [cursors_append, text_ofBytes, text, cursors, List.append_assoc, List.cons_append,
    List.nil_append]
  rw [survey_word hname hword (isIdent_opening kind) hnot]
  exact hwithin

/-- The survey of a phrase finds its outermost calls, and all of them are closed. -/
theorem survey_cursors (hname : callee.IsWord) {p : Phrase} (hreads : p.Reads tail.head?)
    (hword : ∀ b ∈ word, Byte.isIdent b = true) (hbefore : before.head?.any Byte.isIdent = false)
    (htail : tail.head?.any Byte.isIdent = false) (hparen : tail.head? ≠ some Byte.openParen)
    {code : List Cursor} (hcode : ∀ c ∈ code, offset + word.length + p.text.length ≤ c.offset) :
    callee.survey 0 (((ofBytes word).append p).cursors offset before tail ++ code) =
      (callee.survey 0 code).prepend
        ((p.sites callee (offset + word.length) word).map Prod.fst) := by
  induction p generalizing word before offset tail code with
  | nil =>
    rw [append_nil, Callee.survey_append fun c hc =>
      opening?_of_mem_ofBytes hname hword htail (Or.inr hparen) hc]
    rfl
  | byte b rest ih =>
    obtain ⟨-, hbracket, -, hrest⟩ := hreads
    rw [text, List.length_cons] at hcode
    rw [sites, wordWith]
    by_cases hident : Byte.isIdent b = true
    · have hlength : offset + (word ++ [b]).length = offset + word.length + 1 := by
        rw [List.length_append, List.length_singleton, Nat.add_assoc]
      have hcode' : ∀ c ∈ code, offset + (word ++ [b]).length + rest.text.length ≤ c.offset := by
        intro c hc
        have := hcode c hc
        omega
      rw [if_pos hident, ofBytes_append_byte, ← hlength]
      exact ih hrest (List.forall_mem_append.mpr ⟨hword, by simpa using hident⟩) hbefore htail
        hparen hcode'
    · rw [Bool.not_eq_true] at hident
      have hcode' : ∀ c ∈ code,
          offset + word.length + 1 + ([] : Text).length + rest.text.length ≤ c.offset := by
        intro c hc
        have := hcode c hc
        simp only [List.length_nil]
        omega
      have hopen : b ≠ Byte.openParen := by
        rintro rfl
        exact absurd hbracket (by decide)
      have hlater := @ih [] (b :: (word.reverse ++ before)) tail _ hrest (by simp)
        (by simpa using hident) htail hparen _ hcode'
      rw [cursors_append, text_ofBytes, cursors, List.append_assoc, List.cons_append,
        text, List.cons_append, survey_word hname hword hident (Or.inr hopen),
        if_neg (by simp [hident])]
      simpa [ofBytes, append] using hlater
  | quoted q value rest ih =>
    obtain ⟨hquote, -, hrest⟩ := hreads
    have hident := isIdent_of_isQuote hquote
    have hcode' : ∀ c ∈ code, offset + word.length + (quoteRun q value).length +
        ([] : Text).length + rest.text.length ≤ c.offset := by
      intro c hc
      have := hcode c hc
      simp only [text, List.length_append, List.length_nil] at this ⊢
      omega
    have hopen : q ≠ Byte.openParen := by
      rintro rfl
      exact absurd hquote (by decide)
    have hlater := @ih [] ((quoteRun q value).reverse ++ (word.reverse ++ before)) tail _ hrest
      (by simp) (by simpa [quoteRun] using hident) htail hparen _ hcode'
    rw [cursors_append, text_ofBytes, cursors, List.append_assoc, Callee.survey_append fun c hc =>
      opening?_of_mem_ofBytes hname hword (by simpa [text, quoteRun] using hident)
        (Or.inr (by simpa [text, quoteRun] using hopen)) hc, sites]
    simpa [ofBytes, append] using hlater
  | group kind inner rest ihinner ih =>
    obtain ⟨hinner, hrest⟩ := hreads
    have hlength : ((ofBytes word).append (group kind inner nil)).text.length =
        word.length + 1 + inner.text.length + 1 := by
      simp only [text_append, text_ofBytes, text, List.length_append, List.length_cons,
        List.length_nil]
      omega
    rw [text, List.length_cons, List.length_append, List.length_cons] at hcode
    have hcode' : ∀ c ∈ code, offset + (word.length + 1 + inner.text.length + 1) +
        ([] : Text).length + rest.text.length ≤ c.offset := by
      intro c hc
      have := hcode c hc
      rw [List.length_nil]
      omega
    have hlater := @ih [] (((ofBytes word).append (group kind inner nil)).text.reverse ++ before)
      tail _ hrest (by simp) (by simpa [text] using isIdent_closing kind) htail hparen _ hcode'
    have hbehind : ∀ c ∈ rest.cursors (offset + (word.length + 1 + inner.text.length + 1))
        (((ofBytes word).append (group kind inner nil)).text.reverse ++ before) tail ++ code,
        offset + (word.length + 1 + inner.text.length + 1) ≤ c.offset := by
      intro c hc
      rcases List.mem_append.mp hc with hc | hc
      · exact (offset_of_mem_cursors hc).1
      · have := hcode' c hc
        omega
    simp only [ofBytes, append, List.length_nil, Nat.add_zero] at hlater
    rw [append_group, cursors_append, List.append_assoc, sites, hlength]
    simp only [← Nat.add_assoc] at hlater hbehind ⊢
    by_cases hhit : kind = .paren ∧ callee.names word = true
    · rw [if_pos hhit]
      obtain ⟨rfl, hnames⟩ := hhit
      rw [survey_call hname hnames hword hbefore hinner _ hbehind, hlater]
      simp [Survey.cons, Survey.prepend]
    · have hnot : callee.names word = false ∨ kind.opening ≠ Byte.openParen := by
        cases kind with
        | paren => exact Or.inl (by simpa using hhit)
        | square => exact Or.inr (by decide)
        | brace => exact Or.inr (by decide)
      have hclosing : kind.closing ≠ Byte.openParen := by cases kind <;> decide
      have hwithin (last : List Cursor)
          (hlast : ∀ c ∈ last, offset + word.length + 1 + inner.text.length ≤ c.offset) :=
        @ihinner [] (kind.opening :: (word.reverse ++ before))
          (kind.closing :: (rest.text ++ tail)) (offset + word.length + 1) hinner (by simp)
          (by simpa using isIdent_opening kind) (by simpa using isIdent_closing kind)
          (by simpa using hclosing) last hlast
      simp only [ofBytes, append, List.length_nil, Nat.add_zero] at hwithin
      rw [if_neg hhit, survey_group hname hword hnot
        (fun c hc => (Nat.le_succ _).trans (hbehind c hc)) hwithin, hlater]
      simp [Survey.prepend]

/-- All outermost calls of a statement that is a phrase are closed. -/
theorem survey_text (hname : callee.IsWord) {p : Phrase} (hreads : p.Reads none) :
    callee.survey 0 p.text.code = ⟨(p.sites callee 0 []).map Prod.fst, none⟩ := by
  have hcursors := @survey_cursors callee [] [] [] 0 hname p hreads (by simp) rfl rfl (by simp)
    [] (by simp)
  rw [code_text hreads]
  simpa [ofBytes, append, Callee.survey, Survey.prepend] using hcursors

end Phrase

end QueryBridge
