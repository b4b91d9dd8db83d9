import QueryBridge.Proofs.Lexical.Literal
import QueryBridge.Proofs.Lexical.Motion

/-!
# Phrases

A statement without comments, in which every quoted run ends and every bracket is closed by its own
kind, is a tree: bytes of code, quoted runs, and groups in brackets that hold such trees. What the
passes do to calls is a recursion over this tree, whatever the offsets are.

A parenthesis opens a call if a word stands right before it, so the properties of calls are read off
along the tree together with the word in progress.
-/

namespace QueryBridge

/-- A kind of bracket. -/
inductive Bracket where
  /-- Round brackets. -/
  | paren
  /-- Square brackets. -/
  | square
  /-- Braces. -/
  | brace
deriving DecidableEq, Repr

namespace Bracket

/-- The byte that opens a bracket. -/
def opening : Bracket → UInt8
  | .paren => Byte.openParen
  | .square => Byte.openBracket
  | .brace => Byte.openBrace

/-- The byte that closes a bracket. -/
def closing : Bracket → UInt8
  | .paren => Byte.closeParen
  | .square => Byte.closeBracket
  | .brace => Byte.closeBrace

end Bracket

namespace Byte

/-- The bytes that open or close a level of nesting. -/
def isBracket (b : UInt8) : Bool := opensLevel b || closesLevel b

/-- Whether a byte neither opens nor closes anything together with a byte before it. -/
def isCalm (b : UInt8) : Bool := !isQuote b && b != hyphen && b != star

/-- Whether a byte neither opens nor closes anything together with a byte after it. -/
def isSafe (b : UInt8) : Bool := !isQuote b && b != hyphen && b != slash

/-- A class of bytes without any bracket. -/
theorem isBracket_of_class {p : UInt8 → Bool} {b : UInt8}
    (hp : [openParen, openBracket, openBrace, closeParen, closeBracket, closeBrace].all
      (fun x => !p x) = true) (hb : p b = true) : isBracket b = false := by
  by_contra hbracket
  have hmem : b ∈ [openParen, openBracket, openBrace, closeParen, closeBracket, closeBrace] := by
    simp only [isBracket, opensLevel, closesLevel, List.mem_cons] at hbracket ⊢
    grind
  have hout := List.all_eq_true.mp hp b hmem
  simp [hb] at hout

theorem isBracket_of_isFiller {b : UInt8} (h : isFiller b = true) : isBracket b = false :=
  isBracket_of_class (by decide) h

theorem isBracket_of_isIdent {b : UInt8} (h : isIdent b = true) : isBracket b = false :=
  isBracket_of_class (by decide) h

theorem isSafe_of_isPlain {b : UInt8} (h : isPlain b = true) : isSafe b = true := by
  obtain ⟨hquote, hhyphen, hslash, -⟩ := isPlain_iff.mp h
  simp [isSafe, hquote, hhyphen, hslash]

end Byte

namespace Text

/-- The word in progress behind a byte. -/
def wordWith (word : Text) (b : UInt8) : Text := if Byte.isIdent b then word ++ [b] else []

end Text

open Text

/-- Code and quoted runs in which every bracket is closed by its own kind. -/
inductive Phrase where
  /-- Nothing. -/
  | nil
  /-- A byte of code that is no bracket. -/
  | byte (b : UInt8) (rest : Phrase)
  /-- A quoted run. -/
  | quoted (q : UInt8) (value : Text) (rest : Phrase)
  /-- A bracket with what it holds. -/
  | group (kind : Bracket) (inner rest : Phrase)
deriving DecidableEq, Repr

namespace Phrase

/-- The text of a phrase. -/
def text : Phrase → Text
  | nil => []
  | byte b rest => b :: rest.text
  | quoted q value rest => quoteRun q value ++ rest.text
  | group kind inner rest => kind.opening :: (inner.text ++ kind.closing :: rest.text)

/-- One phrase behind another. -/
def append : Phrase → Phrase → Phrase
  | nil, last => last
  | byte b rest, last => byte b (rest.append last)
  | quoted q value rest, last => quoted q value (rest.append last)
  | group kind inner rest, last => group kind inner (rest.append last)

/-- The phrase of some bytes of code. -/
def ofBytes : Text → Phrase
  | [] => nil
  | b :: text => byte b (ofBytes text)

/-- A phrase is read as it is built, before the byte `next`: its bytes open no comment, and its
quoted runs end where they should. -/
def Reads (next : Option UInt8) : Phrase → Prop
  | nil => True
  | byte b rest =>
    Byte.isQuote b = false ∧ Byte.isBracket b = false ∧
      Mode.opensComment b (rest.text.head?.or next) = false ∧ rest.Reads next
  | quoted q _ rest =>
    Byte.isQuote q = true ∧ rest.text.head?.or next ≠ some q ∧ rest.Reads next
  | group kind inner rest => inner.Reads (some kind.closing) ∧ rest.Reads next

/-- The word in progress behind a phrase. -/
def lastWord (word : Text) : Phrase → Text
  | nil => word
  | byte b rest => rest.lastWord (wordWith word b)
  | quoted _ _ rest => rest.lastWord []
  | group _ _ rest => rest.lastWord []

/-- Every parenthesis of a phrase, with the word before it, has a property. -/
def AllCalls (P : Text → Phrase → Prop) (word : Text) : Phrase → Prop
  | nil => True
  | byte b rest => rest.AllCalls P (wordWith word b)
  | quoted _ _ rest => rest.AllCalls P []
  | group kind inner rest =>
    (kind = .paren → P word inner) ∧ inner.AllCalls P [] ∧ rest.AllCalls P []

instance decidableReads (next : Option UInt8) : (p : Phrase) → Decidable (p.Reads next)
  | nil => .isTrue trivial
  | byte b rest =>
    have := decidableReads next rest
    inferInstanceAs (Decidable (Byte.isQuote b = false ∧ Byte.isBracket b = false ∧
      Mode.opensComment b (rest.text.head?.or next) = false ∧ rest.Reads next))
  | quoted q _ rest =>
    have := decidableReads next rest
    inferInstanceAs (Decidable (Byte.isQuote q = true ∧ rest.text.head?.or next ≠ some q ∧
      rest.Reads next))
  | group kind inner rest =>
    have := decidableReads (some kind.closing) inner
    have := decidableReads next rest
    inferInstanceAs (Decidable (inner.Reads (some kind.closing) ∧ rest.Reads next))

instance decidableAllCalls {P : Text → Phrase → Prop} [∀ word inner, Decidable (P word inner)]
    (word : Text) : (p : Phrase) → Decidable (p.AllCalls P word)
  | nil => .isTrue trivial
  | byte b rest => decidableAllCalls (wordWith word b) rest
  | quoted _ _ rest => decidableAllCalls [] rest
  | group kind inner rest =>
    have := decidableAllCalls (P := P) [] inner
    have := decidableAllCalls (P := P) [] rest
    inferInstanceAs (Decidable ((kind = .paren → P word inner) ∧ inner.AllCalls P [] ∧
      rest.AllCalls P []))

/-- How many commas stand outside all brackets. -/
def commas : Phrase → Nat
  | nil => 0
  | byte b rest => if b = Byte.comma then rest.commas + 1 else rest.commas
  | quoted _ _ rest => rest.commas
  | group _ _ rest => rest.commas

/-- Puts something in front of the first phrase of a list. -/
def onFirst (f : Phrase → Phrase) : List Phrase → List Phrase
  | [] => []
  | first :: others => f first :: others

/-- The stretches between the commas that stand outside all brackets. -/
def pieces : Phrase → List Phrase
  | nil => [nil]
  | byte b rest => if b = Byte.comma then nil :: rest.pieces else onFirst (byte b) rest.pieces
  | quoted q value rest => onFirst (quoted q value) rest.pieces
  | group kind inner rest => onFirst (group kind inner) rest.pieces

section Append

variable (first last : Phrase)

@[simp] theorem text_append : (first.append last).text = first.text ++ last.text := by
  induction first with
  | nil => rfl
  | byte b rest ih => simp [append, text, ih]
  | quoted q value rest ih => simp [append, text, ih]
  | group kind inner rest _ ih => simp [append, text, ih]

@[simp] theorem text_ofBytes (bytes : Text) : (ofBytes bytes).text = bytes := by
  induction bytes with
  | nil => rfl
  | cons b bytes ih => simp [ofBytes, text, ih]

theorem append_assoc (middle : Phrase) :
    (first.append middle).append last = first.append (middle.append last) := by
  induction first with
  | nil => rfl
  | byte b rest ih => simp [append, ih]
  | quoted q value rest ih => simp [append, ih]
  | group kind inner rest _ ih => simp [append, ih]

@[simp] theorem append_nil : first.append nil = first := by
  induction first with
  | nil => rfl
  | byte b rest ih => simp [append, ih]
  | quoted q value rest ih => simp [append, ih]
  | group kind inner rest _ ih => simp [append, ih]

theorem ofBytes_append (before behind : Text) :
    ofBytes (before ++ behind) = (ofBytes before).append (ofBytes behind) := by
  induction before with
  | nil => rfl
  | cons b before ih => simp [ofBytes, append, ih]

/-! What stands behind a phrase can be cut behind its first part. -/

theorem append_byte (b : UInt8) :
    first.append (byte b last) = (first.append (byte b nil)).append last := by
  rw [append_assoc]
  rfl

theorem append_quoted (q : UInt8) (value : Text) :
    first.append (quoted q value last) = (first.append (quoted q value nil)).append last := by
  rw [append_assoc]
  rfl

theorem append_group (kind : Bracket) (inner : Phrase) :
    first.append (group kind inner last) = (first.append (group kind inner nil)).append last := by
  rw [append_assoc]
  rfl

theorem ofBytes_append_byte (before : Text) (b : UInt8) :
    (ofBytes before).append (byte b last) = (ofBytes (before ++ [b])).append last := by
  rw [ofBytes_append, append_assoc]
  rfl

theorem reads_append (next : Option UInt8) :
    (first.append last).Reads next ↔ first.Reads (last.text.head?.or next) ∧ last.Reads next := by
  induction first with
  | nil => simp [append, Reads]
  | byte b rest ih => simp [append, Reads, ih, List.head?_append, Option.or_assoc, and_assoc]
  | quoted q value rest ih =>
    simp [append, Reads, ih, List.head?_append, Option.or_assoc, and_assoc]
  | group kind inner rest _ ih => simp [append, Reads, ih, and_assoc]

theorem lastWord_append (word : Text) :
    (first.append last).lastWord word = last.lastWord (first.lastWord word) := by
  induction first generalizing word with
  | nil => rfl
  | byte b rest ih => exact ih _
  | quoted q value rest ih => exact ih _
  | group kind inner rest _ ih => exact ih _

theorem allCalls_append (P : Text → Phrase → Prop) (word : Text) :
    (first.append last).AllCalls P word ↔
      first.AllCalls P word ∧ last.AllCalls P (first.lastWord word) := by
  induction first generalizing word with
  | nil => simp [append, AllCalls, lastWord]
  | byte b rest ih => exact ih _
  | quoted q value rest ih => exact ih _
  | group kind inner rest _ ih => simp [append, AllCalls, lastWord, ih, and_assoc]

@[simp] theorem commas_append : (first.append last).commas = first.commas + last.commas := by
  induction first with
  | nil => simp [append, commas]
  | byte b rest ih =>
    simp only [append, commas, ih]
    split <;> omega
  | quoted q value rest ih => simpa [append, commas] using ih
  | group kind inner rest _ ih => simpa [append, commas] using ih

end Append

theorem opensComment_of_isSafe {b : UInt8} (h : Byte.isSafe b = true) (next : Option UInt8) :
    Mode.opensComment b next = false := by
  simp only [Byte.isSafe, Bool.and_eq_true, bne_iff_ne] at h
  obtain ⟨⟨-, hhyphen⟩, hslash⟩ := h
  simp [Mode.opensComment, hhyphen, hslash]

theorem opensComment_of_isCalm {b : UInt8} {next : Option UInt8}
    (h : ∀ x ∈ next, Byte.isCalm x = true) : Mode.opensComment b next = false := by
  cases next with
  | none => simp [Mode.opensComment]
  | some x =>
    have hx := h x rfl
    simp only [Byte.isCalm, Bool.and_eq_true, bne_iff_ne] at hx
    obtain ⟨⟨-, hhyphen⟩, hstar⟩ := hx
    simp [Mode.opensComment, hhyphen, hstar]

/-- A calm byte behind a phrase changes nothing in how the phrase is read. -/
theorem Reads.of_isCalm {p : Phrase} {old new : Option UInt8} (h : p.Reads old)
    (hcalm : ∀ b ∈ new, Byte.isCalm b = true) : p.Reads new := by
  induction p with
  | nil => trivial
  | byte b rest ih =>
    obtain ⟨hquote, hbracket, hopens, hrest⟩ := h
    refine ⟨hquote, hbracket, ?_, ih hrest⟩
    cases hhead : rest.text.head? with
    | none => simpa using opensComment_of_isCalm hcalm
    | some x => simpa [hhead] using hopens
  | quoted q value rest ih =>
    obtain ⟨hquote, hnext, hrest⟩ := h
    refine ⟨hquote, ?_, ih hrest⟩
    cases hhead : rest.text.head? with
    | none =>
      rintro hq
      have hcalm := hcalm q (by simpa using hq)
      simp [Byte.isCalm, hquote] at hcalm
    | some x => simpa [hhead] using hnext
  | group kind inner rest _ ih => exact ⟨h.1, ih h.2⟩

theorem Reads.to_none {p : Phrase} {next : Option UInt8} (h : p.Reads next) : p.Reads none :=
  h.of_isCalm (by simp)

/-- A phrase that ends with a safe byte is read as it is built, whatever follows. -/
theorem Reads.of_isSafe {p : Phrase} {old : Option UInt8} (h : p.Reads old)
    (hlast : ∀ b ∈ p.text.getLast?, Byte.isSafe b = true) (next : Option UInt8) :
    p.Reads next := by
  have hrest {first : Text} {rest : Phrase}
      (hlast : ∀ b ∈ (first ++ rest.text).getLast?, Byte.isSafe b = true) :
      ∀ b ∈ rest.text.getLast?, Byte.isSafe b = true := by
    intro b hb
    refine hlast b ?_
    rw [List.getLast?_append, hb]
    rfl
  induction p with
  | nil => trivial
  | byte b rest ih =>
    obtain ⟨hquote, hbracket, hopens, hreads⟩ := h
    refine ⟨hquote, hbracket, ?_, ih hreads (@hrest [b] rest hlast)⟩
    cases htext : rest.text with
    | nil => exact opensComment_of_isSafe (hlast b (by simp [text, htext])) _
    | cons x behind => simpa [htext] using hopens
  | quoted q value rest ih =>
    obtain ⟨hquote, hnext, hreads⟩ := h
    refine ⟨hquote, ?_, ih hreads (hrest hlast)⟩
    cases htext : rest.text with
    | nil =>
      have hsafe := hlast q (by simp [text, htext, quoteRun, List.getLast?_cons])
      simp [Byte.isSafe, hquote] at hsafe
    | cons x behind => simpa [htext] using hnext
  | group kind inner rest _ ih =>
    refine ⟨h.1, ih h.2 (@hrest (kind.opening :: (inner.text ++ [kind.closing])) rest ?_)⟩
    simpa [text] using hlast

section AllCalls

variable {P Q : Text → Phrase → Prop}

theorem allCalls_of_forall (p : Phrase) (word : Text) (h : ∀ word inner, P word inner) :
    p.AllCalls P word := by
  induction p generalizing word with
  | nil => trivial
  | byte b rest ih => exact ih _
  | quoted q value rest ih => exact ih _
  | group kind inner rest ihinner ih => exact ⟨fun _ => h _ _, ihinner _, ih _⟩

theorem AllCalls.mono {p : Phrase} {word : Text} (h : p.AllCalls P word)
    (hsub : ∀ word inner, P word inner → Q word inner) : p.AllCalls Q word := by
  induction p generalizing word with
  | nil => trivial
  | byte b rest ih => exact ih h
  | quoted q value rest ih => exact ih h
  | group kind inner rest ihinner ih =>
    obtain ⟨hcall, hinner, hrest⟩ := h
    exact ⟨fun hkind => hsub _ _ (hcall hkind), ihinner hinner, ih hrest⟩

/-- What a parenthesis holds is a shorter phrase with the properties of the whole. -/
theorem AllCalls.within {p : Phrase} {next : Option UInt8} {word : Text} (hreads : p.Reads next)
    (h : p.AllCalls P word) :
    p.AllCalls (fun name inner => P name inner ∧ inner.Reads none ∧ inner.AllCalls P [] ∧
      inner.text.length < p.text.length) word := by
  induction p generalizing next word with
  | nil => trivial
  | byte b rest ih =>
    refine (ih hreads.2.2.2 h).mono fun name inner ⟨hname, hinner, hcalls, hlt⟩ => ?_
    exact ⟨hname, hinner, hcalls, by rw [text, List.length_cons]; omega⟩
  | quoted q value rest ih =>
    refine (ih hreads.2.2 h).mono fun name inner ⟨hname, hinner, hcalls, hlt⟩ => ?_
    exact ⟨hname, hinner, hcalls, by rw [text, List.length_append]; omega⟩
  | group kind inner rest ihinner ih =>
    obtain ⟨hcall, hinner, hrest⟩ := h
    have hlength : (group kind inner rest).text.length =
        inner.text.length + rest.text.length + 2 := by
      simp only [text, List.length_cons, List.length_append]
      omega
    refine ⟨fun hkind => ⟨hcall hkind, hreads.1.to_none, hinner, by omega⟩, ?_, ?_⟩
    · refine (ihinner hreads.1 hinner).mono fun name inner ⟨hname, hinner, hcalls, hlt⟩ => ?_
      exact ⟨hname, hinner, hcalls, by omega⟩
    · refine (ih hreads.2 hrest).mono fun name inner ⟨hname, hinner, hcalls, hlt⟩ => ?_
      exact ⟨hname, hinner, hcalls, by omega⟩

/-- The word before a phrase does not matter if the phrase does not go on with it, and a
parenthesis without a word before it is no call. -/
theorem AllCalls.of_head {p : Phrase} {word : Text} (h : p.AllCalls P word)
    (hhead : p.text.head?.any Byte.isIdent = false) (hnone : ∀ inner, P [] inner) :
    p.AllCalls P [] := by
  cases p with
  | nil => trivial
  | byte b rest =>
    have hident : Byte.isIdent b = false := by simpa [text] using hhead
    simpa [AllCalls, wordWith, hident] using h
  | quoted q value rest => exact h
  | group kind inner rest => exact ⟨fun _ => hnone inner, h.2⟩

/-- The word before a phrase does not matter if the phrase starts with a byte that neither goes on
with it nor makes a call with it. -/
theorem AllCalls.of_break {p : Phrase} {word : Text} (h : p.AllCalls P word)
    (hident : p.text.head?.any Byte.isIdent = false) (hparen : p.text.head? ≠ some Byte.openParen)
    (before : Text) : p.AllCalls P before := by
  cases p with
  | nil => trivial
  | byte b rest =>
    have hb : Byte.isIdent b = false := by simpa [text] using hident
    simpa [AllCalls, wordWith, hb] using h
  | quoted q value rest => exact h
  | group kind inner rest =>
    refine ⟨?_, h.2⟩
    rintro rfl
    exact absurd rfl hparen

/-- A word that starts no name keeps the phrase behind it from making a call with it. -/
theorem AllCalls.behind {p : Phrase} {before word : Text} (h : p.AllCalls P word)
    (hbefore : ∀ word inner, P (before ++ word) inner) : p.AllCalls P (before ++ word) := by
  induction p generalizing word with
  | nil => trivial
  | byte b rest ih =>
    unfold AllCalls at h ⊢
    unfold wordWith at h ⊢
    split
    next hident =>
      rw [if_pos hident] at h
      rw [List.append_assoc]
      exact ih h
    next hident => rwa [if_neg hident] at h
  | quoted q value rest ih => exact h
  | group kind inner rest _ ih => exact ⟨fun _ => hbefore word inner, h.2⟩

end AllCalls

section Word

variable {word : Text}

/-- Bytes that open and close nothing are read as they are built, whatever follows. -/
theorem reads_ofBytes_of_isPlain
    (h : ∀ b ∈ word, Byte.isPlain b = true ∧ Byte.isBracket b = false) (next : Option UInt8) :
    (ofBytes word).Reads next := by
  induction word with
  | nil => trivial
  | cons b word ih =>
    obtain ⟨⟨hplain, hbracket⟩, hword⟩ := List.forall_mem_cons.mp h
    exact ⟨(Byte.isPlain_iff.mp hplain).1, hbracket,
      opensComment_of_isSafe (Byte.isSafe_of_isPlain hplain) _, ih hword⟩

theorem reads_ofBytes (h : ∀ b ∈ word, Byte.isIdent b = true) (next : Option UInt8) :
    (ofBytes word).Reads next :=
  reads_ofBytes_of_isPlain
    (fun b hb => ⟨Byte.isPlain_of_isIdent (h b hb), Byte.isBracket_of_isIdent (h b hb)⟩) next

theorem allCalls_ofBytes (P : Text → Phrase → Prop) (bytes word : Text) :
    (ofBytes bytes).AllCalls P word := by
  induction bytes generalizing word with
  | nil => trivial
  | cons b bytes ih => exact ih _

theorem commas_ofBytes_of_notMem (h : Byte.comma ∉ word) : (ofBytes word).commas = 0 := by
  induction word with
  | nil => rfl
  | cons b word ih =>
    rw [List.mem_cons, not_or] at h
    rw [ofBytes, commas, if_neg (Ne.symm h.1), ih h.2]

theorem commas_ofBytes (h : ∀ b ∈ word, Byte.isIdent b = true) : (ofBytes word).commas = 0 :=
  commas_ofBytes_of_notMem fun hmem => absurd (h _ hmem) (by decide)

/-- A word goes on with the word in progress. -/
theorem lastWord_ofBytes_of_isIdent (h : ∀ b ∈ word, Byte.isIdent b = true) (before : Text) :
    (ofBytes word).lastWord before = before ++ word := by
  induction word generalizing before with
  | nil => simp [ofBytes, lastWord]
  | cons b word ih =>
    obtain ⟨hb, hword⟩ := List.forall_mem_cons.mp h
    rw [ofBytes, lastWord, ih hword, wordWith, if_pos hb, List.append_assoc, List.singleton_append]

end Word

section Pieces

theorem length_onFirst (f : Phrase → Phrase) (pieces : List Phrase) :
    (onFirst f pieces).length = pieces.length := by
  cases pieces <;> rfl

@[simp] theorem length_pieces (p : Phrase) : p.pieces.length = p.commas + 1 := by
  induction p with
  | nil => rfl
  | byte b rest ih =>
    rw [pieces, commas]
    split
    · rw [List.length_cons, ih]
    · rw [length_onFirst, ih]
  | quoted q value rest ih => rw [pieces, length_onFirst, ih, commas]
  | group kind inner rest _ ih => rw [pieces, length_onFirst, ih, commas]

/-- A comma behind a phrase without one cuts the phrase off as the first piece. -/
theorem pieces_append_comma {first : Phrase} (h : first.commas = 0) (rest : Phrase) :
    (first.append (byte Byte.comma rest)).pieces = first :: rest.pieces := by
  induction first with
  | nil => simp [append, pieces]
  | byte b first ih =>
    by_cases hcomma : b = Byte.comma
    · rw [commas, if_pos hcomma] at h
      omega
    · rw [commas, if_neg hcomma] at h
      rw [append, pieces, if_neg hcomma, ih h, onFirst]
  | quoted q value first ih => rw [append, pieces, ih h, onFirst]
  | group kind inner first _ ih => rw [append, pieces, ih h, onFirst]

/-- The first comma outside all brackets cuts off the first piece. -/
theorem exists_first_piece {p : Phrase} (h : p.commas ≠ 0) :
    ∃ first rest : Phrase, p = first.append (byte Byte.comma rest) ∧ first.commas = 0 := by
  induction p with
  | nil => exact absurd rfl h
  | byte b rest ih =>
    by_cases hcomma : b = Byte.comma
    · subst hcomma
      exact ⟨nil, rest, rfl, rfl⟩
    · rw [commas, if_neg hcomma] at h
      obtain ⟨first, last, rfl, hfirst⟩ := ih h
      exact ⟨byte b first, last, rfl, by rwa [commas, if_neg hcomma]⟩
  | quoted q value rest ih =>
    obtain ⟨first, last, rfl, hfirst⟩ := ih h
    exact ⟨quoted q value first, last, rfl, hfirst⟩
  | group kind inner rest _ ih =>
    obtain ⟨first, last, rfl, hfirst⟩ := ih h
    exact ⟨group kind inner first, last, rfl, hfirst⟩

theorem pieces_of_commas {p : Phrase} (h : p.commas = 0) : p.pieces = [p] := by
  induction p with
  | nil => rfl
  | byte b rest ih =>
    by_cases hcomma : b = Byte.comma
    · rw [commas, if_pos hcomma] at h
      omega
    · rw [commas, if_neg hcomma] at h
      rw [pieces, if_neg hcomma, ih h, onFirst]
  | quoted q value rest ih => rw [pieces, ih h, onFirst]
  | group kind inner rest _ ih => rw [pieces, ih h, onFirst]

/-- A phrase is one piece, or a first piece with a comma and a phrase of fewer pieces behind it. -/
theorem piecesInduction {motive : Phrase → Prop}
    (last : ∀ p : Phrase, p.commas = 0 → p.pieces = [p] → motive p)
    (more : ∀ first rest : Phrase, first.commas = 0 →
      (first.append (byte Byte.comma rest)).pieces = first :: rest.pieces → motive rest →
        motive (first.append (byte Byte.comma rest))) (p : Phrase) : motive p := by
  induction hcommas : p.commas using Nat.strongRecOn generalizing p with
  | ind n ih =>
    by_cases hzero : p.commas = 0
    · exact last p hzero (pieces_of_commas hzero)
    · obtain ⟨first, rest, rfl, hfirst⟩ := exists_first_piece hzero
      refine more first rest hfirst (pieces_append_comma hfirst rest) (ih rest.commas ?_ rest rfl)
      rw [← hcommas, commas_append, commas, if_pos rfl]
      omega

/-- A phrase that can stand by itself: it is read as it is built, and all its calls have a
property. -/
structure Fits (P : Text → Phrase → Prop) (p : Phrase) : Prop where
  reads : p.Reads none
  calls : p.AllCalls P []

/-- The pieces of a phrase stand by themselves. -/
theorem fits_of_mem_pieces {P : Text → Phrase → Prop} {p piece : Phrase} {next : Option UInt8}
    (hreads : p.Reads next) (hcalls : p.AllCalls P []) (h : piece ∈ p.pieces) : piece.Fits P := by
  induction p using piecesInduction with
  | last p hcommas hpieces =>
    rw [hpieces] at h
    obtain rfl := List.mem_singleton.mp h
    exact ⟨hreads.to_none, hcalls⟩
  | more first rest hcommas hpieces ih =>
    rw [reads_append] at hreads
    rw [allCalls_append] at hcalls
    rw [hpieces] at h
    rcases List.mem_cons.mp h with rfl | h
    · exact ⟨hreads.1.to_none, hcalls.1⟩
    · exact ih hreads.2.2.2.2 hcalls.2 h

end Pieces

section Cut

/-- Bytes that neither open nor close anything are bytes of the phrase that starts with them. -/
theorem exists_behind {p : Phrase} {next : Option UInt8} {before behind : Text}
    (hreads : p.Reads next) (htext : p.text = before ++ behind)
    (hbefore : ∀ b ∈ before, Byte.isQuote b = false ∧ Byte.isBracket b = false) :
    ∃ last, p = (ofBytes before).append last ∧ last.text = behind := by
  induction before generalizing p with
  | nil => exact ⟨p, rfl, htext⟩
  | cons b before ih =>
    obtain ⟨⟨hquote, hbracket⟩, hlater⟩ := List.forall_mem_cons.mp hbefore
    cases p with
    | nil => simp [text] at htext
    | byte x rest =>
      rw [text, List.cons_append] at htext
      obtain ⟨rfl, hrest⟩ := List.cons.inj htext
      obtain ⟨last, rfl, hlast⟩ := ih hreads.2.2.2 hrest hlater
      exact ⟨last, rfl, hlast⟩
    | quoted q value rest =>
      rw [text, quoteRun, List.cons_append, List.cons_append] at htext
      obtain ⟨rfl, -⟩ := List.cons.inj htext
      rw [hreads.1] at hquote
      simp at hquote
    | group kind inner rest =>
      rw [text, List.cons_append] at htext
      obtain ⟨rfl, -⟩ := List.cons.inj htext
      cases kind <;> exact absurd hbracket (by decide)

theorem eq_nil_of_text {p : Phrase} (h : p.text = []) : p = nil := by
  cases p with
  | nil => rfl
  | byte b rest => simp [text] at h
  | quoted q value rest => simp [text, quoteRun] at h
  | group kind inner rest => simp [text] at h

/-- A byte that is not among those at the end of a text stands before all of them. -/
theorem exists_of_append_eq {run rest before behind : Text} {b : UInt8} (hb : b ∉ behind)
    (h : run ++ [b] ++ rest = before ++ behind) :
    ∃ middle, before = run ++ [b] ++ middle ∧ rest = middle ++ behind := by
  rcases List.append_eq_append_iff.mp h with ⟨middle, hbefore, hrest⟩ | ⟨middle, hrun, hbehind⟩
  · exact ⟨middle, hbefore, hrest⟩
  · cases middle with
    | nil => exact ⟨[], by simpa using hrun.symm, by simpa using hbehind.symm⟩
    | cons x middle =>
      have hlast : b ∈ x :: middle := by
        have := congrArg List.getLast? hrun
        rw [List.getLast?_concat, List.getLast?_append_of_ne_nil _ (by simp)] at this
        exact List.mem_of_getLast? this.symm
      exact absurd (hbehind ▸ List.mem_append_left _ hlast) hb

/-- Bytes that neither open nor close anything are bytes of the phrase that ends with them. -/
theorem exists_before {p : Phrase} {next : Option UInt8} {before behind : Text}
    (hreads : p.Reads next) (htext : p.text = before ++ behind)
    (hbehind : ∀ b ∈ behind, Byte.isQuote b = false ∧ Byte.isBracket b = false) :
    ∃ first : Phrase, p = first.append (ofBytes behind) ∧ first.text = before := by
  induction p generalizing before with
  | nil =>
    rw [text] at htext
    obtain ⟨rfl, rfl⟩ := List.nil_eq_append_iff.mp htext
    exact ⟨nil, rfl, rfl⟩
  | byte b rest ih =>
    cases before with
    | nil =>
      obtain ⟨last, hlast, hnone⟩ :=
        exists_behind hreads (by rw [htext, List.nil_append, List.append_nil]) hbehind
      obtain rfl := eq_nil_of_text hnone
      refine ⟨nil, ?_, rfl⟩
      rw [hlast, append_nil]
      rfl
    | cons x before =>
      rw [text, List.cons_append] at htext
      obtain ⟨rfl, hrest⟩ := List.cons.inj htext
      obtain ⟨first, rfl, hfirst⟩ := ih hreads.2.2.2 hrest
      exact ⟨byte b first, rfl, by rw [text, hfirst]⟩
  | quoted q value rest ih =>
    have hq : q ∉ behind := fun hmem => by
      have := (hbehind q hmem).1
      rw [hreads.1] at this
      simp at this
    rw [text, quoteRun, ← List.cons_append] at htext
    obtain ⟨middle, rfl, hrest⟩ := exists_of_append_eq hq htext
    obtain ⟨first, rfl, hfirst⟩ := ih hreads.2.2 hrest
    exact ⟨quoted q value first, rfl, by simp [text, quoteRun, hfirst]⟩
  | group kind inner rest _ ih =>
    have hclosing : kind.closing ∉ behind := fun hmem => by
      have := (hbehind _ hmem).2
      cases kind <;> exact absurd this (by decide)
    rw [text, List.append_cons, ← List.cons_append, ← List.cons_append] at htext
    obtain ⟨middle, rfl, hrest⟩ := exists_of_append_eq hclosing htext
    obtain ⟨first, rfl, hfirst⟩ := ih hreads.2 hrest
    exact ⟨group kind inner first, rfl, by simp [text, hfirst]⟩

theorem lastWord_ofBytes {bytes word : Text} (hne : bytes ≠ [])
    (hlast : bytes.getLast?.any Byte.isIdent = false) : (ofBytes bytes).lastWord word = [] := by
  rcases eq_nil_or_snoc bytes with rfl | ⟨init, b, rfl⟩
  · exact absurd rfl hne
  · have hident : Byte.isIdent b = false := by simpa using hlast
    simp [ofBytes_append, lastWord_append, ofBytes, lastWord, wordWith, hident]

end Cut

section Fits

variable {P : Text → Phrase → Prop} {p : Phrase}

/-- Bytes of code cut off the front leave a phrase, unless they are part of a name. -/
theorem Fits.drop (h : p.Fits P) {before behind : Text} (htext : p.text = before ++ behind)
    (hbefore : ∀ b ∈ before, Byte.isQuote b = false ∧ Byte.isBracket b = false)
    (hword : (ofBytes before).lastWord [] = [] ∨
      behind.head?.any Byte.isIdent = false ∧ ∀ inner, P [] inner) :
    ∃ q : Phrase, q.text = behind ∧ q.Fits P := by
  obtain ⟨hreads, hcalls⟩ := h
  obtain ⟨q, rfl, hq⟩ := exists_behind hreads htext hbefore
  rw [reads_append] at hreads
  rw [allCalls_append] at hcalls
  refine ⟨q, hq, hreads.2, ?_⟩
  rcases hword with hnone | ⟨hhead, hnone⟩
  · rw [← hnone]
    exact hcalls.2
  · exact hcalls.2.of_head (hq ▸ hhead) hnone

theorem isCode_of_isFiller {b : UInt8} (h : Byte.isFiller b = true) :
    Byte.isQuote b = false ∧ Byte.isBracket b = false :=
  ⟨(Byte.isPlain_iff.mp (Byte.isPlain_of_isFiller h)).1, Byte.isBracket_of_isFiller h⟩

/-- Trimming the start of a phrase leaves one. -/
theorem Fits.trimStart (h : p.Fits P) : ∃ q : Phrase, q.text = Text.trimStart p.text ∧ q.Fits P := by
  obtain ⟨cut, hcut, hfiller, hlast⟩ := exists_trimStart_filler p.text
  refine h.drop hcut (fun b hb => isCode_of_isFiller (hfiller b hb)) (Or.inl ?_)
  by_cases hne : cut = []
  · rw [hne]
    rfl
  · exact lastWord_ofBytes hne hlast

/-- Trimming the end of a phrase leaves one. -/
theorem Fits.trimEnd (h : p.Fits P) : ∃ q : Phrase, q.text = Text.trimEnd p.text ∧ q.Fits P := by
  obtain ⟨hreads, hcalls⟩ := h
  obtain ⟨cut, hcut, hfiller⟩ := exists_trimEnd_filler p.text
  obtain ⟨q, rfl, hq⟩ :=
    exists_before hreads hcut fun b hb => isCode_of_isFiller (hfiller b hb)
  exact ⟨q, hq, ((reads_append _ _ _).mp hreads).1.to_none, ((allCalls_append _ _ _ _).mp hcalls).1⟩

/-- Trimming a phrase leaves one. -/
theorem Fits.trim (h : p.Fits P) : ∃ q : Phrase, q.text = Text.trim p.text ∧ q.Fits P := by
  obtain ⟨middle, hmiddle, hfits⟩ := h.trimStart
  obtain ⟨q, hq, hq'⟩ := hfits.trimEnd
  exact ⟨q, by rw [hq, hmiddle, Text.trim], hq'⟩

end Fits

/-- A phrase that can take the place of a call: whatever stands around it, it is read by itself, and
the word it ends with makes no call with what follows. -/
structure Stands (P : Text → Phrase → Prop) (p : Phrase) : Prop extends Fits P p where
  calm : ∃ b, p.text.head? = some b ∧ Byte.isCalm b = true
  safe : ∃ b, p.text.getLast? = some b ∧ Byte.isSafe b = true
  behind : p.lastWord [] = [] ∨ ∀ word inner, P (p.lastWord [] ++ word) inner

end Phrase

end QueryBridge
