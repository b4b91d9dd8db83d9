import QueryBridge.Proofs.Phrase.Basic

/-!
# Phrases with holes

A template is a phrase with holes in the places of the arguments. No call is made at the seam of a
hole if the bytes around it break words, and no comment is opened there; so what is put in the holes
of a template only has to stand by itself. Whether a template is such a phrase is read off its text.
-/

namespace QueryBridge

open Text

namespace Byte

/-- The bytes that stand for the holes of a phrase. No template holds one. -/
def isHole (b : UInt8) : Bool := 128 ≤ b

/-- The bytes that can stand behind a hole: they neither close something nor go on with a word, and
they make no call. -/
def isBreak (b : UInt8) : Bool := isCalm b && !isIdent b && b != openParen && !isHole b

/-- The bytes that can stand before a hole: they neither open something nor go on as a word. -/
def isEdge (b : UInt8) : Bool := isSafe b && !isIdent b

theorem isHole_of_isQuote {b : UInt8} (h : isQuote b = true) : isHole b = false := by
  simp only [isQuote, Bool.or_eq_true, beq_iff_eq] at h
  rcases h with (rfl | rfl) | rfl <;> decide

end Byte

namespace Text

/-- Puts texts in the holes. -/
def fillHoles (fillers : UInt8 → Text) (text : Text) : Text :=
  text.flatMap fun b => if Byte.isHole b then fillers b else [b]

@[simp] theorem fillHoles_append (fillers : UInt8 → Text) (first last : Text) :
    fillHoles fillers (first ++ last) = fillHoles fillers first ++ fillHoles fillers last :=
  List.flatMap_append

@[simp] theorem fillHoles_cons (fillers : UInt8 → Text) (b : UInt8) (text : Text) :
    fillHoles fillers (b :: text) =
      (if Byte.isHole b then fillers b else [b]) ++ fillHoles fillers text :=
  List.flatMap_cons

/-- A text without holes stays as it is. -/
theorem fillHoles_of_any {fillers : UInt8 → Text} {text : Text}
    (h : text.any Byte.isHole = false) : fillHoles fillers text = text := by
  induction text with
  | nil => rfl
  | cons b text ih =>
    simp only [List.any_cons, Bool.or_eq_false_iff] at h
    simp [h.1, ih h.2]

theorem any_isHole_quoteRun {q : UInt8} (hq : Byte.isQuote q = true) {value : Text}
    (h : value.any Byte.isHole = false) : (quoteRun q value).any Byte.isHole = false := by
  have hhole := Byte.isHole_of_isQuote hq
  have hbody : (replaceByte q [q, q] value).any Byte.isHole = false := by
    induction value with
    | nil => rfl
    | cons b value ih =>
      simp only [List.any_cons, Bool.or_eq_false_iff] at h
      rw [replaceByte_cons, List.any_append, ih h.2]
      split <;> simp [hhole, h.1]
  simp [quoteRun, hhole, hbody]

end Text

namespace Phrase

/-- Puts phrases in the holes. -/
def plug (fillers : UInt8 → Phrase) : Phrase → Phrase
  | nil => nil
  | byte b rest =>
    (if Byte.isHole b then fillers b else byte b nil).append (rest.plug fillers)
  | quoted q value rest => quoted q value (rest.plug fillers)
  | group kind inner rest => group kind (inner.plug fillers) (rest.plug fillers)

/-- Around every hole of a phrase, words break. -/
def Hosts (next : Option UInt8) : Phrase → Prop
  | nil => True
  | byte b rest =>
    (if Byte.isHole b = true then (rest.text.head?.or next).all Byte.isBreak = true
      else rest.text.head?.any Byte.isHole = true → Byte.isEdge b = true) ∧ rest.Hosts next
  | quoted _ value rest =>
    value.any Byte.isHole = false ∧ rest.text.head?.any Byte.isHole = false ∧ rest.Hosts next
  | group kind inner rest => inner.Hosts (some kind.closing) ∧ rest.Hosts next

instance decidableHosts (next : Option UInt8) : (p : Phrase) → Decidable (p.Hosts next)
  | nil => .isTrue trivial
  | byte b rest =>
    have := decidableHosts next rest
    inferInstanceAs (Decidable ((if Byte.isHole b = true then
      (rest.text.head?.or next).all Byte.isBreak = true
      else rest.text.head?.any Byte.isHole = true → Byte.isEdge b = true) ∧ rest.Hosts next))
  | quoted _ value rest =>
    have := decidableHosts next rest
    inferInstanceAs (Decidable (value.any Byte.isHole = false ∧
      rest.text.head?.any Byte.isHole = false ∧ rest.Hosts next))
  | group kind inner rest =>
    have := decidableHosts (some kind.closing) inner
    have := decidableHosts next rest
    inferInstanceAs (Decidable (inner.Hosts (some kind.closing) ∧ rest.Hosts next))

section Plug

variable {fillers : UInt8 → Phrase} {p : Phrase} {next : Option UInt8}

theorem isHole_opening (kind : Bracket) : Byte.isHole kind.opening = false := by
  cases kind <;> decide

theorem isHole_closing (kind : Bracket) : Byte.isHole kind.closing = false := by
  cases kind <;> decide

/-- A phrase that does not start with a hole starts as it did. -/
theorem head?_plug (h : p.text.head?.any Byte.isHole = false) :
    (p.plug fillers).text.head? = p.text.head? := by
  cases p with
  | nil => rfl
  | byte b rest =>
    have hb : Byte.isHole b = false := by simpa [text] using h
    simp [plug, text, hb]
  | quoted q value rest => simp [plug, text, quoteRun]
  | group kind inner rest => simp [plug, text]

/-- The text of a phrase with its holes filled. -/
theorem text_plug (hreads : p.Reads next) (hosts : p.Hosts next) :
    (p.plug fillers).text = fillHoles (fun b => (fillers b).text) p.text := by
  induction p generalizing next with
  | nil => rfl
  | byte b rest ih =>
    rw [plug, text_append, ih hreads.2.2.2 hosts.2, text, fillHoles_cons]
    split <;> rfl
  | quoted q value rest ih =>
    rw [plug, text, ih hreads.2.2 hosts.2.2, text, fillHoles_append,
      fillHoles_of_any (any_isHole_quoteRun hreads.1 hosts.1)]
  | group kind inner rest ihinner ih =>
    simp [plug, text, ihinner hreads.1 hosts.1, ih hreads.2 hosts.2, isHole_opening, isHole_closing]

/-- A byte that can stand behind a hole. -/
theorem spec_of_isBreak {b : UInt8} (h : Byte.isBreak b = true) :
    Byte.isCalm b = true ∧ Byte.isIdent b = false ∧ b ≠ Byte.openParen ∧
      Byte.isHole b = false := by
  simpa [Byte.isBreak, and_assoc] using h

/-- What follows a hole does not start with one. -/
theorem head?_of_isBreak (h : (p.text.head?.or next).all Byte.isBreak = true) :
    p.text.head?.any Byte.isHole = false ∧ p.text.head?.any Byte.isIdent = false ∧
      p.text.head? ≠ some Byte.openParen := by
  cases hhead : p.text.head? with
  | none => simp
  | some x =>
    obtain ⟨-, hident, hparen, hhole⟩ := spec_of_isBreak (by simpa [hhead] using h)
    simp [hident, hparen, hhole]

/-- What is put in the holes neither opens nor closes anything at their seams. -/
theorem reads_plug (hreads : p.Reads next) (hosts : p.Hosts next)
    (hfillers : ∀ b, Byte.isHole b = true → (fillers b).Reads none) :
    (p.plug fillers).Reads next := by
  induction p generalizing next with
  | nil => trivial
  | byte b rest ih =>
    obtain ⟨hquote, hbracket, hopens, hrest⟩ := hreads
    obtain ⟨hseam, hosts⟩ := hosts
    rw [plug]
    refine (reads_append _ _ _).mpr ⟨?_, ih hrest hosts⟩
    split
    next hhole =>
      rw [if_pos hhole] at hseam
      refine (hfillers b hhole).of_isCalm fun x hx => ?_
      rw [head?_plug (head?_of_isBreak hseam).1] at hx
      exact (spec_of_isBreak (by rw [hx] at hseam; simpa using hseam)).1
    next hhole =>
      rw [if_neg hhole] at hseam
      refine ⟨hquote, hbracket, ?_, trivial⟩
      by_cases hhead : rest.text.head?.any Byte.isHole = true
      · have hedge := hseam hhead
        simp only [Byte.isEdge, Bool.and_eq_true] at hedge
        exact opensComment_of_isSafe hedge.1 _
      · rw [head?_plug (by simpa using hhead)]
        simpa [text] using hopens
  | quoted q value rest ih =>
    obtain ⟨hquote, hnext, hrest⟩ := hreads
    obtain ⟨-, hhead, hosts⟩ := hosts
    exact ⟨hquote, by rwa [head?_plug hhead], ih hrest hosts⟩
  | group kind inner rest ihinner ih =>
    exact ⟨ihinner hreads.1 hosts.1, ih hreads.2 hosts.2⟩

/-- What is put in the holes makes no call at their seams. -/
theorem allCalls_plug {P Q : Text → Phrase → Prop} {word : Text} (hosts : p.Hosts next)
    (hcalls : p.AllCalls P word) (hword : p.text.head?.any Byte.isHole = true → word = [])
    (hfillers : ∀ b, Byte.isHole b = true → (fillers b).AllCalls Q [])
    (hkeep : ∀ name inner inner', P name inner → Q name inner') :
    (p.plug fillers).AllCalls Q word := by
  induction p generalizing next word with
  | nil => trivial
  | byte b rest ih =>
    obtain ⟨hseam, hosts⟩ := hosts
    rw [AllCalls, wordWith] at hcalls
    rw [plug]
    refine (allCalls_append _ _ _ _).mpr ⟨?_, ?_⟩
    · split
      next hhole =>
        rw [hword (by simpa [text] using hhole)]
        exact hfillers b hhole
      · trivial
    · split
      next hhole =>
        rw [if_pos hhole] at hseam
        obtain ⟨hplain, hident, hparen⟩ := head?_of_isBreak hseam
        exact ih hosts (hcalls.of_break hident hparen _) (by simp [hplain])
      next hhole =>
        rw [if_neg hhole] at hseam
        refine ih hosts hcalls fun hhead => ?_
        have hedge := hseam hhead
        simp only [Byte.isEdge, Bool.and_eq_true, Bool.not_eq_true'] at hedge
        exact if_neg (by simp [hedge.2])
  | quoted q value rest ih =>
    obtain ⟨-, -, hosts⟩ := hosts
    exact ih hosts hcalls fun _ => rfl
  | group kind inner rest ihinner ih =>
    obtain ⟨hcall, hinner, hrest⟩ := hcalls
    exact ⟨fun hkind => hkeep _ _ _ (hcall hkind), ihinner hosts.1 hinner fun _ => rfl,
      ih hosts.2 hrest fun _ => rfl⟩

end Plug

end Phrase

end QueryBridge
