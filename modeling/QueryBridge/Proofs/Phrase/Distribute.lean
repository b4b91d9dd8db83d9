import QueryBridge.Proofs.Phrase.Rewrite
import QueryBridge.Proofs.Phrase.Template

/-!
# A rewrite and the parts of a phrase

Where words break, a rewrite of a phrase is one of each part: of phrases next to each other, of what
was put in the holes of another phrase that makes no call itself, and of the pieces between commas.
-/

namespace QueryBridge

open Text

namespace Phrase

/-- Behind every parenthesis of a phrase stands no byte of a class. -/
def Parted (f : UInt8 → Bool) : Phrase → Prop
  | nil => True
  | byte _ rest => rest.Parted f
  | quoted _ _ rest => rest.Parted f
  | group kind inner rest =>
    (kind = .paren → rest.text.head?.any f = false) ∧ inner.Parted f ∧ rest.Parted f

instance decidableParted (f : UInt8 → Bool) : (p : Phrase) → Decidable (p.Parted f)
  | nil => .isTrue trivial
  | byte _ rest => decidableParted f rest
  | quoted _ _ rest => decidableParted f rest
  | group kind inner rest =>
    have := decidableParted f inner
    have := decidableParted f rest
    inferInstanceAs (Decidable ((kind = .paren → rest.text.head?.any f = false) ∧
      inner.Parted f ∧ rest.Parted f))

/-- Every byte of a phrase outside all brackets and quoted runs is of a class. -/
def allBytes (f : UInt8 → Bool) : Phrase → Bool
  | nil => true
  | byte b rest => f b && rest.allBytes f
  | quoted _ _ rest => rest.allBytes f
  | group _ _ rest => rest.allBytes f

section Parted

variable {f : UInt8 → Bool}

theorem Parted.of_append {first last : Phrase} (h : (first.append last).Parted f) :
    first.Parted f ∧ last.Parted f := by
  induction first with
  | nil => exact ⟨trivial, h⟩
  | byte b rest ih => exact ih h
  | quoted q value rest ih => exact ih h
  | group kind inner rest _ ih =>
    obtain ⟨hhead, hinner, hrest⟩ := h
    obtain ⟨hrest, hlast⟩ := ih hrest
    refine ⟨⟨fun hkind => ?_, hinner, hrest⟩, hlast⟩
    have := hhead hkind
    rw [text_append, List.head?_append] at this
    cases hfirst : rest.text.head? with
    | none => rfl
    | some b => simpa [hfirst] using this

theorem Parted.append {first last : Phrase} (hfirst : first.Parted f) (hlast : last.Parted f)
    (hhead : last.text.head?.any f = false) : (first.append last).Parted f := by
  induction first with
  | nil => exact hlast
  | byte b rest ih => exact ih hfirst
  | quoted q value rest ih => exact ih hfirst
  | group kind inner rest _ ih =>
    obtain ⟨hkind, hinner, hrest⟩ := hfirst
    refine ⟨fun hparen => ?_, hinner, ih hrest⟩
    have := hkind hparen
    rw [text_append, List.head?_append]
    cases hfirst : rest.text.head? with
    | none => simpa [hfirst] using hhead
    | some b => simpa [hfirst] using this

theorem parted_ofBytes_append (bytes : Text) (p : Phrase) :
    ((ofBytes bytes).append p).Parted f ↔ p.Parted f := by
  induction bytes with
  | nil => rfl
  | cons b bytes ih => exact ih

end Parted

section Plug

variable {fillers : UInt8 → Phrase} {p : Phrase} {next : Option UInt8}

/-- What is put in the holes does not go on with a parenthesis. -/
theorem parted_plug (hosts : p.Hosts next)
    (hparted : p.Parted fun b => Byte.isIdent b || Byte.isHole b)
    (hfillers : ∀ b, Byte.isHole b = true → (fillers b).Parted Byte.isIdent) :
    (p.plug fillers).Parted Byte.isIdent := by
  induction p generalizing next with
  | nil => trivial
  | byte b rest ih =>
    obtain ⟨hseam, hosts⟩ := hosts
    have hrest := ih hosts hparted
    rw [plug]
    split
    next hhole =>
      rw [if_pos hhole] at hseam
      obtain ⟨hplain, hident, -⟩ := head?_of_isBreak hseam
      exact (hfillers b hhole).append hrest (by rwa [head?_plug hplain])
    next => exact hrest
  | quoted q value rest ih => exact ih hosts.2.2 hparted
  | group kind inner rest ihinner ih =>
    obtain ⟨hhead, hinner, hrest⟩ := hparted
    refine ⟨fun hkind => ?_, ihinner hosts.1 hinner, ih hosts.2 hrest⟩
    have hhead := hhead hkind
    rw [head?_plug]
    · cases hfirst : rest.text.head? with
      | none => rfl
      | some b =>
        simp only [hfirst, Option.any_some, Bool.or_eq_false_iff] at hhead
        exact hhead.1
    · cases hfirst : rest.text.head? with
      | none => rfl
      | some b =>
        simp only [hfirst, Option.any_some, Bool.or_eq_false_iff] at hhead
        exact hhead.2

/-- Holes without commas in what is put in them bring none. -/
theorem commas_plug (h : p.allBytes (fun b => b != Byte.comma &&
      (!Byte.isHole b || (fillers b).commas == 0)) = true) :
    (p.plug fillers).commas = 0 := by
  induction p with
  | nil => rfl
  | byte b rest ih =>
    simp only [allBytes, Bool.and_eq_true, bne_iff_ne, Bool.or_eq_true, Bool.not_eq_true',
      beq_iff_eq] at h
    obtain ⟨⟨hcomma, hfiller⟩, hrest⟩ := h
    rw [plug, commas_append, ih (by simpa using hrest)]
    split
    next hhole => simpa [hhole] using hfiller
    next => simp [commas, hcomma]
  | quoted q value rest ih => exact ih h
  | group kind inner rest _ ih => exact ih h

end Plug

section Rewrite

variable {callee : Callee} {replace : Phrase → Phrase} {word : Text}

/-- Identifier bytes at the start of a phrase go on with the word before it. -/
theorem rewrite_ofBytes_append {bytes : Text} (h : ∀ b ∈ bytes, Byte.isIdent b = true)
    (p : Phrase) : ((ofBytes bytes).append p).rewrite callee replace word =
      p.rewrite callee replace (word ++ bytes) := by
  induction bytes generalizing word with
  | nil => simp [ofBytes, append]
  | cons b bytes ih =>
    obtain ⟨hb, hbytes⟩ := List.forall_mem_cons.mp h
    rw [ofBytes, append, rewrite, if_pos hb, ih hbytes, List.append_assoc, List.singleton_append]

/-- A phrase that neither goes on with the word before it nor makes a call with it is rewritten by
itself. -/
theorem rewrite_of_break {p : Phrase} (hident : p.text.head?.any Byte.isIdent = false)
    (hcall : callee.names word = false ∨ p.text.head? ≠ some Byte.openParen) :
    p.rewrite callee replace word = (ofBytes word).append (p.rewrite callee replace []) := by
  cases p with
  | nil => simp [rewrite, ofBytes]
  | byte b rest =>
    have hb : Byte.isIdent b = false := by simpa [text] using hident
    simp [rewrite, hb, ofBytes, append]
  | quoted q value rest => simp [rewrite, ofBytes, append]
  | group kind inner rest =>
    have hmiss : ¬(kind = .paren ∧ callee.names word = true) := by
      rintro ⟨rfl, hnames⟩
      rcases hcall with hcall | hcall
      · simp [hnames] at hcall
      · exact hcall rfl
    rw [rewrite, if_neg hmiss, rewrite, if_neg (by simp [Callee.names_nil])]
    simp [ofBytes, append]

/-- Phrases next to each other are rewritten each by itself, if the last one is rewritten by itself
behind the word that the first one ends with. -/
theorem rewrite_append_of_eq {first last : Phrase}
    (h : last.rewrite callee replace (first.lastWord word) =
      (ofBytes (first.lastWord word)).append (last.rewrite callee replace [])) :
    (first.append last).rewrite callee replace word =
      (first.rewrite callee replace word).append (last.rewrite callee replace []) := by
  induction first generalizing word with
  | nil => exact h
  | byte b rest ih =>
    rw [lastWord, wordWith] at h
    rw [append, rewrite, rewrite]
    split
    next hb => exact ih (by rwa [if_pos hb] at h)
    next hb =>
      rw [if_neg hb] at h
      rw [ih h, append_assoc, append]
  | quoted q value rest ih => rw [append, rewrite, rewrite, ih h, append_assoc, append]
  | group kind inner rest _ ih =>
    rw [append, rewrite, rewrite, ih h]
    split
    · rw [append_assoc]
    · rw [append_assoc, append]

/-- Where words break between two phrases, each of them is rewritten by itself. -/
theorem rewrite_append {first last : Phrase} (hident : last.text.head?.any Byte.isIdent = false)
    (hcall : callee.names (first.lastWord word) = false ∨
      last.text.head? ≠ some Byte.openParen) :
    (first.append last).rewrite callee replace word =
      (first.rewrite callee replace word).append (last.rewrite callee replace []) :=
  rewrite_append_of_eq (rewrite_of_break hident hcall)

/-- Behind a phrase that leaves no word in progress, another one is rewritten by itself. -/
theorem rewrite_append_of_lastWord {first : Phrase} (h : first.lastWord word = [])
    (last : Phrase) : (first.append last).rewrite callee replace word =
      (first.rewrite callee replace word).append (last.rewrite callee replace []) :=
  rewrite_append_of_eq (by rw [h]; rfl)

/-- A phrase without a call is not changed. -/
theorem text_rewrite_of_allCalls {p : Phrase}
    (h : p.AllCalls (fun name _ => callee.names name = false) word) :
    (p.rewrite callee replace word).text = word ++ p.text := by
  induction p generalizing word with
  | nil => simp [rewrite, text]
  | byte b rest ih =>
    rw [AllCalls, wordWith] at h
    rw [rewrite]
    split
    next hb =>
      rw [if_pos hb] at h
      simp [ih h, text]
    next hb =>
      rw [if_neg hb] at h
      simp [ih h, text]
  | quoted q value rest ih => simp [rewrite, text, ih h]
  | group kind inner rest ihinner ih =>
    obtain ⟨hcall, hinner, hrest⟩ := h
    have hmiss : ¬(kind = .paren ∧ callee.names word = true) := by
      rintro ⟨rfl, hnames⟩
      simp [hnames] at hcall
    rw [rewrite, if_neg hmiss]
    simp [text, ihinner hinner, ih hrest]

/-- A rewrite of a phrase with filled holes is one of what was put in them, if the phrase itself
makes no call. -/
theorem rewrite_plug {fillers : UInt8 → Phrase} {p : Phrase} {next : Option UInt8}
    (hosts : p.Hosts next) (h : p.AllCalls (fun name _ => callee.names name = false) word)
    (hword : p.text.head?.any Byte.isHole = true → word = []) :
    (p.plug fillers).rewrite callee replace word =
      (ofBytes word).append (p.plug fun b => (fillers b).rewrite callee replace []) := by
  induction p generalizing next word with
  | nil => simp [plug, rewrite]
  | byte b rest ih =>
    obtain ⟨hseam, hosts⟩ := hosts
    rw [AllCalls, wordWith] at h
    rw [plug, plug]
    split
    next hhole =>
      rw [if_pos hhole] at hseam
      obtain rfl := hword (by simpa [text] using hhole)
      obtain ⟨hplain, hident, hparen⟩ := head?_of_isBreak hseam
      have hhead := @head?_plug fillers rest hplain
      rw [rewrite_append (by rwa [hhead]) (Or.inr (by rwa [hhead])),
        @ih [] _ hosts (h.of_break hident hparen _) (fun _ => rfl)]
      rfl
    next hhole =>
      rw [if_neg hhole] at hseam
      have hedge (hhead : rest.text.head?.any Byte.isHole = true) : Byte.isIdent b = false := by
        have hedge := hseam hhead
        simp only [Byte.isEdge, Bool.and_eq_true, Bool.not_eq_true'] at hedge
        exact hedge.2
      change (byte b (rest.plug fillers)).rewrite callee replace word = _
      rw [rewrite]
      split
      next hb =>
        rw [if_pos hb] at h
        rw [ih hosts h fun hhead => absurd hb (by simp [hedge hhead]), ofBytes_append, append_assoc]
        rfl
      next hb =>
        rw [if_neg hb] at h
        rw [ih hosts h fun _ => rfl]
        rfl
  | quoted q value rest ih =>
    obtain ⟨-, -, hosts⟩ := hosts
    rw [plug, rewrite, ih hosts h fun _ => rfl]
    rfl
  | group kind inner rest ihinner ih =>
    obtain ⟨hcall, hinner, hrest⟩ := h
    have hmiss : ¬(kind = .paren ∧ callee.names word = true) := by
      rintro ⟨rfl, hnames⟩
      simp [hnames] at hcall
    rw [plug, rewrite, if_neg hmiss, ihinner hosts.1 hinner fun _ => rfl,
      ih hosts.2 hrest fun _ => rfl]
    rfl

/-- A phrase that does not go on with a word before it starts as it did. -/
theorem head?_rewrite_of_break {p : Phrase} (h : p.text.head?.any Byte.isIdent = false) :
    (p.rewrite callee replace []).text.head? = p.text.head? := by
  cases p with
  | nil => rfl
  | byte b rest =>
    have hb : Byte.isIdent b = false := by simpa [text] using h
    simp [rewrite, hb, text]
  | quoted q value rest => simp [rewrite, text, quoteRun]
  | group kind inner rest => simp [rewrite, Callee.names_nil, text]

/-- A rewritten phrase ends as it did, or as a replacement does. -/
theorem getLast?_rewrite {f : UInt8 → Bool} {p : Phrase}
    (h : p.AllCalls (fun name inner => callee.names name = true →
      ∃ b, (replace inner).text.getLast? = some b ∧ f b = true) word) :
    (p.rewrite callee replace word).text.getLast? = (word ++ p.text).getLast? ∨
      ∃ b, (p.rewrite callee replace word).text.getLast? = some b ∧ f b = true := by
  have hstep {first : Text} {last old : Text}
      (h : last.getLast? = old.getLast? ∨ ∃ b, last.getLast? = some b ∧ f b = true) :
      (first ++ last).getLast? = (first ++ old).getLast? ∨
        ∃ b, (first ++ last).getLast? = some b ∧ f b = true := by
    rw [List.getLast?_append, List.getLast?_append]
    rcases h with h | ⟨b, hb, hf⟩
    · exact Or.inl (by rw [h])
    · exact Or.inr ⟨b, by simp [hb], hf⟩
  induction p generalizing word with
  | nil => simp [rewrite, text]
  | byte b rest ih =>
    rw [AllCalls, wordWith] at h
    rw [rewrite]
    split
    next hb =>
      rw [if_pos hb] at h
      simpa [text] using ih h
    next hb =>
      rw [if_neg hb] at h
      simpa [text] using @hstep (word ++ [b]) _ _ (ih h)
  | quoted q value rest ih =>
    simpa [rewrite, text] using @hstep (word ++ quoteRun q value) _ _ (ih h)
  | group kind inner rest ihinner ih =>
    obtain ⟨hcall, -, hrest⟩ := h
    rw [rewrite]
    split
    next hhit =>
      obtain ⟨b, hb, hf⟩ := hcall hhit.1 hhit.2
      rw [text_append, List.getLast?_append]
      rcases ih hrest with hsame | ⟨x, hx, hfx⟩
      · cases hlast : rest.text.getLast? with
        | none =>
          rw [List.nil_append, hlast] at hsame
          exact Or.inr ⟨b, by simp [hsame, hb], hf⟩
        | some x =>
          rw [List.nil_append, hlast] at hsame
          left
          simp [hsame, text, List.getLast?_append, List.getLast?_cons, hlast]
      · exact Or.inr ⟨x, by simp [hx], hfx⟩
    next =>
      have hend (before after : Text) : (before ++ kind.closing :: after).getLast? =
          (kind.closing :: after).getLast? := List.getLast?_append_of_ne_nil _ (by simp)
      have hnew : ((ofBytes word).append (group kind (inner.rewrite callee replace [])
          (rest.rewrite callee replace []))).text =
          (word ++ kind.opening :: (inner.rewrite callee replace []).text) ++
            kind.closing :: (rest.rewrite callee replace []).text := by simp [text]
      have hold : word ++ (group kind inner rest).text =
          (word ++ kind.opening :: inner.text) ++ kind.closing :: rest.text := by simp [text]
      rw [hnew, hold, hend, hend]
      exact @hstep [kind.closing] _ _ (ih hrest)

/-- A rewrite that puts in no commas keeps their number. -/
theorem commas_rewrite {p : Phrase} (hword : ∀ b ∈ word, Byte.isIdent b = true)
    (h : p.AllCalls (fun name inner => callee.names name = true → (replace inner).commas = 0)
      word) : (p.rewrite callee replace word).commas = p.commas := by
  induction p generalizing word with
  | nil => exact commas_ofBytes hword
  | byte b rest ih =>
    rw [AllCalls, wordWith] at h
    rw [rewrite]
    split
    next hb =>
      rw [if_pos hb] at h
      have hcomma : b ≠ Byte.comma := by
        rintro rfl
        exact absurd hb (by decide)
      rw [ih (List.forall_mem_append.mpr ⟨hword, by simpa using hb⟩) h, commas, if_neg hcomma]
    next hb =>
      rw [if_neg hb] at h
      rw [commas_append, commas_ofBytes hword, commas, ih (by simp) h, commas, Nat.zero_add]
  | quoted q value rest ih =>
    rw [rewrite, commas_append, commas_ofBytes hword, commas, ih (by simp) h, commas, Nat.zero_add]
  | group kind inner rest _ ih =>
    obtain ⟨hcall, -, hrest⟩ := h
    rw [rewrite, commas]
    split
    next hhit => rw [commas_append, hcall hhit.1 hhit.2, ih (by simp) hrest, Nat.zero_add]
    next => rw [commas_append, commas_ofBytes hword, commas, ih (by simp) hrest, Nat.zero_add]

/-- A rewrite does not go on with a parenthesis. -/
theorem parted_rewrite {p : Phrase} (hparted : p.Parted Byte.isIdent)
    (h : p.AllCalls (fun name inner => callee.names name = true →
      (replace inner).Parted Byte.isIdent) word) :
    (p.rewrite callee replace word).Parted Byte.isIdent := by
  induction p generalizing word with
  | nil =>
    rw [rewrite]
    simpa using (@parted_ofBytes_append Byte.isIdent word nil).mpr trivial
  | byte b rest ih =>
    rw [AllCalls, wordWith] at h
    rw [rewrite]
    split
    next hb =>
      rw [if_pos hb] at h
      exact ih hparted h
    next hb =>
      rw [if_neg hb] at h
      exact (parted_ofBytes_append _ _).mpr (ih hparted h)
  | quoted q value rest ih => exact (parted_ofBytes_append _ _).mpr (ih hparted h)
  | group kind inner rest ihinner ih =>
    obtain ⟨hcall, hinnerCalls, hrestCalls⟩ := h
    obtain ⟨hhead, hinner, hrest⟩ := hparted
    have hlater (hkind : kind = .paren) :
        (rest.rewrite callee replace []).text.head?.any Byte.isIdent = false := by
      rw [head?_rewrite_of_break (hhead hkind)]
      exact hhead hkind
    rw [rewrite]
    split
    next hhit => exact (hcall hhit.1 hhit.2).append (ih hrest hrestCalls) (hlater hhit.1)
    next =>
      exact (parted_ofBytes_append _ _).mpr
        ⟨hlater, ihinner hinner hinnerCalls, ih hrest hrestCalls⟩

end Rewrite

end Phrase

end QueryBridge
