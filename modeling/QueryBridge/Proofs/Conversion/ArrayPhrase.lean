import QueryBridge.Proofs.Edit
import QueryBridge.Proofs.Lexical.Seam
import QueryBridge.Proofs.Lexical.Word

/-!
# The words ARRAY JOIN in a text

Whether the code of a text has the words ARRAY and JOIN with blanks alone between them can be told
from its parts, if none of the parts cuts through the words. A text that has a byte of neither word
keeps what stands before it apart from what stands behind it.
-/

namespace QueryBridge

open Text

namespace Cursor

/-- The keyword ARRAY stands at the cursor, and behind blanks the keyword JOIN. -/
def StartsArrayJoin (c : Cursor) : Prop :=
  c.keyword "ARRAY" = true ∧ (c.forward 5).nextSignificant?.any (·.keyword "JOIN") = true

instance (c : Cursor) : Decidable c.StartsArrayJoin := inferInstanceAs (Decidable (_ ∧ _))

end Cursor

/-- The words ARRAY and JOIN with nothing but blanks between them. -/
def Text.IsArrayJoin (run : Text) : Prop :=
  ∃ array gap join : Text, run = array ++ (gap ++ join) ∧ array.map Byte.toLower = "array" ∧
    join.map Byte.toLower = "join" ∧ gap ≠ [] ∧ ∀ b ∈ gap, Byte.isBlank b = true

/-- In lower case, the keywords are the words that the definition of `IsArrayJoin` spells. -/
theorem map_toLower_arrayJoin :
    (ofString "ARRAY").map Byte.toLower = "array" ∧ (ofString "JOIN").map Byte.toLower = "join" := by
  decide

theorem length_of_map_toLower {array : Text} (h : array.map Byte.toLower = "array") :
    array.length = 5 := by
  rw [← List.length_map (f := Byte.toLower), h]
  decide

namespace Cursor

variable {c : Cursor}

theorem StartsArrayJoin.exists_isArrayJoin (h : c.StartsArrayJoin) :
    ∃ run behind : Text, c.after = run ++ behind ∧ run.IsArrayJoin ∧ c.followsIdent = false ∧
      behind.head?.any Byte.isIdent = false := by
  obtain ⟨harray, hjoin⟩ := h
  obtain ⟨array, rest, hafter, hword, hbefore, hrest⟩ := keyword_iff.mp harray
  obtain ⟨join, hnext, hjoin⟩ := (Option.any_eq_true _ _).mp hjoin
  obtain ⟨found, behind, hfound, hword', -, hbehind⟩ := keyword_iff.mp hjoin
  rw [map_toLower_arrayJoin.1] at hword
  have hforward : (c.forward 5).after = rest := by
    simp [forward, hafter, ← length_of_map_toLower hword]
  have hskip : (c.forward 5).forwardWhile Byte.isBlank = join := by
    simp only [nextSignificant?, Option.ite_none_left_eq_some, Option.some.injEq] at hnext
    exact hnext.2
  have hgap := ((c.forward 5).moves_forwardWhile Byte.isBlank).after_eq
  rw [hskip, hforward, hfound] at hgap
  refine ⟨array ++ (rest.takeWhile Byte.isBlank ++ found), behind, ?_,
    ⟨array, _, found, rfl, hword, hword'.trans map_toLower_arrayJoin.2, ?_,
      fun b hb => List.mem_takeWhile_imp hb⟩,
    hbefore, hbehind⟩
  · rw [hafter, List.append_assoc, List.append_assoc, ← hgap]
  · -- Without a blank the first word would go on with the second one.
    intro hnil
    obtain ⟨b, hb, hident⟩ := isIdent_of_keyword hjoin (by decide) (by decide)
    rw [hnil, List.nil_append, ← hfound] at hgap
    rw [hgap, ← byte?, hb, Option.any_some, hident] at hrest
    exact absurd hrest (by decide)

theorem startsArrayJoin_of_isArrayJoin {run behind : Text} (hafter : c.after = run ++ behind)
    (hrun : run.IsArrayJoin) (hbefore : c.followsIdent = false)
    (hbehind : behind.head?.any Byte.isIdent = false) : c.StartsArrayJoin := by
  obtain ⟨array, gap, join, rfl, hword, hword', hgap, hblank⟩ := hrun
  have hrest : (c.forward 5).after = gap ++ (join ++ behind) := by
    simp [forward, hafter, ← length_of_map_toLower hword]
  have hmoves : (c.forward 5).Moves gap ((c.forward 5).forward gap.length) := by
    have hgap := (c.forward 5).moves_forward gap.length
    rwa [hrest, List.take_left' rfl] at hgap
  have hafter' : ((c.forward 5).forward gap.length).after = join ++ behind :=
    List.append_cancel_left (hmoves.after_eq.symm.trans hrest)
  have hident {b : Option UInt8} (hb : ∀ x ∈ b, x ∈ gap) : b.any Byte.isIdent = false := by
    cases b with
    | none => rfl
    | some b => exact not_isIdent_of_isBlank (hblank b (hb b rfl))
  have hjoin : ((c.forward 5).forward gap.length).keyword "JOIN" = true := by
    refine keyword_iff.mpr
      ⟨join, behind, hafter', hword'.trans map_toLower_arrayJoin.2.symm, ?_, hbehind⟩
    rw [followsIdent, ← List.getLast?_reverse, hmoves.before_eq,
      List.getLast?_append_of_ne_nil _ hgap]
    exact hident fun b hb => List.mem_of_mem_getLast? hb
  obtain ⟨b, hb, hletter⟩ := isIdent_of_keyword hjoin (by decide) (by decide)
  have hskip :=
    hmoves.forwardWhile_eq hblank (by simp [hb, Byte.isBlank_eq_false_of_isIdent hletter])
  refine ⟨keyword_iff.mpr ⟨array, gap ++ (join ++ behind), by simp [hafter], ?_, hbefore, ?_⟩, ?_⟩
  · exact hword.trans map_toLower_arrayJoin.1.symm
  · rw [List.head?_append_of_ne_nil _ hgap]
    exact hident fun b hb => List.mem_of_mem_head? hb
  · have hne : ((c.forward 5).forward gap.length).after.isEmpty = false := by
      cases hafter : ((c.forward 5).forward gap.length).after with
      | nil => simp [byte?, hafter] at hb
      | cons => rfl
    simp [nextSignificant?, hskip, hne, hjoin]

theorem startsArrayJoin_iff : c.StartsArrayJoin ↔
    ∃ run behind : Text, c.after = run ++ behind ∧ run.IsArrayJoin ∧ c.followsIdent = false ∧
      behind.head?.any Byte.isIdent = false :=
  ⟨StartsArrayJoin.exists_isArrayJoin, fun ⟨_, _, hafter, hrun, hbefore, hbehind⟩ =>
    startsArrayJoin_of_isArrayJoin hafter hrun hbefore hbehind⟩

end Cursor

/-- The bytes that the words ARRAY and JOIN and the blanks between them consist of. -/
def Byte.inArrayJoin (b : UInt8) : Bool :=
  isBlank b || (ofString "aryjoin").contains (toLower b)

theorem Byte.isPlain_of_inArrayJoin {b : UInt8} (h : inArrayJoin b = true) : isPlain b = true :=
  isPlain_of_class (by decide) h

namespace Text

variable {text first second run before behind : Text}

theorem IsArrayJoin.inArrayJoin (h : run.IsArrayJoin) : ∀ b ∈ run, Byte.inArrayJoin b = true := by
  obtain ⟨array, gap, join, rfl, harray, hjoin, -, hgap⟩ := h
  have hword {word : Text} {letters : Text} (hword : word.map Byte.toLower = letters)
      (hletters : ∀ b ∈ letters, (ofString "aryjoin").contains b = true) :
      ∀ b ∈ word, Byte.inArrayJoin b = true := fun b hb => by
    rw [Byte.inArrayJoin, hletters _ (hword ▸ List.mem_map_of_mem hb), Bool.or_true]
  rw [List.forall_mem_append, List.forall_mem_append]
  exact ⟨hword harray (by decide), fun b hb => by simp [Byte.inArrayJoin, hgap b hb],
    hword hjoin (by decide)⟩

/-- An ARRAY JOIN starts with an A and ends with an N. -/
theorem IsArrayJoin.ends (h : run.IsArrayJoin) :
    (∃ b tail, run = b :: tail ∧ Byte.toLower b = 97) ∧
      ∃ init b, run = init ++ [b] ∧ Byte.toLower b = 110 := by
  obtain ⟨array, gap, join, rfl, harray, hjoin, -, -⟩ := h
  constructor
  · cases array with
    | nil => exact absurd (congrArg List.length harray) (by decide)
    | cons b array =>
      exact ⟨b, _, rfl, Option.some.inj (congrArg List.head? harray)⟩
  · rcases eq_nil_or_snoc join with rfl | ⟨init, b, rfl⟩
    · exact absurd (congrArg List.length hjoin) (by decide)
    · have hlast := congrArg List.getLast? hjoin
      rw [List.map_append, List.map_singleton, List.getLast?_concat] at hlast
      exact ⟨array ++ (gap ++ init), b, by simp, Option.some.inj hlast⟩

theorem IsArrayJoin.head?_or (h : run.IsArrayJoin) (before behind : Text) :
    before.head?.or run.head? = (before ++ (run ++ behind)).head? := by
  obtain ⟨⟨b, tail, rfl, -⟩, -⟩ := h.ends
  cases before <;> rfl

/-- The words ARRAY JOIN stand between two texts, in code and as words of their own. -/
structure ArrayJoinAt (before run behind : Text) : Prop where
  phrase : run.IsArrayJoin
  mode : Mode.code.after run.head? before = .code
  before_edge : before.getLast?.any Byte.isIdent = false
  behind_edge : behind.head?.any Byte.isIdent = false

/-- A text has an ARRAY JOIN in its code. -/
def HoldsArrayJoin (text : Text) : Prop := ∃ c ∈ text.code, c.StartsArrayJoin

instance (text : Text) : Decidable text.HoldsArrayJoin :=
  inferInstanceAs (Decidable (∃ c ∈ text.code, c.StartsArrayJoin))

theorem ArrayJoinAt.exists_mem_code (h : ArrayJoinAt before run behind) :
    ∃ c ∈ (before ++ (run ++ behind)).code, c.offset = before.length ∧ c.StartsArrayJoin := by
  obtain ⟨⟨b, tail, rfl, hletter⟩, -⟩ := h.phrase.ends
  let c : Cursor := ⟨before.length, before.reverse, (b :: tail) ++ behind⟩
  have hlies : c.LiesIn (before ++ ((b :: tail) ++ behind)) := ⟨by simp [c], by simp [c]⟩
  have hmode : c.mode = .code := by simpa [c, Cursor.mode] using h.mode
  refine ⟨c, Cursor.mem_code_of_isPlain hlies hmode rfl ?_, rfl, Cursor.startsArrayJoin_iff.mpr
    ⟨_, behind, rfl, h.phrase, ?_, h.behind_edge⟩⟩
  · exact Byte.isPlain_of_inArrayJoin (h.phrase.inArrayJoin b List.mem_cons_self)
  · simpa [c, Cursor.followsIdent] using h.before_edge

theorem holdsArrayJoin_iff : text.HoldsArrayJoin ↔
    ∃ before run behind, text = before ++ (run ++ behind) ∧ ArrayJoinAt before run behind := by
  constructor
  · rintro ⟨c, hc, hstarts⟩
    obtain ⟨hlies, hcode⟩ := mem_code.mp hc
    obtain ⟨run, behind, hafter, hrun, hbefore, hbehind⟩ := Cursor.startsArrayJoin_iff.mp hstarts
    have hmode := Cursor.mode_eq_code_of_isCode hcode
    obtain ⟨⟨b, tail, rfl, -⟩, -⟩ := hrun.ends
    refine ⟨c.before.reverse, b :: tail, behind, by rw [← hafter, hlies.joined], hrun, ?_, ?_, hbehind⟩
    · simpa [Cursor.mode, hafter] using hmode
    · rwa [List.getLast?_reverse]
  · rintro ⟨before, run, behind, rfl, h⟩
    obtain ⟨c, hc, -, hstarts⟩ := h.exists_mem_code
    exact ⟨c, hc, hstarts⟩

/-- No ARRAY JOIN that starts in the text leads out of it. -/
def StartsNone (text : Text) : Prop :=
  ∀ b ∈ text.reverse.takeWhile Byte.inArrayJoin, Byte.toLower b ≠ 97

/-- No ARRAY JOIN that leads into the text ends in it. -/
def EndsNone (text : Text) : Prop :=
  ∀ b ∈ text.takeWhile Byte.inArrayJoin, Byte.toLower b ≠ 110

instance (text : Text) : Decidable text.StartsNone := List.decidableBAll _ _

instance (text : Text) : Decidable text.EndsNone := List.decidableBAll _ _

/-- An ARRAY JOIN of two texts that it cannot lead from the one into the other lies in one of
them. -/
theorem HoldsArrayJoin.of_append (h : HoldsArrayJoin (first ++ second))
    (hmode : Mode.code.after second.head? first = .code)
    (hseam : first.StartsNone ∨ second.EndsNone) : first.HoldsArrayJoin ∨ second.HoldsArrayJoin := by
  obtain ⟨before, run, behind, heq, hphrase, hcode, hbefore, hbehind⟩ := holdsArrayJoin_iff.mp h
  obtain ⟨⟨b, tail, hrun, hb⟩, init, d, hrun', hd⟩ := hphrase.ends
  have hinside {rest : Text} (hrest : before = first ++ rest)
      (heq : second = rest ++ (run ++ behind)) : second.HoldsArrayJoin := by
    refine holdsArrayJoin_iff.mpr ⟨rest, run, behind, heq, hphrase, ?_, ?_, hbehind⟩
    · rwa [hrest, Mode.after_append, hphrase.head?_or rest behind, ← heq, hmode] at hcode
    · cases rest with
      | nil => rfl
      | cons x rest => rwa [hrest, List.getLast?_append_of_ne_nil _ (by simp)] at hbefore
  rcases List.append_eq_append_iff.mp heq with ⟨rest, hrest, heq⟩ | ⟨rest, hrest, heq⟩
  · exact Or.inr (hinside hrest heq)
  rcases List.append_eq_append_iff.mp heq with ⟨more, hmore, heq⟩ | ⟨more, hmore, heq⟩
  · refine Or.inl (holdsArrayJoin_iff.mpr ⟨before, run, more, hmore ▸ hrest, hphrase, hcode, hbefore, ?_⟩)
    cases more with
    | nil => rfl
    | cons x more => simpa [heq] using hbehind
  · -- The words begin in the first text and end in the second one.
    have hall := hphrase.inArrayJoin
    rw [hmore, List.forall_mem_append] at hall
    cases rest with
    | nil => exact Or.inr (@hinside [] (by simpa using hrest.symm) (by rw [heq]; rfl))
    | cons x rest =>
      obtain rfl : b = x := (List.cons.inj (hrun.symm.trans hmore)).1
      rcases eq_nil_or_snoc more with rfl | ⟨more, y, rfl⟩
      · refine Or.inl (holdsArrayJoin_iff.mpr
          ⟨before, run, [], by simp [hrest, hmore], hphrase, hcode, hbefore, rfl⟩)
      obtain rfl : d = y := by
        have hlast := congrArg List.getLast? (hrun'.symm.trans hmore)
        rw [← List.append_assoc, List.getLast?_concat, List.getLast?_concat] at hlast
        exact Option.some.inj hlast
      exfalso
      rcases hseam with hseam | hseam
      · refine hseam b ?_ hb
        rw [hrest, List.reverse_append, List.takeWhile_append_of_pos fun y hy =>
          hall.1 y (List.mem_reverse.mp hy)]
        simp
      · refine hseam d ?_ hd
        rw [heq, List.takeWhile_append_of_pos hall.2]
        simp

/-- An ARRAY JOIN is one as well where other text stands around it. -/
theorem HoldsArrayJoin.within (h : text.HoldsArrayJoin)
    (hmode : Mode.code.after text.head? first = .code)
    (hfirst : first.getLast?.any Byte.isIdent = false)
    (hsecond : second.head?.any Byte.isIdent = false) :
    HoldsArrayJoin (first ++ (text ++ second)) := by
  obtain ⟨before, run, behind, rfl, hphrase, hcode, hbefore, hbehind⟩ := holdsArrayJoin_iff.mp h
  refine holdsArrayJoin_iff.mpr ⟨first ++ before, run, behind ++ second, by simp, hphrase, ?_, ?_, ?_⟩
  · rw [Mode.after_append, hphrase.head?_or before behind, hmode, hcode]
  · cases before with
    | nil => simpa using hfirst
    | cons x before => rwa [List.getLast?_append_of_ne_nil _ (by simp)]
  · cases behind with
    | nil => simpa using hsecond
    | cons x behind => simpa using hbehind

/-- The text around what is copied into a join: it has no ARRAY JOIN and none leads into it or out
of it. -/
structure Bars (piece : Text) : Prop where
  isSealed : piece.Sealed
  clear : ¬piece.HoldsArrayJoin
  starts : piece.StartsNone
  ends : piece.EndsNone
  mixed : ¬∀ b ∈ piece, Byte.inArrayJoin b = true
  first : ∀ b ∈ piece.head?, Byte.isPlain b = true
  last : ∀ b ∈ piece.getLast?, Byte.isPlain b = true

instance (piece : Text) : Decidable piece.Bars :=
  decidable_of_iff (piece.Sealed ∧ ¬piece.HoldsArrayJoin ∧ piece.StartsNone ∧ piece.EndsNone ∧
      (¬∀ b ∈ piece, Byte.inArrayJoin b = true) ∧ (∀ b ∈ piece.head?, Byte.isPlain b = true) ∧
      ∀ b ∈ piece.getLast?, Byte.isPlain b = true)
    ⟨fun ⟨h₁, h₂, h₃, h₄, h₅, h₆, h₇⟩ => ⟨h₁, h₂, h₃, h₄, h₅, h₆, h₇⟩,
      fun ⟨h₁, h₂, h₃, h₄, h₅, h₆, h₇⟩ => ⟨h₁, h₂, h₃, h₄, h₅, h₆, h₇⟩⟩

theorem Bars.nonempty {piece : Text} (h : piece.Bars) : piece ≠ [] := by
  rintro rfl
  exact h.mixed (by simp)

/-- What has an ARRAY JOIN with bars in it has one before or behind them. -/
theorem Bars.holds_or {piece rest : Text} (h : piece.Bars) (htext : text.Sealed)
    (hholds : HoldsArrayJoin (text ++ (piece ++ rest))) : text.HoldsArrayJoin ∨ rest.HoldsArrayJoin := by
  have hends : EndsNone (piece ++ rest) := by
    rw [EndsNone, List.takeWhile_append, if_neg fun hall => h.mixed ?_]
    · exact h.ends
    · exact List.takeWhile_eq_self_iff.mp (List.takeWhile_sublist _ |>.eq_of_length hall)
  refine (hholds.of_append (htext.after_eq (Or.inr ?_)) (Or.inr hends)).imp_right fun hholds => ?_
  · rw [List.head?_append_of_ne_nil _ h.nonempty]
    exact h.first
  · exact (hholds.of_append (h.isSealed.after_eq (Or.inl h.last)) (Or.inl h.starts)).resolve_left
      h.clear

theorem not_holdsArrayJoin_nil : ¬HoldsArrayJoin [] := by decide

/-- Behind bars an ARRAY JOIN is one as well. -/
theorem Bars.holds_behind {piece rest : Text} (h : piece.Bars)
    (hlast : piece.getLast?.any Byte.isIdent = false) (htext : text.Sealed)
    (hholds : rest.HoldsArrayJoin) (hsecond : second.head?.any Byte.isIdent = false) :
    HoldsArrayJoin (text ++ piece ++ (rest ++ second)) := by
  have hsealed : (text ++ piece).Sealed :=
    htext.append h.isSealed (seam_eq_false_of_after (htext.after_eq (Or.inr h.first)))
  have hend : (text ++ piece).getLast? = piece.getLast? :=
    List.getLast?_append_of_ne_nil _ h.nonempty
  exact hholds.within (hsealed.after_eq (Or.inl (hend ▸ h.last))) (hend ▸ hlast) hsecond

theorem Bars.holds_append_iff {piece rest : Text} (h : piece.Bars)
    (hlast : piece.getLast?.any Byte.isIdent = false) :
    HoldsArrayJoin (piece ++ rest) ↔ rest.HoldsArrayJoin := by
  constructor
  · exact fun hholds => (@holds_or [] piece rest h sealed_nil hholds).resolve_left
      not_holdsArrayJoin_nil
  · intro hholds
    simpa using @holds_behind [] [] piece rest h hlast sealed_nil hholds rfl

theorem Bars.holds_iff {piece rest : Text} (h : piece.Bars)
    (hedges : piece.head?.any Byte.isIdent = false ∧ piece.getLast?.any Byte.isIdent = false)
    (htext : text.Sealed) :
    HoldsArrayJoin (text ++ (piece ++ rest)) ↔ text.HoldsArrayJoin ∨ rest.HoldsArrayJoin := by
  refine ⟨h.holds_or htext, ?_⟩
  rintro (hholds | hholds)
  · refine @HoldsArrayJoin.within text [] _ hholds rfl rfl ?_
    rw [List.head?_append_of_ne_nil _ h.nonempty]
    exact hedges.1
  · simpa using @holds_behind text [] piece rest h hedges.2 htext hholds rfl

theorem holdsArrayJoin_join_iff {separator : Text} (h : separator.Bars)
    (hedges : separator.head?.any Byte.isIdent = false ∧
      separator.getLast?.any Byte.isIdent = false)
    {items : List Text} (hitems : ∀ item ∈ items, item.Sealed) :
    (join separator items).HoldsArrayJoin ↔ ∃ item ∈ items, item.HoldsArrayJoin := by
  induction items with
  | nil => simpa [join] using not_holdsArrayJoin_nil
  | cons first others ih =>
    obtain ⟨hfirst, hothers⟩ := List.forall_mem_cons.mp hitems
    rw [List.exists_mem_cons_iff, ← ih hothers]
    cases others with
    | nil => simp [join, not_holdsArrayJoin_nil]
    | cons second others =>
      show HoldsArrayJoin (first ++ separator ++ join separator (second :: others)) ↔ _
      rw [List.append_assoc, h.holds_iff hedges hfirst]

/-- No word goes on over an offset. -/
def BreaksWords (text : Text) (offset : Nat) : Prop :=
  (text.take offset).getLast?.any Byte.isIdent = true →
    (text.drop offset).head?.any Byte.isIdent = false

/-- No word goes on over the place before some blanks that no word goes on behind. -/
theorem breaksWords_backWhile {c : Cursor} (hc : c.LiesIn text)
    (hedge : c.byte?.any Byte.isIdent = true → c.followsIdent = false) :
    text.BreaksWords (c.backWhile Byte.isBlank).offset := by
  have hd := hc.backWhile Byte.isBlank
  have hmoves := hc.moves_backWhile Byte.isBlank
  rw [BreaksWords, hd.take_eq, hd.drop_eq, List.getLast?_reverse]
  intro hfollows
  rcases eq_nil_or_snoc (c.before.takeWhile Byte.isBlank) with hrun | ⟨run, b, hrun⟩
  · have hsame : c.backWhile Byte.isBlank = c := by simp [Cursor.backWhile, hrun]
    rw [hsame] at hfollows ⊢
    by_contra hident
    have := hedge (by simpa [Cursor.byte?] using hident)
    rw [Cursor.followsIdent, hfollows] at this
    exact absurd this (by decide)
  · have hblank : Byte.isBlank b = true :=
      List.mem_takeWhile_imp (hrun ▸ List.mem_append_right _ (List.mem_singleton_self b))
    rw [hmoves.after_eq, hrun, List.reverse_append]
    exact not_isIdent_of_isBlank (b := some b) hblank

/-- An ARRAY JOIN of a stretch between two breaks stands in the whole text as well. -/
theorem arrayJoinAt_of_slice {first last : Nat} {before run behind : Text} (hle : first ≤ last)
    (hmode : text.modeAt first = .code) (hfirst : text.BreaksWords first)
    (hlast : text.BreaksWords last) (hslice : text.slice first last = before ++ (run ++ behind))
    (hat : ArrayJoinAt before run behind) :
    ArrayJoinAt (text.take first ++ before) run (behind ++ text.drop last) := by
  obtain ⟨hphrase, hcode, hbefore, hbehind⟩ := hat
  obtain ⟨⟨a, tail, hrun, ha⟩, init, n, hrun', hn⟩ := hphrase.ends
  have hident {b x : UInt8} (hb : Byte.toLower b = x) (hx : Byte.isIdent x = true) :
      Byte.isIdent b = true := by
    rwa [← hb, Byte.isIdent_toLower] at hx
  have hdrop : text.drop first = before ++ (run ++ (behind ++ text.drop last)) := by
    rw [drop_eq_slice_append text hle, hslice, List.append_assoc, List.append_assoc]
  refine ⟨hphrase, ?_, ?_, ?_⟩
  · rw [Mode.after_append, hphrase.head?_or before (behind ++ text.drop last), ← hdrop, ← modeAt_eq,
      hmode, hcode]
  · cases before with
    | nil =>
      rw [List.append_nil]
      by_contra hword
      have := hfirst (by simpa using hword)
      rw [hdrop, hrun] at this
      simp [hident ha (by decide)] at this
    | cons x before => rwa [List.getLast?_append_of_ne_nil _ (by simp)]
  · cases behind with
    | nil =>
      refine hlast ?_
      rw [take_eq_append_slice text hle, hslice, hrun']
      simp [hident hn (by decide)]
    | cons x behind => exact hbehind

/-- A stretch between two breaks is free of ARRAY JOIN if none starts in it. -/
theorem not_holdsArrayJoin_slice {first last : Nat} (hle : first ≤ last)
    (hmode : text.modeAt first = .code) (hfirst : text.BreaksWords first)
    (hlast : text.BreaksWords last)
    (hclear : ∀ c ∈ text.code, first ≤ c.offset → c.offset < last → ¬c.StartsArrayJoin) :
    ¬(text.slice first last).HoldsArrayJoin := by
  intro hholds
  obtain ⟨before, run, behind, heq, hwithin⟩ := holdsArrayJoin_iff.mp hholds
  obtain ⟨⟨a, tail, hrun, -⟩, -⟩ := hwithin.phrase.ends
  have hdrop : text.drop first = before ++ (run ++ (behind ++ text.drop last)) := by
    rw [drop_eq_slice_append text hle, heq, List.append_assoc, List.append_assoc]
  have hsplit : text = (text.take first ++ before) ++ (run ++ (behind ++ text.drop last)) := by
    rw [List.append_assoc, ← hdrop, List.take_append_drop]
  have hat := arrayJoinAt_of_slice hle hmode hfirst hlast heq hwithin
  obtain ⟨c, hc, hoffset, hstarts⟩ := hat.exists_mem_code
  rw [← hsplit] at hc
  have hlength := congrArg List.length heq
  have hinside := congrArg List.length hdrop
  simp only [slice, List.length_take, List.length_drop, List.length_append, hrun,
    List.length_cons] at hlength hinside hoffset
  exact hclear c hc (by omega) (by omega) hstarts

end Text

end QueryBridge
