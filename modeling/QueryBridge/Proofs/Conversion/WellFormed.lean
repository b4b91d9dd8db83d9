import Mathlib.Data.Option.Basic
import QueryBridge.Proofs.Conversion.Builtins
import QueryBridge.Proofs.Conversion.Subscript
import QueryBridge.Proofs.Phrase.Stance

/-!
# Rewriting keeps statements well formed

Each bracket in the code of a well-formed statement holds a phrase. So a call, or a name with
subscripts, is a phrase, its arguments are phrases, and what takes its place is one as well. The
passes that rewrite calls and subscripts therefore make well-formed statements of clean ones, and
find every call closed.
-/

namespace QueryBridge

open Text

/-! ### Brackets -/

/-- A bracket opens at a cursor, holds a phrase, and closes before the given text. -/
structure Cursor.Holds (c : Cursor) (kind : Bracket) (inner : Phrase) (behind : Text) : Prop where
  after : c.after = kind.opening :: (inner.text ++ kind.closing :: behind)
  reads : inner.Reads (some kind.closing)

/-- Each bracket in the code of a phrase holds a phrase. -/
theorem Phrase.exists_holds {p : Phrase} {kind : Bracket} {offset : Nat} {before tail : Text}
    {c : Cursor} (hreads : p.Reads tail.head?) (hc : c ∈ p.cursors offset before tail)
    (hsees : c.sees kind.opening = true) : ∃ inner behind, c.Holds kind inner behind := by
  induction p generalizing offset before tail with
  | nil => cases hc
  | byte b rest ih =>
    obtain ⟨-, hbracket, -, hrest⟩ := hreads
    rcases List.mem_cons.mp hc with rfl | hc
    · rw [(sees_of_isBracket rfl hbracket kind).1] at hsees
      cases hsees
    · exact ih hrest hc
  | quoted q value rest ih => exact ih hreads.2.2 hc
  | group other inner rest ihinner ih =>
    obtain ⟨hinner, hrest⟩ := hreads
    rcases List.mem_cons.mp hc with rfl | hc
    · by_cases hkind : other = kind
      · subst hkind
        exact ⟨inner, rest.text ++ tail, rfl, hinner⟩
      · rw [(sees_of_ne hkind (Or.inl rfl)).1] at hsees
        cases hsees
    · rcases List.mem_append.mp hc with hc | hc
      · exact @ihinner _ _ (other.closing :: (rest.text ++ tail)) hinner hc
      · rcases List.mem_cons.mp hc with rfl | hc
        · by_cases hkind : other = kind
          · subst hkind
            rw [sees_opening_of_closing rfl] at hsees
            cases hsees
          · rw [(sees_of_ne hkind (Or.inr rfl)).1] at hsees
            cases hsees
        · exact ih hrest hc

/-- Each bracket in the code of a well-formed statement holds a phrase. -/
theorem Text.WellFormed.exists_holds {text : Text} (h : text.WellFormed) {c : Cursor}
    (hc : c ∈ text.code) {kind : Bracket} (hsees : c.sees kind.opening = true) :
    ∃ inner behind, c.Holds kind inner behind := by
  obtain ⟨p, rfl, hp⟩ := h.fits
  rw [Phrase.code_text hp.reads] at hc
  exact @Phrase.exists_holds p kind 0 [] [] c hp.reads hc hsees

namespace Cursor.Holds

variable {c : Cursor} {kind : Bracket} {inner : Phrase} {behind text : Text}

/-- The bracket is closed behind the phrase. -/
theorem closing? (h : c.Holds kind inner behind) :
    ∃ closing, QueryBridge.closing? kind.opening kind.closing 0 c.code = some closing ∧
      closing.offset = c.offset + 1 + inner.text.length ∧
      closing.after = kind.closing :: behind := by
  obtain ⟨offset, before, after⟩ := c
  obtain rfl : after = _ := h.after
  exact ⟨_, Phrase.closing?_group kind h.reads offset before behind, rfl, rfl⟩

/-- The arguments between the brackets are those of the phrase. -/
theorem arguments (h : c.Holds kind inner behind) (hlies : c.LiesIn text) :
    text.arguments (c.offset + 1) (c.offset + 1 + inner.text.length) = inner.arguments := by
  have hfront := @Phrase.arguments_text inner (kind.closing :: behind) h.reads
    (c.before.reverse ++ [kind.opening])
  have htext : c.before.reverse ++ [kind.opening] ++ (inner.text ++ kind.closing :: behind) =
      text := by
    rw [← hlies.joined, h.after]
    simp
  rw [htext] at hfront
  simpa [hlies.counted] using hfront

/-- The arguments between the brackets are phrases. -/
theorem fits_of_mem_arguments (h : c.Holds kind inner behind) (hlies : c.LiesIn text)
    {argument : Text}
    (hargument : argument ∈ text.arguments (c.offset + 1) (c.offset + 1 + inner.text.length)) :
    argument.Fits fun _ _ => True := by
  rw [h.arguments hlies] at hargument
  exact Phrase.fits_of_mem_arguments h.reads (inner.allCalls_true []) hargument

end Cursor.Holds

/-! ### Parametric aggregates -/

/-- A call with parameters is found at a cursor: its lists open and close there. -/
structure ParametricCall.FoundAt (callee : Callee) (call : ParametricCall)
    (c opening closing : Cursor) : Prop where
  opens : callee.opening? c = some opening
  closes : opening.closingParen? = some closing
  site_eq : call.site = ⟨c.offset, opening.offset, closing.offset⟩
  second_eq : ∀ pair ∈ call.second, (closing.forward 1).sees Byte.openParen = true ∧
    ∃ last, (closing.forward 1).closingParen? = some last ∧
      pair = ((closing.forward 1).offset, last.offset)

/-- A call with parameters is a phrase, as its parameters and its arguments are. -/
structure ParametricCall.Stands (text : Text) (call : ParametricCall) : Prop where
  removed : ∃ (p : Phrase) (tail : Text), text.drop call.site.start = p.text ++ tail ∧
    p.Reads tail.head? ∧ call.stop = call.site.start + p.text.length
  parameters : ∀ parameter ∈ call.parameters text, parameter.Fits fun _ _ => True
  arguments : ∀ argument ∈ call.arguments text, argument.Fits fun _ _ => True

namespace Callee

variable {callee : Callee} {code : List Cursor} {text : Text}

theorem exists_foundAt {place : Nat} {call : ParametricCall}
    (h : call ∈ (callee.surveyParametric place code).calls) :
    ∃ c ∈ code, ∃ opening closing, call.FoundAt callee c opening closing := by
  fun_induction surveyParametric callee place code with
  | case1 => cases h
  | case2 place c code hplace ih =>
    obtain ⟨d, hd, hfound⟩ := ih h
    exact ⟨d, List.mem_cons_of_mem _ hd, hfound⟩
  | case3 place c code hplace hopening ih =>
    obtain ⟨d, hd, hfound⟩ := ih h
    exact ⟨d, List.mem_cons_of_mem _ hd, hfound⟩
  | case4 => cases h
  | case5 => cases h
  | case6 place c code hplace opening hopening closing hclosing site second hsees last hlast _ ih =>
    rcases List.mem_cons.mp h with rfl | h
    · refine ⟨c, List.mem_cons_self, opening, closing, hopening, hclosing, rfl, ?_⟩
      intro pair hpair
      exact ⟨hsees, last, hlast, (Option.some.inj hpair).symm⟩
    · obtain ⟨d, hd, hfound⟩ := ih h
      exact ⟨d, List.mem_cons_of_mem _ hd, hfound⟩
  | case7 place c code hplace opening hopening closing hclosing site second hsees found ih =>
    rcases List.mem_cons.mp h with rfl | h
    · exact ⟨c, List.mem_cons_self, opening, closing, hopening, hclosing, rfl, by simp⟩
    · obtain ⟨d, hd, hfound⟩ := ih h
      exact ⟨d, List.mem_cons_of_mem _ hd, hfound⟩

/-- Where every list closes, no call is left unbalanced. -/
theorem unbalanced_surveyParametric
    (h : ∀ c ∈ code, ∀ opening ∈ callee.opening? c,
      ∃ closing, opening.closingParen? = some closing ∧
        ((closing.forward 1).sees Byte.openParen = true →
          (closing.forward 1).closingParen?.isSome = true)) (place : Nat) :
    (callee.surveyParametric place code).unbalanced = none := by
  fun_induction surveyParametric callee place code with
  | case1 => rfl
  | case2 place c code hplace ih => exact ih (List.forall_mem_cons.mp h).2
  | case3 place c code hplace hopening ih => exact ih (List.forall_mem_cons.mp h).2
  | case4 place c code hplace opening hopening hclosing =>
    obtain ⟨closing, hsome, -⟩ := h c List.mem_cons_self opening hopening
    rw [hclosing] at hsome
    cases hsome
  | case5 place c code hplace opening hopening closing hclosing second hsees hlast =>
    obtain ⟨closing', hsome, hsecond⟩ := h c List.mem_cons_self opening hopening
    obtain rfl := Option.some.inj (hclosing.symm.trans hsome)
    have := hsecond hsees
    rw [hlast] at this
    cases this
  | case6 place c code hplace opening hopening closing hclosing site second hsees last hlast _ ih =>
    exact ih (List.forall_mem_cons.mp h).2
  | case7 place c code hplace opening hopening closing hclosing site second hsees found ih =>
    exact ih (List.forall_mem_cons.mp h).2

end Callee

namespace Text.WellFormed

variable {text behind : Text} {callee : Callee} {c opening closing : Cursor} {inner : Phrase}

/-- The parenthesis of a call stands in code behind its name, and holds a phrase. -/
theorem exists_call (h : text.WellFormed) (hword : callee.IsWord) (hc : c ∈ text.code)
    (hopening : callee.opening? c = some opening) :
    ∃ (word : Text) (inner : Phrase) (behind : Text), (∀ b ∈ word, Byte.isIdent b = true) ∧
      c.after = word ++ opening.after ∧ opening.offset = c.offset + word.length ∧
      opening ∈ text.code ∧ opening.Holds .paren inner behind := by
  obtain ⟨hmem, hsees, -⟩ := Callee.opening?_spec hword hc hopening
  obtain ⟨inner, behind, hholds⟩ := @exists_holds text h opening hmem .paren hsees
  obtain ⟨-, word, hmoves, hident⟩ := Callee.opening?_moves hword hopening
  exact ⟨word, inner, behind, hident, hmoves.after_eq, hmoves.offset_eq, hmem, hholds⟩

/-- A list of arguments that is found closed holds a phrase and ends behind it. -/
theorem closing_eq (hholds : opening.Holds .paren inner behind)
    (hclosing : opening.closingParen? = some closing) :
    closing.offset = opening.offset + 1 + inner.text.length ∧
      closing.after = Byte.closeParen :: behind := by
  obtain ⟨found, hfound, hoffset, hafter⟩ := hholds.closing?
  obtain rfl := Option.some.inj (hclosing.symm.trans hfound)
  exact ⟨hoffset, hafter⟩

/-- What is right behind the parenthesis that ends a list stands in code. -/
theorem mem_code_behind (hmem : opening ∈ text.code) (hholds : opening.Holds .paren inner behind)
    (hclosing : opening.closingParen? = some closing)
    (hsees : (closing.forward 1).sees Byte.openParen = true) :
    closing.forward 1 ∈ text.code ∧ (closing.forward 1).offset = closing.offset + 1 := by
  have hopen : opening.sees Byte.openParen = true := by
    simp [Cursor.sees, Cursor.byte?, hholds.after, Bracket.opening]
  obtain ⟨hmem, -, -⟩ := Cursor.closingParen?_spec hmem hopen hclosing
  obtain ⟨hlies, hnext, hmode⟩ := Cursor.forward_one_of_mem_code hmem
  exact ⟨Cursor.mem_code_of_sees hlies hmode hsees (by decide), hnext⟩

/-- A call with parameters is a phrase: its name, and one or two lists. -/
theorem stands_of_foundAt (h : text.WellFormed) (hword : callee.IsWord) {call : ParametricCall}
    (hc : c ∈ text.code) (hfound : call.FoundAt callee c opening closing) : call.Stands text := by
  obtain ⟨word, inner, behind, hident, hafter, hoffset, hmem, hholds⟩ :=
    h.exists_call hword hc hfound.opens
  obtain ⟨hclose, hcloseAfter⟩ := closing_eq hholds hfound.closes
  have hsite := hfound.site_eq
  have hdrop : text.drop call.site.start = word ++ opening.after := by
    rw [hsite, (mem_code.mp hc).1.drop_eq, hafter]
  have hfirst : ∀ argument ∈ call.site.arguments text, argument.Fits fun _ _ => True := by
    intro argument hargument
    rw [hsite, CallSite.arguments, hclose] at hargument
    exact hholds.fits_of_mem_arguments (mem_code.mp hmem).1 hargument
  cases hsecond : call.second with
  | none =>
    refine ⟨⟨(Phrase.ofBytes word).append (.group .paren inner .nil), behind, ?_, ?_, ?_⟩, ?_, ?_⟩
    · rw [hdrop]
      simp [hholds.after, Phrase.text]
    · rw [Phrase.reads_append]
      exact ⟨Phrase.reads_ofBytes hident _, hholds.reads, trivial⟩
    · simp only [ParametricCall.stop, hsecond, hsite, CallSite.stop, hclose, hoffset,
        Phrase.text_append, Phrase.text_ofBytes, Phrase.text, List.length_append, List.length_cons,
        List.length_nil]
      omega
    · simp [ParametricCall.parameters, hsecond]
    · simpa only [ParametricCall.arguments, hsecond] using hfirst
  | some pair =>
    obtain ⟨hsees, last, hlast, rfl⟩ := hfound.second_eq pair hsecond
    obtain ⟨hnextMem, hnext⟩ := mem_code_behind hmem hholds hfound.closes hsees
    obtain ⟨inner', behind', hholds'⟩ := @exists_holds text h _ hnextMem .paren hsees
    obtain ⟨hlastOffset, -⟩ := closing_eq hholds' hlast
    have hbehind : behind = Byte.openParen :: (inner'.text ++ Byte.closeParen :: behind') := by
      have := hholds'.after
      rw [Cursor.forward, hcloseAfter] at this
      exact this
    refine ⟨⟨((Phrase.ofBytes word).append (.group .paren inner .nil)).append
      (.group .paren inner' .nil), behind', ?_, ?_, ?_⟩, ?_, ?_⟩
    · rw [hdrop]
      simp [hholds.after, hbehind, Phrase.text, Bracket.opening, Bracket.closing]
    · rw [Phrase.reads_append, Phrase.reads_append]
      exact ⟨⟨Phrase.reads_ofBytes hident _, hholds.reads, trivial⟩, hholds'.reads, trivial⟩
    · simp only [ParametricCall.stop, hsecond, hsite, hlastOffset, hnext, hclose, hoffset,
        Phrase.text_append, Phrase.text_ofBytes, Phrase.text, List.length_append, List.length_cons,
        List.length_nil]
      omega
    · simpa only [ParametricCall.parameters, hsecond] using hfirst
    · intro argument hargument
      simp only [ParametricCall.arguments, hsecond, hlastOffset] at hargument
      exact hholds'.fits_of_mem_arguments (mem_code.mp hnextMem).1 hargument

/-- Every call with parameters is found closed. -/
theorem unbalanced_surveyParametric (h : text.WellFormed) (hword : callee.IsWord) :
    (callee.surveyParametric 0 text.code).unbalanced = none := by
  refine Callee.unbalanced_surveyParametric (fun c hc opening hopening => ?_) 0
  obtain ⟨word, inner, behind, -, -, -, hmem, hholds⟩ := h.exists_call hword hc hopening
  obtain ⟨closing, hclosing, -⟩ := hholds.closing?
  refine ⟨closing, hclosing, fun hsees => ?_⟩
  obtain ⟨hnext, -⟩ := mem_code_behind hmem hholds hclosing hsees
  obtain ⟨inner', behind', hholds'⟩ := @exists_holds text h _ hnext .paren hsees
  obtain ⟨last, hlast, -⟩ := hholds'.closing?
  exact Option.isSome_iff_exists.mpr ⟨last, hlast⟩

end Text.WellFormed

namespace ParametricRule

variable {P : Text → Phrase → Prop} {rule : ParametricRule} {parameters arguments : List Text}

/-- The call that takes the place of one with parameters, before its argument and what is made of
the parameters are filled in. -/
def frame (rule : ParametricRule) : List Part :=
  [.fixed (rule.head ++ "("), arg 0, .fixed ", ", arg 1, .fixed ")"]

theorem apply_eq_fillTemplate : rule.apply parameters arguments =
    fillTemplate rule.frame [arguments.head?.getD "NULL", rule.tail parameters] := by
  simp [apply, frame, fillTemplate, Part.fill, arg]

theorem isShaped_frame : ∀ rule ∈ parametricRules, Part.IsShaped rule.frame := by decide +kernel

theorem fits_head? {fallback : Text} (hfallback : fallback.IsBare)
    (hP : ∀ name inner, Unnamed name → P name inner)
    (hfits : ∀ argument ∈ arguments, argument.Fits P) :
    (arguments.head?.getD fallback).Fits P := by
  cases arguments with
  | nil => exact hfallback.fits hP
  | cons argument others => exact hfits argument List.mem_cons_self

theorem fits_tail (hrule : rule ∈ parametricRules)
    (hP : ∀ name inner, Unnamed name → P name inner)
    (hfits : ∀ parameter ∈ parameters, parameter.Fits P) : (rule.tail parameters).Fits P := by
  simp only [parametricRules, List.mem_cons, List.not_mem_nil, or_false] at hrule
  rcases hrule with rfl | rfl | rfl | rfl | rfl
  · exact fits_head? (by decide) hP hfits
  · exact fits_head? (by decide) hP hfits
  · exact fits_head? (by decide) hP hfits
  · have hfill := @Congruence.template _ parameters parameters (congruence_fits hP) true
      ["[", .everything, "]"] (by decide) (forall₂_fits hfits)
    simpa [fillTemplate, Part.fill] using hfill.2
  · exact fits_head? (by decide) hP hfits

/-- What takes the place of a call with parameters can stand behind and before anything. -/
theorem stands_apply (hrule : rule ∈ parametricRules)
    (hP : ∀ name inner, Unnamed name → P name inner)
    (hparameters : ∀ parameter ∈ parameters, parameter.Fits P)
    (harguments : ∀ argument ∈ arguments, argument.Fits P) :
    (rule.apply parameters arguments).Stands P := by
  rw [apply_eq_fillTemplate]
  refine Replacement.stands_fillTemplate (isShaped_frame rule hrule) hP ?_
  simp only [List.mem_cons, List.not_mem_nil, or_false, forall_eq_or_imp, forall_eq]
  exact ⟨fits_head? (by decide) hP harguments, fits_tail hrule hP hparameters⟩

theorem replaceParametric_warnings (rule : ParametricRule) (text : Text) :
    (replaceParametric rule text).warnings =
      (rule.calls text).flatMap (fun call => (call.arguments text).flatMap fun argument =>
        (replaceParametric rule argument).warnings) ++
        rule.callee.warnings (rule.callee.surveyParametric 0 text.code).unbalanced := by
  rw [replaceParametric]
  simp [calls, callee, List.flatMap_def, Function.comp_def]

end ParametricRule

/-- Replacing the calls of an aggregate keeps a statement well formed, and finds all of them
closed. -/
theorem Text.WellFormed.replaceParametric {rule : ParametricRule} (hrule : rule ∈ parametricRules)
    {text : Text} (h : text.WellFormed) :
    (replaceParametric rule text).sql.WellFormed ∧ (replaceParametric rule text).warnings = [] := by
  induction hlength : text.length using Nat.strongRecOn generalizing text with
  | ind n ih =>
    subst hlength
    have hword := (ParametricRule.isFramed_of_mem_parametricRules hrule).2
    have hcall : ∀ call ∈ rule.calls text, call.Stands text := by
      intro call hcall
      obtain ⟨c, hc, opening, closing, hfound⟩ := Callee.exists_foundAt hcall
      exact h.stands_of_foundAt hword hc hfound
    have hinner : ∀ call ∈ rule.calls text, ∀ argument ∈ call.arguments text,
        (QueryBridge.replaceParametric rule argument).sql.WellFormed ∧
          (QueryBridge.replaceParametric rule argument).warnings = [] := by
      intro call hmem argument hargument
      exact ih _ (ParametricCall.length_lt_of_mem_arguments hargument)
        ((hcall call hmem).arguments argument hargument).wellFormed rfl
    constructor
    · rw [ParametricRule.replaceParametric_sql]
      refine h.splice (ParametricRule.covers_edits hword text).2 fun edit hedit => ?_
      have hplace := ((ParametricRule.covers_edits hword text).1 edit hedit).sound.start_code
      obtain ⟨call, hmem, rfl⟩ := List.mem_map.mp hedit
      have hstands := hcall call hmem
      refine ⟨hplace, hstands.removed,
        ParametricRule.stands_apply hrule (fun _ _ _ => trivial) hstands.parameters ?_⟩
      intro converted hconverted
      obtain ⟨argument, hargument, rfl⟩ := List.mem_map.mp hconverted
      exact (hinner call hmem argument hargument).1.fits
    · rw [ParametricRule.replaceParametric_warnings, h.unbalanced_surveyParametric hword,
        List.append_eq_nil_iff, List.flatMap_eq_nil_iff]
      refine ⟨fun call hmem => List.flatMap_eq_nil_iff.mpr fun argument hargument => ?_, rfl⟩
      exact (hinner call hmem argument hargument).2

theorem Text.WellFormed.replaceParametrics {text : Text} (h : text.WellFormed) :
    (replaceParametrics text).sql.WellFormed ∧ (replaceParametrics text).warnings = [] :=
  forEach_keeps (fun _ hrule _ htext => htext.replaceParametric hrule) h

/-! ### Subscripts -/

namespace Subscript

variable {text : Text}

/-- The literal subscripts that follow each other from a place on are a phrase. -/
theorem exists_keysFrom (h : text.WellFormed) {code : List Cursor}
    (hcode : ∀ c ∈ code, c ∈ text.code) {stop : Nat} (hle : stop ≤ text.length) :
    (∃ (p : Phrase) (tail : Text), text.drop stop = p.text ++ tail ∧ p.Reads tail.head? ∧
      (keysFrom stop code).2 = stop + p.text.length) ∧
    ∀ key ∈ (keysFrom stop code).1, key.Fits fun _ _ => True := by
  have hnone (stop : Nat) : ∃ (p : Phrase) (tail : Text), text.drop stop = p.text ++ tail ∧
      p.Reads tail.head? ∧ stop = stop + p.text.length := ⟨.nil, _, rfl, trivial, rfl⟩
  fun_induction keysFrom stop code with
  | case1 => exact ⟨hnone _, by simp⟩
  | case2 stop c code hlt ih => exact ih (List.forall_mem_cons.mp hcode).2 hle
  | case3 => exact ⟨hnone _, by simp⟩
  | case4 stop c code hlt hopens closing hclosing key hkey keys last hrest ih =>
    obtain ⟨hc, hcode⟩ := List.forall_mem_cons.mp hcode
    obtain ⟨hstop, hsees⟩ := Bool.and_eq_true_iff.mp hopens
    obtain rfl : c.offset = stop := by simpa using hstop
    obtain ⟨inner, behind, hholds⟩ := @WellFormed.exists_holds text h c hc .square hsees
    obtain ⟨found, hfound, hoffset, hafter⟩ := hholds.closing?
    obtain rfl := Option.some.inj (hclosing.symm.trans hfound)
    obtain ⟨hmem, -, hle⟩ := Cursor.closing?_spec hc hclosing
    have hlies := (mem_code.mp hmem).1
    have hdrop : text.drop (closing.offset + 1) = behind := by
      rw [← List.drop_drop, hlies.drop_eq, hafter]
      rfl
    obtain ⟨⟨p, tail, htail, hreads, hlast⟩, hkeys⟩ := ih hcode (lt_length_of_mem_code hmem)
    rw [hrest] at hkeys hlast
    refine ⟨⟨.group .square inner p, tail, ?_, ?_, ?_⟩, ?_⟩
    · rw [(mem_code.mp hc).1.drop_eq, hholds.after, ← hdrop, htail]
      simp [Phrase.text]
    · exact ⟨hholds.reads, hreads⟩
    · simp only [Phrase.text, List.length_cons, List.length_append]
      omega
    · have htext : key = inner.text := by
        have htake : (c.forward 1).after = inner.text ++ Bracket.square.closing :: behind := by
          rw [Cursor.forward, hholds.after]
          rfl
        have hcount : closing.offset - c.offset - 1 = inner.text.length := by omega
        rw [show key = ((c.forward 1).after.take (closing.offset - c.offset - 1)) from rfl, htake,
          hcount, List.take_left]
      rw [htext]
      exact List.forall_mem_cons.mpr
        ⟨Phrase.Fits.trim ⟨hholds.reads.to_none, inner.allCalls_true []⟩, hkeys⟩
  | case5 => exact ⟨hnone _, by simp⟩
  | case6 => exact ⟨hnone _, by simp⟩

theorem isPlain_of_isSubject {b : UInt8} (h : Byte.isSubject b = true) :
    Byte.isPlain b = true ∧ Byte.isBracket b = false := by
  rcases Byte.isSubject_iff.mp h with hident | rfl
  · exact ⟨Byte.isPlain_of_isIdent hident, Byte.isBracket_of_isIdent hident⟩
  · decide

theorem stands_edit {subscript : Subscript}
    (hsubject : subscript.subject.Fits fun _ _ => True)
    (hkeys : ∀ key ∈ subscript.keys, key.Fits fun _ _ => True) :
    subscript.edit.text.Stands fun _ _ => True := by
  have hfill := @Replacement.stands_fillTemplate (fun _ _ => True)
    (subscript.subject :: subscript.keys) ["json_extract_string(", arg 0, ", ", .path, ")"]
    (by decide +kernel) (fun _ _ _ => trivial) (List.forall_mem_cons.mpr ⟨hsubject, hkeys⟩)
  simpa [fillTemplate, Part.fill, arg, Subscript.edit] using hfill

/-- A subscripted name of a well-formed statement is a phrase, as its parts are. -/
theorem grafts_of_at? (h : text.WellFormed) {c : Cursor} {code : List Cursor}
    {subscript : Subscript} (hcode : ∀ d ∈ c :: code, d ∈ text.code)
    (hat : at? c code = some subscript) : subscript.edit.Grafts text := by
  have hfound := foundAt_of_at? hcode hat
  obtain ⟨hkeys, -⟩ := keysFrom_of_at? hat
  obtain ⟨hlies, hshown⟩ := mem_code.mp hfound.mem
  obtain ⟨⟨p, tail, htail, hreads, hlast⟩, hfits⟩ :=
    exists_keysFrom h hcode (Nat.le_of_lt (lt_length_of_mem_code hfound.mem))
  rw [hkeys] at hlast hfits
  have hmoves := hfound.moves
  have hstart : (c.backWhile Byte.isSubject).LiesIn text := hmoves.liesIn_iff.mp hlies
  have hplain : ∀ b ∈ subscript.subject, Byte.isPlain b = true ∧ Byte.isBracket b = false := by
    intro b hb
    rw [hfound.subject_eq] at hb
    exact isPlain_of_isSubject (List.mem_takeWhile_imp (List.mem_reverse.mp hb))
  have hsubject (next : Option UInt8) : (Phrase.ofBytes subscript.subject).Reads next :=
    Phrase.reads_ofBytes_of_isPlain hplain next
  refine ⟨?_, ⟨(Phrase.ofBytes subscript.subject).append p, tail, ?_, ?_, ?_⟩, ?_⟩
  · have hmode := hmoves.mode_before_of_isPlain
      (Or.inl (Cursor.mode_eq_code_of_isCode hshown)) fun b hb => (hplain b hb).1
    rw [hstart.eq_cursor, ← hfound.start_eq] at hmode
    refine hmode.resolve_right fun hline => ?_
    have hsilent := h.silent subscript.start (hfound.start_eq ▸ hstart.offset_le)
    rw [modeAt, hline] at hsilent
    cases hsilent
  · simp only [Subscript.edit]
    rw [hfound.start_eq, hstart.drop_eq, hmoves.after_eq, ← hlies.drop_eq, htail]
    simp
  · rw [Phrase.reads_append]
    exact ⟨hsubject _, hreads⟩
  · simp only [Subscript.edit, Phrase.text_append, Phrase.text_ofBytes, List.length_append]
    have := hmoves.offset_eq
    have := hfound.start_eq
    omega
  · exact stands_edit
      ⟨_, Phrase.text_ofBytes _, hsubject none, Phrase.allCalls_true _ _⟩ hfits

end Subscript

/-- Extracting the subscripts of a statement keeps it well formed. -/
theorem Text.WellFormed.extractSubscripts {text : Text} (h : text.WellFormed) :
    (extractSubscripts text).WellFormed := by
  refine h.splice (Subscript.ordered_edits text) (List.forall_mem_map.mpr fun subscript hmem => ?_)
  obtain ⟨c, code, hsuffix, hat⟩ := Subscript.exists_at?_of_mem_findAll hmem
  exact Subscript.grafts_of_at? h (fun _ hd => hsuffix.mem hd) hat

/-! ### Builtins -/

/-- In a clean statement replacing the builtins leaves a well-formed one, and finds every call
closed. -/
theorem Text.Clean.replaceBuiltins {text : Text} (h : text.Clean) :
    (replaceBuiltins text).sql.WellFormed ∧ (replaceBuiltins text).warnings = [] := by
  obtain ⟨out, hout, hfits⟩ := exists_forEach (fun _ hrule => hrule) (by simp) (fits_avoids h)
  rw [QueryBridge.replaceBuiltins, hout]
  exact ⟨hfits.wellFormed, rfl⟩

/-- The passes that rewrite calls and subscripts make well-formed statements of clean ones, without
a warning. -/
theorem passes_keep_wellFormed (aliases : Keyed Text) {text : Text} (h : text.Clean) :
    ∀ pass ∈ Converter.standard aliases,
      pass.name ∈ (["parametric_aggregates", "map_indexing", "builtin_functions"] : List Text) →
      (pass.run text).sql.WellFormed ∧ (pass.run text).warnings = [] := by
  have hwell := h.wellFormed
  simp only [Converter.standard, List.forall_mem_cons]
  refine ⟨fun hname => absurd hname (by decide +kernel),
    fun hname => absurd hname (by decide +kernel), fun hname => absurd hname (by decide +kernel),
    fun _ => hwell.replaceParametrics, fun _ => ⟨hwell.extractSubscripts, rfl⟩,
    fun _ => h.replaceBuiltins, by simp⟩

/-- Calls in brackets of another kind, a subscript of an argument, and a literal that holds a
bracket. -/
theorem passes_keep_wellFormed_nested :
    Clean "SELECT quantile(0.9)(m['a(']), [multiIf(p, now(), b)]" ∧
      ∀ pass ∈ Converter.standard Converter.defaultAliases,
        pass.name ∈ (["parametric_aggregates", "map_indexing", "builtin_functions"] : List Text) →
        (pass.run "SELECT quantile(0.9)(m['a(']), [multiIf(p, now(), b)]").sql.WellFormed ∧
        (pass.run "SELECT quantile(0.9)(m['a(']), [multiIf(p, now(), b)]").warnings = [] := by
  have hclean : Clean "SELECT quantile(0.9)(m['a(']), [multiIf(p, now(), b)]" := by
    decide +kernel
  exact ⟨hclean, passes_keep_wellFormed _ hclean⟩

end QueryBridge
