import QueryBridge.Proofs.Lexical.Resume
import QueryBridge.Proofs.Lexical.Word

/-!
# Calls that are found

A call is found at the first byte of code where its name stands with a parenthesis behind it, and its
arguments extend to the parenthesis that closes this one. So they hold as many closing parentheses as
opening ones, reading them leads from code back to code, and the scan goes on behind the call as if
there had been no search. If no call is found, no parenthesis closes the one at the first name, or the
name stands nowhere.
-/

namespace QueryBridge

open Text Cursor

namespace Cursor

/-! ### Brackets that are closed -/

/-- How many cursors of some code stand before a byte. -/
def tally (b : UInt8) (code : List Cursor) : Nat := code.countP (·.sees b)

/-- Code that closes `depth` brackets more than it opens, and never more on the way. -/
structure Balanced (opening closing : UInt8) (depth : Nat) (code : List Cursor) : Prop where
  bounded : ∀ first, first <+: code → tally closing first ≤ tally opening first + depth
  settled : tally closing code = tally opening code + depth

section Balanced

variable {opening closing : UInt8} {depth : Nat} {code : List Cursor} {c d : Cursor}

theorem tally_cons (b : UInt8) (c : Cursor) (code : List Cursor) :
    tally b (c :: code) = tally b code + if c.sees b then 1 else 0 := List.countP_cons

theorem balanced_nil (opening closing : UInt8) : Balanced opening closing 0 [] where
  bounded first hfirst := by
    rw [List.prefix_nil.mp hfirst]
    exact Nat.le_refl _
  settled := rfl

theorem balanced_cons_iff : Balanced opening closing depth (c :: code) ↔
    (∀ first, first <+: code → tally closing (c :: first) ≤ tally opening (c :: first) + depth) ∧
      tally closing (c :: code) = tally opening (c :: code) + depth := by
  constructor
  · intro h
    refine ⟨?_, h.settled⟩
    intro first hfirst
    exact h.bounded _ (List.cons_prefix_cons.mpr ⟨rfl, hfirst⟩)
  · rintro ⟨hbounded, hsettled⟩
    refine ⟨?_, hsettled⟩
    intro first hfirst
    rcases List.prefix_cons_iff.mp hfirst with rfl | ⟨rest, rfl, hrest⟩
    · exact Nat.zero_le _
    · exact hbounded rest hrest

/-- A first byte changes how many brackets the code behind it has to close. -/
theorem balanced_cons_iff_of_tally {later : Nat}
    (h : ∀ first, tally closing (c :: first) + later + tally opening first =
      tally closing first + depth + tally opening (c :: first)) :
    Balanced opening closing depth (c :: code) ↔ Balanced opening closing later code := by
  rw [balanced_cons_iff]
  constructor
  · rintro ⟨hbounded, hsettled⟩
    constructor
    · intro first hfirst
      have := hbounded first hfirst
      have := h first
      omega
    · have := h code
      omega
  · rintro ⟨hbounded, hsettled⟩
    constructor
    · intro first hfirst
      have := hbounded first hfirst
      have := h first
      omega
    · have := h code
      omega

theorem balanced_of_opening (hopens : c.sees opening = true) (hcloses : c.sees closing = false) :
    Balanced opening closing depth (c :: code) ↔ Balanced opening closing (depth + 1) code := by
  apply balanced_cons_iff_of_tally
  intro first
  simp only [tally_cons, hopens, hcloses, if_true, Bool.false_eq_true, if_false]
  omega

theorem balanced_of_closing (hopens : c.sees opening = false) (hcloses : c.sees closing = true) :
    Balanced opening closing (depth + 1) (c :: code) ↔ Balanced opening closing depth code := by
  apply balanced_cons_iff_of_tally
  intro first
  simp only [tally_cons, hopens, hcloses, if_true, Bool.false_eq_true, if_false]
  omega

theorem balanced_of_other (hopens : c.sees opening = false) (hcloses : c.sees closing = false) :
    Balanced opening closing depth (c :: code) ↔ Balanced opening closing depth code := by
  apply balanced_cons_iff_of_tally
  intro first
  simp only [tally_cons, hopens, hcloses, Bool.false_eq_true, if_false]
  omega

/-- Code does not begin with a closing bracket if it has none to close. -/
theorem not_balanced_of_closing (hopens : c.sees opening = false) (hcloses : c.sees closing = true) :
    ¬Balanced opening closing 0 (c :: code) := by
  intro h
  have hfirst := (balanced_cons_iff.mp h).1 [] List.nil_prefix
  simp [hopens, hcloses, tally] at hfirst

end Balanced

end Cursor

section Closing

variable {opening closing : UInt8} {depth : Nat} {code : List Cursor} {d : Cursor}

/-- A cursor of some code is the first one or stands behind it. -/
theorem exists_cons_append_iff {P : Cursor → List Cursor → Prop} {c : Cursor} :
    (∃ before behind, c :: code = before ++ d :: behind ∧ P d before) ↔
      (c = d ∧ P d []) ∨ ∃ before behind, code = before ++ d :: behind ∧ P d (c :: before) := by
  constructor
  · rintro ⟨_ | ⟨x, before⟩, behind, hsplit, hP⟩
    · obtain ⟨rfl, -⟩ := List.cons.inj hsplit
      exact .inl ⟨rfl, hP⟩
    · obtain ⟨rfl, rfl⟩ := List.cons.inj hsplit
      exact .inr ⟨before, behind, rfl, hP⟩
  · rintro (⟨rfl, hP⟩ | ⟨before, behind, rfl, hP⟩)
    · exact ⟨[], code, rfl, hP⟩
    · exact ⟨c :: before, behind, rfl, hP⟩

/-- The search for a closing bracket ends at the first one behind balanced code. -/
theorem closing?_eq_some_iff (hne : opening ≠ closing) :
    closing? opening closing (depth + 1) code = some d ↔
      ∃ before behind, code = before ++ d :: behind ∧
        d.sees closing = true ∧ Balanced opening closing depth before := by
  induction code generalizing depth with
  | nil => simp [closing?]
  | cons c code ih =>
    rw [exists_cons_append_iff
      (P := fun d before => d.sees closing = true ∧ Balanced opening closing depth before)]
    cases hcloses : c.sees closing with
    | false =>
      have hlater : ¬(c = d ∧ d.sees closing = true ∧ Balanced opening closing depth []) := by
        rintro ⟨rfl, hsees, -⟩
        rw [hsees] at hcloses
        cases hcloses
      rw [or_iff_right hlater]
      cases hopens : c.sees opening with
      | true =>
        rw [closing?_of_opening hopens, ih]
        simp only [balanced_of_opening hopens hcloses]
      | false =>
        rw [closing?_of_other hopens hcloses, ih]
        simp only [balanced_of_other hopens hcloses]
    | true =>
      have hopens : c.sees opening = false := by
        by_contra hopens
        exact hne (eq_of_sees (by simpa using hopens) hcloses)
      cases depth with
      | zero =>
        rw [closing?_of_last hopens hcloses, Option.some.injEq]
        constructor
        · rintro rfl
          exact .inl ⟨rfl, hcloses, balanced_nil opening closing⟩
        · rintro (⟨rfl, -⟩ | ⟨before, behind, -, -, hbalanced⟩)
          · rfl
          · exact absurd hbalanced (not_balanced_of_closing hopens hcloses)
      | succ depth =>
        have hlater :
            ¬(c = d ∧ d.sees closing = true ∧ Balanced opening closing (depth + 1) []) := by
          rintro ⟨-, -, hbalanced⟩
          have hsettled := hbalanced.settled
          simp only [tally, List.countP_nil] at hsettled
          omega
        rw [or_iff_right hlater, closing?_of_closing hopens hcloses, ih]
        simp only [balanced_of_closing hopens hcloses]

end Closing

/-! ### Where a name stands -/

/-- A text starts with a word if its first bytes are the letters of the word. -/
theorem Text.rest?_eq_some_iff {letters : LetterCase} {word text rest : Text} :
    rest? letters word text = some rest ↔
      List.Forall₂ (letters.same · · = true) word (text.take word.length) ∧
        rest = text.drop word.length := by
  induction word generalizing text with
  | nil =>
    rw [rest?, Option.some.injEq, eq_comm]
    exact (and_iff_right .nil).symm
  | cons w word ih =>
    cases text with
    | nil =>
      rw [rest?, List.take_nil]
      constructor
      · intro h
        cases h
      · rintro ⟨h, -⟩
        cases h
    | cons b text =>
      rw [rest?, Option.ite_none_right_eq_some, ih, List.length_cons, List.take_succ_cons,
        List.drop_succ_cons, List.forall₂_cons, and_assoc]

/-- A cursor stands behind no identifier if no identifier byte stands right before its offset. -/
theorem Cursor.LiesIn.followsIdent_eq_false_iff {c : Cursor} {text : Text} (h : c.LiesIn text) :
    c.followsIdent = false ↔
      ∀ before, before + 1 = c.offset → text[before]?.any Byte.isIdent = false := by
  constructor
  · intro hfollows before hbefore
    rw [← h.before_head?_eq hbefore]
    exact hfollows
  · intro hbefore
    cases hoffset : c.offset with
    | zero =>
      have hnil : c.before = [] := by
        rw [← List.length_eq_zero_iff, ← h.counted, hoffset]
      simp [followsIdent, hnil]
    | succ offset =>
      rw [followsIdent, h.before_head?_eq hoffset.symm]
      exact hbefore offset hoffset.symm

namespace Callee

/-- The name of a callee stands at an offset as that of a call. -/
structure StandsAt (callee : Callee) (text : Text) (place : Nat) : Prop where
  name : List.Forall₂ (callee.letters.same · · = true) callee.name
    (text.slice place (place + callee.name.length))
  starts : ∀ before, before + 1 = place → text[before]?.any Byte.isIdent = false
  opens : text[place + callee.name.length]? = some Byte.openParen

/-- The first place of some code where the name of a callee stands. -/
structure IsFirst (callee : Callee) (text : Text) (code : List Cursor) (place : Nat) : Prop where
  yielded : ∃ c ∈ code, c.offset = place
  stands : callee.StandsAt text place
  first : ∀ c ∈ code, callee.StandsAt text c.offset → place ≤ c.offset

variable {callee : Callee} {text : Text} {c o : Cursor}

theorem opening?_eq_some_iff (hne : callee.name ≠ []) (hlies : c.LiesIn text) :
    callee.opening? c = some o ↔
      callee.StandsAt text c.offset ∧ o = c.forward callee.name.length := by
  have hslice : text.slice c.offset (c.offset + callee.name.length) =
      c.after.take callee.name.length := by
    rw [slice, hlies.drop_eq, Nat.add_sub_cancel_left]
  have hbehind : text[c.offset + callee.name.length]? =
      (c.after.drop callee.name.length).head? := by
    rw [← hlies.drop_eq, List.drop_drop, List.head?_drop]
  have hguard (rest : Text) : (!callee.name.isEmpty && !c.followsIdent &&
      rest.head? == some Byte.openParen) = true ↔
        c.followsIdent = false ∧ rest.head? = some Byte.openParen := by
    simp [hne]
  unfold opening?
  constructor
  · intro h
    split at h
    · cases h
    next rest hrest =>
      obtain ⟨hname, rfl⟩ := rest?_eq_some_iff.mp hrest
      rw [Option.ite_none_right_eq_some, hguard] at h
      obtain ⟨⟨hfollows, hopens⟩, ho⟩ := h
      exact ⟨⟨hslice ▸ hname, hlies.followsIdent_eq_false_iff.mp hfollows, hbehind ▸ hopens⟩,
        (Option.some.inj ho).symm⟩
  · rintro ⟨⟨hname, hstarts, hopens⟩, rfl⟩
    rw [rest?_eq_some_iff.mpr ⟨hslice ▸ hname, rfl⟩]
    exact if_pos ((hguard _).mpr ⟨hlies.followsIdent_eq_false_iff.mpr hstarts, hbehind ▸ hopens⟩)

/-- A search ends at the first place where the name stands, or finds that it stands nowhere. -/
theorem search_spec (hne : callee.name ≠ []) {code : List Cursor}
    (hlies : ∀ c ∈ code, c.LiesIn text) (hsorted : code.Pairwise fun c d => c.offset < d.offset) :
    (callee.search code = .notFound ∧ ∀ c ∈ code, ¬callee.StandsAt text c.offset) ∨
      ∃ c ∈ code, callee.IsFirst text code c.offset ∧
        callee.search code =
          match (c.forward callee.name.length).closingParen? with
          | none => .unbalanced c.offset
          | some closing =>
            .found ⟨c.offset, (c.forward callee.name.length).offset, closing.offset⟩ := by
  induction code with
  | nil => exact .inl ⟨rfl, fun _ hc => nomatch hc⟩
  | cons c code ih =>
    obtain ⟨hc, hlies⟩ := List.forall_mem_cons.mp hlies
    obtain ⟨hlater, hsorted⟩ := List.pairwise_cons.mp hsorted
    rw [search]
    cases hopening : callee.opening? c with
    | none =>
      have hnot : ¬callee.StandsAt text c.offset := by
        intro hstands
        have := (opening?_eq_some_iff hne hc).mpr ⟨hstands, rfl⟩
        rw [hopening] at this
        cases this
      rcases ih hlies hsorted with ⟨hsearch, hnone⟩ | ⟨d, hd, hfirst, hsearch⟩
      · exact .inl ⟨hsearch, List.forall_mem_cons.mpr ⟨hnot, hnone⟩⟩
      · refine .inr ⟨d, List.mem_cons_of_mem _ hd, ?_, hsearch⟩
        refine ⟨⟨d, List.mem_cons_of_mem _ hd, rfl⟩, hfirst.stands, ?_⟩
        exact List.forall_mem_cons.mpr ⟨fun hstands => absurd hstands hnot, hfirst.first⟩
    | some opening =>
      obtain ⟨hstands, rfl⟩ := (opening?_eq_some_iff hne hc).mp hopening
      refine .inr ⟨c, List.mem_cons_self, ?_, rfl⟩
      refine ⟨⟨c, List.mem_cons_self, rfl⟩, hstands, ?_⟩
      refine List.forall_mem_cons.mpr ⟨fun _ => Nat.le_refl _, ?_⟩
      intro d hd _
      exact Nat.le_of_lt (hlater d hd)

end Callee

/-! ### What a call that is found holds -/

/-- The parentheses of a call belong to each other in the code of a scan. -/
structure CallSite.Closed (site : CallSite) (text : Text) (scan : List Cursor) : Prop where
  opening : ∃ c ∈ scan, c.offset = site.opening ∧ c.sees Byte.openParen = true
  closing : ∃ c ∈ scan, c.offset = site.closing ∧ c.sees Byte.closeParen = true
  /-- A scan of the arguments yields what the scan yields there. -/
  bounded : text.codeBetween (site.opening + 1) site.closing =
    stretch scan (site.opening + 1) site.closing
  /-- So does a scan of the arguments as a text of their own. -/
  alone : (text.slice (site.opening + 1) site.closing).code.map (spot (site.opening + 1)) =
    (stretch scan (site.opening + 1) site.closing).map (spot 0)
  /-- The arguments end in code. -/
  isSealed : (text.slice (site.opening + 1) site.closing).Sealed
  balanced : Balanced Byte.openParen Byte.closeParen 0
    (stretch scan (site.opening + 1) site.closing)
  /-- A scan behind the call yields what is left of the scan. -/
  resumed : (text.cursor site.stop).code = scan.filter fun c => site.stop ≤ c.offset

/-- The code of a list of cursors that a later one follows is what stands before this one. -/
theorem Cursor.eq_filter_of_append {before behind : List Cursor} {d : Cursor}
    (h : (before ++ d :: behind).Pairwise fun c d => c.offset < d.offset) :
    before = (before ++ d :: behind).filter fun c => c.offset < d.offset := by
  obtain ⟨-, hbehind, hbefore⟩ := List.pairwise_append.mp h
  have hnone : (d :: behind).filter (fun c => c.offset < d.offset) = [] := by
    refine List.filter_eq_nil_iff.mpr (List.forall_mem_cons.mpr ⟨by simp, ?_⟩)
    intro c hc
    have := (List.pairwise_cons.mp hbehind).1 c hc
    simp only [decide_eq_true_eq]
    omega
  have hall : before.filter (fun c => c.offset < d.offset) = before := by
    refine List.filter_eq_self.mpr ?_
    intro c hc
    exact decide_eq_true (hbefore c hc d List.mem_cons_self)
  rw [List.filter_append, hnone, hall, List.append_nil]

/-- What is left of some code, up to an offset, is a stretch of it. -/
theorem Cursor.filter_filter_eq_stretch (code : List Cursor) (first last : Nat) :
    (code.filter fun c => first ≤ c.offset).filter (fun c => c.offset < last) =
      stretch code first last := by
  rw [List.filter_filter, stretch]
  refine List.filter_congr ?_
  intro c _
  rw [Bool.and_comm]

/-- The bytes between two places of a text are the slice between their offsets. -/
theorem Cursor.Moves.eq_slice {c d : Cursor} {run text : Text} (h : c.Moves run d)
    (hlies : c.LiesIn text) : run = text.slice c.offset d.offset := by
  rw [slice, hlies.drop_eq, h.after_eq, h.offset_eq, Nat.add_sub_cancel_left, List.take_left]

/-- Behind an opening parenthesis its closing one is searched with one left to close. -/
theorem Cursor.closingParen?_eq {o : Cursor} (h : o.sees Byte.openParen = true) :
    o.closingParen? = closing? Byte.openParen Byte.closeParen 1 (o.forward 1).code := by
  rw [closingParen?, code_cons (beq_iff_eq.mp h) (by decide), closing?_of_opening h]

/-- Reading leads over an opening parenthesis. -/
theorem Cursor.ReadsTo.behind_paren {c o : Cursor} (h : c.ReadsTo o)
    (hsees : o.sees Byte.openParen = true) :
    c.ReadsTo (o.forward 1) ∧ (o.forward 1).offset = o.offset + 1 := by
  have hmem : o ∈ o.code := (ReadsTo.refl o).mem_of_sees hsees (by decide)
  exact ⟨h.trans (.forward_of_mem hmem), offset_forward_of_mem hmem⟩

/-- A stretch of some code is a stretch of what is left of it from an earlier place on. -/
theorem Cursor.stretch_filter (code : List Cursor) {start first : Nat} (hle : start ≤ first)
    (last : Nat) :
    stretch (code.filter fun c => start ≤ c.offset) first last = stretch code first last := by
  rw [stretch, List.filter_filter, stretch]
  refine List.filter_congr ?_
  intro c _
  apply Bool.eq_iff_iff.mpr
  simp only [Bool.and_eq_true, decide_eq_true_eq]
  omega

section Parenthesis

variable {text : Text} {o d : Cursor} {start : Nat}

/-- A parenthesis of code and the one that closes it enclose code that is read by itself. -/
theorem CallSite.closed_of_closingParen? {site : CallSite}
    (hreads : (text.cursor start).ReadsTo o) (hsees : o.sees Byte.openParen = true)
    (hclosing : o.closingParen? = some d) (ho : o.offset = site.opening)
    (hd : d.offset = site.closing) : site.Closed text (text.cursor start).code := by
  obtain ⟨hbehind, hfirst⟩ := hreads.behind_paren hsees
  rw [closingParen?_eq hsees] at hclosing
  obtain ⟨before, behind, hsplit, hcloses, hbalanced⟩ :=
    (closing?_eq_some_iff (by decide)).mp hclosing
  have hmem : d ∈ (o.forward 1).code := by
    rw [hsplit]
    exact List.mem_append_right _ List.mem_cons_self
  have hlies := hbehind.reaches.liesIn (liesIn_cursor text start)
  have hlast := hbehind.trans (.forward_of_mem hmem)
  have hwithin : (o.forward 1).code.filter (fun c => c.offset < site.closing) =
      stretch (text.cursor start).code (site.opening + 1) site.closing := by
    rw [hbehind.code_eq, filter_filter_eq_stretch, hfirst, ho]
  have hinner : before = stretch (text.cursor start).code (site.opening + 1) site.closing := by
    rw [← hwithin, ← hd, hsplit]
    exact eq_filter_of_append (hsplit ▸ pairwise_codeFrom)
  obtain ⟨run, hmoves⟩ := (ReadsTo.of_mem hmem).reaches
  obtain ⟨hsealed, hspots⟩ := (ReadsTo.of_mem hmem).alone hmoves
  obtain rfl := hmoves.eq_slice hlies
  rw [hfirst, ho, hd] at hsealed hspots
  rw [hwithin] at hspots
  have hstop : (d.forward 1).offset = site.stop := by
    rw [offset_forward_of_mem hmem, hd, stop]
  exact {
    opening := ⟨o, hreads.mem_of_sees hsees (by decide), ho, hsees⟩
    closing := ⟨d, (hbehind.trans (.of_mem hmem)).mem_of_sees hcloses (by decide), hd, hcloses⟩
    bounded := by
      rw [codeBetween_eq_filter, ← hwithin, ← ho, ← hfirst, ← hlies.eq_cursor]
    alone := hspots
    isSealed := hsealed
    balanced := hinner ▸ hbalanced
    resumed := by
      rw [← hstop]
      exact resumesAt_of_readsTo hlast }

/-- Code behind a parenthesis that is never closed has no balanced part before a closing one. -/
theorem Cursor.not_balanced_of_closingParen? (hreads : (text.cursor start).ReadsTo o)
    (hsees : o.sees Byte.openParen = true) (hclosing : o.closingParen? = none)
    (hd : d ∈ (text.cursor start).code) (hlt : o.offset < d.offset)
    (hcloses : d.sees Byte.closeParen = true) :
    ¬Balanced Byte.openParen Byte.closeParen 0
      (stretch (text.cursor start).code (o.offset + 1) d.offset) := by
  obtain ⟨hbehind, hfirst⟩ := hreads.behind_paren hsees
  intro hbalanced
  have hmem : d ∈ (o.forward 1).code := by
    rw [hbehind.code_eq, hfirst]
    exact List.mem_filter.mpr ⟨hd, decide_eq_true hlt⟩
  obtain ⟨before, behind, hsplit⟩ := List.append_of_mem hmem
  have hsorted : (o.forward 1).code.Pairwise fun c d => c.offset < d.offset := pairwise_codeFrom
  have hinner := eq_filter_of_append (hsplit ▸ hsorted)
  rw [← hsplit, hbehind.code_eq, filter_filter_eq_stretch, hfirst] at hinner
  have hsome := (closing?_eq_some_iff (by decide)).mpr
    ⟨before, behind, hsplit, hcloses, hinner ▸ hbalanced⟩
  rw [← closingParen?_eq hsees, hclosing] at hsome
  cases hsome

/-- A call that is closed for the scan from a place in code is closed for the whole text. -/
theorem CallSite.Closed.whole {site : CallSite} (h : site.Closed text (text.cursor start).code)
    (hresumes : text.ResumesAt 0 start) : site.Closed text text.code := by
  have hscan : (text.cursor start).code = text.code.filter fun c => start ≤ c.offset := hresumes
  obtain ⟨o, ho, hopening, hsees⟩ := h.opening
  obtain ⟨d, hd, hclosing, hcloses⟩ := h.closing
  have hstart : start ≤ site.opening := hopening ▸ (bounds_of_mem_code ho).2.1
  have hstop : start ≤ site.stop := Nat.le_succ_of_le (hclosing ▸ (bounds_of_mem_code hd).2.1)
  have hstretch : stretch (text.cursor start).code (site.opening + 1) site.closing =
      stretch text.code (site.opening + 1) site.closing := by
    rw [hscan, stretch_filter _ (Nat.le_succ_of_le hstart)]
  rw [hscan] at ho hd
  exact {
    opening := ⟨o, (List.mem_filter.mp ho).1, hopening, hsees⟩
    closing := ⟨d, (List.mem_filter.mp hd).1, hclosing, hcloses⟩
    bounded := h.bounded.trans hstretch
    alone := hstretch ▸ h.alone
    isSealed := h.isSealed
    balanced := hstretch ▸ h.balanced
    resumed := hresumes.trans h.resumed hstop }

end Parenthesis

/-- The parenthesis of a call is reached from any place before its name. -/
theorem Callee.StandsAt.readsTo {callee : Callee} {text : Text} {start : Nat} {c : Cursor}
    (h : callee.StandsAt text c.offset) (hword : callee.IsWord) (hne : callee.name ≠ [])
    (hc : c ∈ (text.cursor start).code) :
    (text.cursor start).ReadsTo (c.forward callee.name.length) ∧
      (c.forward callee.name.length).sees Byte.openParen = true ∧
      (c.forward callee.name.length).offset = c.offset + callee.name.length := by
  have hlies := (bounds_of_mem_code hc).1
  obtain ⟨-, run, hmoves, hident⟩ :=
    opening?_moves hword ((opening?_eq_some_iff hne hlies).mpr ⟨h, rfl⟩)
  have hplain : ∀ b ∈ run, Byte.isPlain b = true := by
    intro b hb
    exact Byte.isPlain_of_isIdent (hident b hb)
  have hoffset : (c.forward callee.name.length).offset = c.offset + callee.name.length := by
    obtain ⟨hlt, -⟩ := List.getElem?_eq_some_iff.mp h.opens
    rw [forward, ← hlies.drop_eq, List.length_take, List.length_drop]
    dsimp only
    omega
  refine ⟨(ReadsTo.of_mem hc).trans (.of_isPlain hmoves hplain), ?_, hoffset⟩
  rw [sees, (hlies.forward _).byte?_eq, hoffset, h.opens]
  exact beq_self_eq_true _

/-- A call that a search finds begins at the first code with its name, and its parentheses close each
other in the scan; if the search begins in code, they do so in the scan of the whole text. If a name
is found without a call, it is the first one too, and nothing closes its parenthesis. Otherwise there
is no such name. -/
theorem findCall_closed (text : Text) (callee : Callee) (start : Nat) (hne : callee.name ≠ [])
    (hword : callee.IsWord) :
    match text.findCall callee start with
    | .found site =>
      callee.IsFirst text (text.cursor start).code site.start ∧
        site.opening = site.start + callee.name.length ∧
        site.Closed text (text.cursor start).code ∧
        (text.ResumesAt 0 start → site.Closed text text.code)
    | .unbalanced place =>
      callee.IsFirst text (text.cursor start).code place ∧
        ∀ d ∈ (text.cursor start).code, d.sees Byte.closeParen = true →
          place + callee.name.length < d.offset →
          ¬Balanced Byte.openParen Byte.closeParen 0
            (stretch (text.cursor start).code (place + callee.name.length + 1) d.offset)
    | .notFound => ∀ c ∈ (text.cursor start).code, ¬callee.StandsAt text c.offset := by
  have hlies : ∀ c ∈ (text.cursor start).code, c.LiesIn text := by
    intro c hc
    exact (bounds_of_mem_code hc).1
  rcases callee.search_spec hne hlies pairwise_codeFrom with
    ⟨hsearch, hnone⟩ | ⟨c, hc, hfirst, hsearch⟩
  · rw [findCall, hsearch]
    exact hnone
  · obtain ⟨hreads, hsees, hoffset⟩ := hfirst.stands.readsTo hword hne hc
    rw [findCall, hsearch]
    cases hclosing : (c.forward callee.name.length).closingParen? with
    | none =>
      refine ⟨hfirst, ?_⟩
      intro d hd hcloses hlt
      rw [← hoffset]
      exact not_balanced_of_closingParen? hreads hsees hclosing hd (hoffset ▸ hlt) hcloses
    | some d =>
      have hclosed : CallSite.Closed
          ⟨c.offset, (c.forward callee.name.length).offset, d.offset⟩ text
          (text.cursor start).code :=
        CallSite.closed_of_closingParen? hreads hsees hclosing rfl rfl
      exact ⟨hfirst, hoffset, hclosed, hclosed.whole⟩

/-- A call in other letters, with parentheses in a literal and in a comment. -/
theorem findCall_closed_folded :
    let text : Text := "xIF(1) + If(a, ')', /* ( */ (b)) -- if(\n"
    let callee : Callee := ⟨"if", .folded⟩
    callee.name ≠ [] ∧ callee.IsWord ∧ text.ResumesAt 0 2 ∧
      callee.IsFirst text (text.cursor 2).code 9 ∧
      CallSite.Closed ⟨9, 11, 31⟩ text (text.cursor 2).code ∧
      CallSite.Closed ⟨9, 11, 31⟩ text text.code := by
  intro text callee
  have hne : callee.name ≠ [] := by decide
  have hword : callee.IsWord := by decide
  have hresumes : text.ResumesAt 0 2 := resumesAt_of_modeAt (by decide +kernel)
  have hfound : text.findCall callee 2 = .found ⟨9, 11, 31⟩ := by decide +kernel
  have h := findCall_closed text callee 2 hne hword
  rw [hfound] at h
  obtain ⟨hfirst, -, hclosed, hwhole⟩ := h
  exact ⟨hne, hword, hresumes, hfirst, hclosed, hwhole hresumes⟩

/-- A search may begin within a literal. It then takes a name in the literal for that of a call, and
the arguments hold code of which a scan of the whole text knows nothing. -/
theorem findCall_within_literal :
    let text : Text := "'f(1)'"
    text.findCall ⟨"f", .exact⟩ 1 = .found ⟨1, 2, 4⟩ ∧
      (text.codeBetween 3 4).map (·.offset) = [3] ∧ stretch text.code 3 4 = [] ∧
      ¬CallSite.Closed ⟨1, 2, 4⟩ text text.code := by
  intro text
  have halone : (text.codeBetween 3 4).map (·.offset) = [3] := by decide +kernel
  have hwhole : stretch text.code 3 4 = [] := by decide +kernel
  refine ⟨by decide +kernel, halone, hwhole, ?_⟩
  intro hclosed
  have hbounded : text.codeBetween 3 4 = stretch text.code 3 4 := hclosed.bounded
  rw [hbounded, hwhole] at halone
  cases halone

end QueryBridge
