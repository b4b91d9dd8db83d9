import QueryBridge.Proofs.Conversion.Calls
import QueryBridge.Proofs.Lexical.Word
import QueryBridge.Proofs.Phrase.Rewrite

/-!
# Calls that are never closed

A call without a closing parenthesis is reported with its place, and from there on the statement is
left as it is. The arguments of the calls before it are converted on their own, and what is reported
of an argument is a place in that argument: in the statement every call that starts so early is
closed. So the warnings tell of the statement exactly if none of them stems from an argument.
-/

namespace QueryBridge

open Text Edit

/-! ### Brackets inside brackets -/

section Closing

variable {opening closing : UInt8} {code rest : List Cursor} {c d : Cursor} {depth fewer : Nat}

/-- Fewer open brackets are closed no later. -/
theorem isSome_closing?_of_le (hpos : 1 ≤ fewer) (hle : fewer ≤ depth)
    (h : (closing? opening closing depth code).isSome = true) :
    (closing? opening closing fewer code).isSome = true := by
  induction code generalizing depth fewer with
  | nil => simp [closing?] at h
  | cons c code ih =>
    cases hopens : c.sees opening with
    | true =>
      rw [closing?_of_opening hopens] at h ⊢
      exact ih (Nat.le_add_left _ _) (Nat.succ_le_succ hle) h
    | false =>
      cases hcloses : c.sees closing with
      | false =>
        rw [closing?_of_other hopens hcloses] at h ⊢
        exact ih hpos hle h
      | true =>
        obtain rfl | hlt := hpos.eq_or_lt
        · rw [closing?_of_last hopens hcloses, Option.isSome_some]
        · obtain ⟨fewer, rfl⟩ := Nat.exists_eq_add_of_le' hlt
          obtain ⟨depth, rfl⟩ := Nat.exists_eq_add_of_le' (Nat.le_trans hlt hle)
          rw [closing?_of_closing hopens hcloses] at h ⊢
          exact ih (Nat.le_add_left _ _) (Nat.le_of_succ_le_succ hle) h

/-- A bracket that opens before another one is closed is closed itself. -/
theorem isSome_closing?_of_inside {before : List Cursor} (hopens : c.sees opening = true)
    (h : closing? opening closing depth (before ++ c :: rest) = some d) (hd : d ∉ before) :
    (closing? opening closing 0 (c :: rest)).isSome = true := by
  induction before generalizing depth with
  | nil =>
    rw [List.nil_append, closing?_of_opening hopens] at h
    rw [closing?_of_opening hopens]
    exact isSome_closing?_of_le (Nat.le_refl _) (Nat.le_add_left _ _)
      (Option.isSome_of_eq_some h)
  | cons x before ih =>
    rw [List.cons_append] at h
    obtain ⟨hne, hd⟩ := not_or.mp (List.mem_cons.not.mp hd)
    cases hxopens : x.sees opening with
    | true =>
      rw [closing?_of_opening hxopens] at h
      exact ih h hd
    | false =>
      cases hxcloses : x.sees closing with
      | false =>
        rw [closing?_of_other hxopens hxcloses] at h
        exact ih h hd
      | true =>
        match depth with
        | 0 =>
          rw [closing?_of_none hxopens hxcloses] at h
          cases h
        | 1 =>
          rw [closing?_of_last hxopens hxcloses] at h
          exact absurd (Option.some.inj h).symm hne
        | depth + 2 =>
          rw [closing?_of_closing hxopens hxcloses] at h
          exact ih h hd

/-- A parenthesis between another one and its closing parenthesis is closed. -/
theorem Cursor.isSome_closingParen?_of_inside {text : Text} {e : Cursor} (hc : c ∈ text.code)
    (hclosing : c.closingParen? = some d) (he : e ∈ text.code)
    (hopens : e.sees Byte.openParen = true) (hfrom : c.offset ≤ e.offset)
    (hto : e.offset < d.offset) : e.closingParen?.isSome = true := by
  obtain ⟨hlies, hcode⟩ := Text.mem_code.mp hc
  obtain ⟨helies, hecode⟩ := Text.mem_code.mp he
  have hmem : e ∈ c.code :=
    (Cursor.mem_code hlies (mode_eq_code_of_isCode hcode)).mpr ⟨helies, hecode, hfrom⟩
  obtain ⟨b, hb, hplain⟩ : ∃ b, e.byte? = some b ∧ Byte.isPlain b = true :=
    ⟨Byte.openParen, beq_iff_eq.mp hopens, by decide⟩
  obtain ⟨before, hsplit⟩ := code_suffix_of_mem hmem
  have hhead := code_cons hb hplain
  have hsorted : (before ++ e.code).Pairwise fun c d => c.offset < d.offset := by
    rw [hsplit]
    exact pairwise_codeFrom
  have hbefore : d ∉ before := by
    intro hd
    have := (List.pairwise_append.mp hsorted).2.2 d hd e (by rw [hhead]; exact List.mem_cons_self)
    omega
  rw [closingParen?, code, ← hsplit, hhead] at hclosing
  rw [closingParen?, hhead]
  exact isSome_closing?_of_inside hopens hclosing hbefore

end Closing

/-! ### Reported calls -/

namespace Callee

variable {callee : Callee} {render : List Text → Text} {text : Text} {code : List Cursor}
  {place offset : Nat}

/-- A call at an offset, in code, whose parenthesis is never closed. -/
def NeverClosedAt (callee : Callee) (text : Text) (offset : Nat) : Prop :=
  ∃ c ∈ text.code, c.offset = offset ∧
    ∃ opening, callee.opening? c = some opening ∧ opening.closingParen? = none

/-- A call that is never closed, from which on the result is the statement. -/
structure LeftAlone (callee : Callee) (text out : Text) (offset : Nat) : Prop where
  never_closed : callee.NeverClosedAt text offset
  suffix : text.drop offset <:+ out

/-- The statement, the arguments of its calls, the arguments of the calls in these, and so on. -/
inductive Reads (callee : Callee) : Text → Text → Prop
  | self (text : Text) : Reads callee text text
  | argument {text argument part : Text} {site : CallSite} (hsite : site ∈ callee.calls text)
    (hargument : argument ∈ site.arguments text) (h : Reads callee argument part) :
    Reads callee text part

/-- The warnings about the arguments of the calls of a statement. -/
def inner (callee : Callee) (render : List Text → Text) (text : Text) : List Warning :=
  (callee.calls text).flatMap fun site => (site.arguments text).flatMap fun argument =>
    (replaceCalls callee render argument).warnings

theorem Reads.length_le {part : Text} (h : callee.Reads text part) : part.length ≤ text.length := by
  induction h with
  | self => exact Nat.le_refl _
  | argument _ hargument _ ih =>
    exact Nat.le_trans ih (Nat.le_of_lt (CallSite.length_lt_of_mem_arguments hargument))

theorem NeverClosedAt.lt_length (h : callee.NeverClosedAt text offset) : offset < text.length := by
  obtain ⟨c, hc, rfl, -⟩ := h
  exact lt_length_of_mem_code hc

theorem reaches_of_opening? {c o : Cursor} (h : callee.opening? c = some o) : c.Reaches o := by
  unfold opening? at h
  split at h
  · cases h
  · simp only [Option.ite_none_right_eq_some, Option.some.injEq] at h
    rw [← h.2]
    exact Cursor.reaches_forward c _

/-- The search for calls ends at a call that is never closed, behind the calls it has found. -/
theorem neverClosedAt_of_survey (hcode : ∀ c ∈ code, c ∈ text.code)
    (h : (callee.survey place code).unbalanced = some offset) :
    callee.NeverClosedAt text offset ∧ place ≤ offset ∧
      ∀ site ∈ (callee.survey place code).calls, site.stop ≤ offset := by
  fun_induction survey callee place code with
  | case1 => cases h
  | case2 place c code hlt ih => exact ih (List.forall_mem_cons.mp hcode).2 h
  | case3 place c code hge hopening ih => exact ih (List.forall_mem_cons.mp hcode).2 h
  | case4 place c code hge opening hopening hclosing =>
    obtain rfl := Option.some.inj h
    exact ⟨⟨c, hcode c List.mem_cons_self, rfl, opening, hopening, hclosing⟩,
      Nat.le_of_not_lt hge, by simp⟩
  | case5 place c code hge opening hopening closing hclosing site ih =>
    obtain ⟨hclosed, hle, hbehind⟩ := ih (List.forall_mem_cons.mp hcode).2 h
    have hopens := (reaches_of_opening? hopening).offset_le
    have hcloses := (Cursor.reaches_of_mem_code (mem_of_closing? hclosing).1).offset_le
    refine ⟨hclosed, ?_, List.forall_mem_cons.mpr ⟨hle, hbehind⟩⟩
    have hstop : site.stop = closing.offset + 1 := rfl
    omega

/-- The parenthesis of a call stands before every later word. -/
theorem lt_of_opening? (hword : callee.IsWord) {c d o : Cursor} (hc : c.LiesIn text)
    (hd : d.LiesIn text) (h : callee.opening? c = some o) (hlt : c.offset < d.offset)
    (hstarts : d.followsIdent = false) : o.offset < d.offset := by
  obtain ⟨-, run, hmoves, hrun⟩ := opening?_moves hword h
  by_contra hge
  have hbefore : text[d.offset - 1]?.any Byte.isIdent = true :=
    hmoves.any_of_between hc hrun (by omega) (by omega)
  rw [Cursor.followsIdent, hd.before_head?_eq (Nat.sub_add_cancel (by omega)), hbefore] at hstarts
  cases hstarts

/-- The parenthesis of a call stands before every later one that closes. -/
theorem lt_of_opening?_of_closes (hword : callee.IsWord) {c d o : Cursor} (hc : c ∈ text.code)
    (hd : d.LiesIn text) (h : callee.opening? c = some o) (hle : c.offset ≤ d.offset)
    (hcloses : d.sees Byte.closeParen = true) : o.offset < d.offset := by
  obtain ⟨ho, hopens, -⟩ := opening?_spec hword hc h
  obtain ⟨-, run, hmoves, hrun⟩ := opening?_moves hword h
  have hbyte : d.byte? = some Byte.closeParen := beq_iff_eq.mp hcloses
  rcases Nat.lt_trichotomy o.offset d.offset with hlt | heq | hgt
  · exact hlt
  · rw [(mem_code.mp ho).1.ext hd heq, Cursor.sees, hbyte] at hopens
    exact absurd hopens (by decide)
  · have hident := hmoves.any_of_between (mem_code.mp hc).1 hrun hle hgt
    rw [← hd.byte?_eq, hbyte] at hident
    exact absurd hident (by decide)

/-- Within the parentheses of a closed call every call is closed. -/
theorem isSome_closingParen?_of_within (hword : callee.IsWord) {first firstOpening closing c
    opening : Cursor} (hfirst : first ∈ text.code) (hc : c ∈ text.code)
    (hbehind : first.offset < c.offset) (hinside : c.offset ≤ closing.offset)
    (hfirstOpening : callee.opening? first = some firstOpening)
    (hfirstClosing : firstOpening.closingParen? = some closing)
    (hopening : callee.opening? c = some opening) : opening.closingParen?.isSome = true := by
  obtain ⟨hlies, -⟩ := mem_code.mp hc
  obtain ⟨hmem, hopens, -⟩ := opening?_spec hword hfirst hfirstOpening
  obtain ⟨hlast, hcloses, -⟩ := Cursor.closingParen?_spec hmem hopens hfirstClosing
  obtain ⟨hopening', hopens', hlt⟩ := opening?_spec hword hc hopening
  have hbefore : firstOpening.offset < c.offset :=
    lt_of_opening? hword (mem_code.mp hfirst).1 hlies hfirstOpening hbehind
      (opening?_moves hword hopening).1
  have hwithin : opening.offset < closing.offset :=
    lt_of_opening?_of_closes hword hc (mem_code.mp hlast).1 hopening hinside hcloses
  exact Cursor.isSome_closingParen?_of_inside hmem hfirstClosing hopening' hopens' (by omega)
    hwithin

/-- A call that is never closed stands behind all calls that are found: inside one of them it would
be closed. -/
theorem stop_le_of_neverClosed (hword : callee.IsWord) (hcode : ∀ c ∈ code, c ∈ text.code)
    (hsorted : code.Pairwise fun c d => c.offset < d.offset) {c opening : Cursor} (hc : c ∈ code)
    (hplace : place ≤ c.offset) (hopening : callee.opening? c = some opening)
    (hclosing : opening.closingParen? = none) :
    ∀ site ∈ (callee.survey place code).calls, site.stop ≤ c.offset := by
  fun_induction survey callee place code with
  | case1 => cases hc
  | case2 place first code hlt ih =>
    rcases List.mem_cons.mp hc with rfl | hc
    · omega
    · exact ih (List.forall_mem_cons.mp hcode).2 hsorted.of_cons hc hplace
  | case3 place first code hge hnone ih =>
    rcases List.mem_cons.mp hc with rfl | hc
    · rw [hnone] at hopening
      cases hopening
    · exact ih (List.forall_mem_cons.mp hcode).2 hsorted.of_cons hc hplace
  | case4 => simp
  | case5 place first code hge firstOpening hfirstOpening closing hfirstClosing site ih =>
    obtain ⟨hfirst, hcode⟩ := List.forall_mem_cons.mp hcode
    obtain ⟨hbehind, hsorted⟩ := List.pairwise_cons.mp hsorted
    rcases List.mem_cons.mp hc with rfl | hc
    · rw [hfirstOpening] at hopening
      rw [Option.some.inj hopening, hclosing] at hfirstClosing
      cases hfirstClosing
    have hstop : site.stop ≤ c.offset := by
      by_contra hinside
      have hclosed := isSome_closingParen?_of_within hword hfirst (hcode c hc) (hbehind c hc)
        (Nat.le_of_not_lt hinside) hfirstOpening hfirstClosing hopening
      rw [hclosing] at hclosed
      cases hclosed
    exact List.forall_mem_cons.mpr ⟨hstop, ih hcode hsorted hc hstop⟩

variable (callee render text)

/-- What is reported of a statement is what is reported of the arguments of its calls, and the call
at which the search for calls ends. -/
theorem warnings_replaceCalls :
    (replaceCalls callee render text).warnings =
      callee.inner render text ++ callee.warnings (callee.survey 0 text.code).unbalanced := by
  rw [Phrase.replaceCalls_eq]
  rfl

variable {callee text}

/-- From the call at which the search ends the statement is left as it is. -/
theorem leftAlone_of_survey (h : (callee.survey 0 text.code).unbalanced = some offset) :
    callee.LeftAlone text (replaceCalls callee render text).sql offset := by
  obtain ⟨hclosed, hplace, hstop⟩ := neverClosedAt_of_survey (fun _ hc => hc) h
  refine ⟨hclosed, ?_⟩
  rw [Phrase.replaceCalls_eq]
  refine drop_suffix_spliceFrom hplace fun edit hedit => ?_
  obtain ⟨site, hsite, rfl⟩ := List.mem_map.mp hedit
  exact hstop site hsite

/-- Every report is about a call that is never closed in the statement or in an argument. -/
theorem exists_reads_of_mem_warnings {warning : Warning}
    (h : warning ∈ (replaceCalls callee render text).warnings) :
    ∃ part offset, callee.Reads text part ∧ warning = .unbalanced callee.name offset ∧
      callee.LeftAlone part (replaceCalls callee render part).sql offset := by
  induction hlength : text.length using Nat.strong_induction_on generalizing text with
  | h length ih =>
    subst hlength
    rw [warnings_replaceCalls] at h
    rcases List.mem_append.mp h with hinner | hown
    · obtain ⟨site, hsite, hinner⟩ := List.mem_flatMap.mp hinner
      obtain ⟨argument, hargument, hwarning⟩ := List.mem_flatMap.mp hinner
      obtain ⟨part, offset, hreads, heq, halone⟩ :=
        ih _ (CallSite.length_lt_of_mem_arguments hargument) hwarning rfl
      exact ⟨part, offset, .argument hsite hargument hreads, heq, halone⟩
    · obtain ⟨offset, hoffset, rfl⟩ := List.mem_map.mp hown
      exact ⟨text, offset, .self text, rfl,
        leftAlone_of_survey render (Option.mem_toList.mp hoffset)⟩

/-- The places reported of an argument stand inside a call that is closed. -/
theorem not_leftAlone_of_inner (hword : callee.IsWord) {out : Text}
    (h : .unbalanced callee.name offset ∈ callee.inner render text) :
    ¬callee.LeftAlone text out offset := by
  rintro ⟨⟨c, hc, rfl, opening, hopening, hclosing⟩, -⟩
  obtain ⟨site, hsite, hinner⟩ := List.mem_flatMap.mp h
  obtain ⟨argument, hargument, hwarning⟩ := List.mem_flatMap.mp hinner
  obtain ⟨part, offset, hreads, heq, halone⟩ := exists_reads_of_mem_warnings render hwarning
  obtain ⟨-, rfl⟩ := Warning.unbalanced.inj heq
  have hstop : site.stop ≤ c.offset :=
    stop_le_of_neverClosed hword (fun _ hc => hc) (pairwise_code text) hc (Nat.zero_le _) hopening
      hclosing site hsite
  have hlt : c.offset < part.length := halone.never_closed.lt_length
  have hpart : part.length ≤ argument.length := hreads.length_le
  have hlist : argument.length ≤ site.closing :=
    length_le_of_mem_arguments ((calls_spec hword text).1 site hsite).closed hargument
  have : site.stop = site.closing + 1 := rfl
  omega

variable (callee text)

/-- Every report is about a call that is never closed, and from which on the text is left as it is,
in the statement or in an argument of a call. All reports are about such calls of the statement
exactly if none stems from an argument. -/
theorem leftAlone_iff_inner :
    (∀ warning ∈ (replaceCalls callee render text).warnings,
        ∃ part offset, callee.Reads text part ∧ warning = .unbalanced callee.name offset ∧
          callee.LeftAlone part (replaceCalls callee render part).sql offset) ∧
      (∀ offset, (callee.survey 0 text.code).unbalanced = some offset →
        .unbalanced callee.name offset ∈ (replaceCalls callee render text).warnings ∧
          callee.LeftAlone text (replaceCalls callee render text).sql offset) ∧
      (callee.IsWord →
        ((∀ offset, .unbalanced callee.name offset ∈ (replaceCalls callee render text).warnings →
            callee.LeftAlone text (replaceCalls callee render text).sql offset) ↔
          callee.inner render text = [])) := by
  have hown (offset : Nat) (h : .unbalanced callee.name offset ∈
      callee.warnings (callee.survey 0 text.code).unbalanced) :
      callee.LeftAlone text (replaceCalls callee render text).sql offset := by
    obtain ⟨found, hfound, heq⟩ := List.mem_map.mp h
    obtain ⟨-, rfl⟩ := Warning.unbalanced.inj heq
    exact leftAlone_of_survey render (Option.mem_toList.mp hfound)
  refine ⟨fun _ h => exists_reads_of_mem_warnings render h, fun offset h => ?_, fun hword => ?_⟩
  · refine ⟨?_, leftAlone_of_survey render h⟩
    rw [warnings_replaceCalls, h]
    exact List.mem_append_right _ (List.mem_singleton_self _)
  · rw [warnings_replaceCalls]
    constructor
    · intro hall
      refine List.eq_nil_iff_forall_not_mem.mpr fun warning hinner => ?_
      obtain ⟨part, offset, -, rfl, -⟩ := exists_reads_of_mem_warnings render
        (by rw [warnings_replaceCalls]; exact List.mem_append_left _ hinner)
      exact not_leftAlone_of_inner render hword hinner
        (hall offset (List.mem_append_left _ hinner))
    · intro hinner offset hoffset
      rw [hinner, List.nil_append] at hoffset
      exact hown offset hoffset

/-- A call without a closing parenthesis is left alone behind the calls that are replaced. A bracket
that closes nothing lets a comma inside a call divide the arguments of the call around it, and what
is reported then is no place of the statement. -/
theorem leftAlone_unclosed_bracket :
    LeftAlone ⟨"any", .exact⟩ "SELECT any(x), any(y FROM t"
        "SELECT any_value(x), any(y FROM t" 15 ∧
      replaceCalls ⟨"any", .exact⟩ (Rule.exact "any" (.rename "any_value")).apply
          "SELECT any(] any(a, b)) FROM t" =
        ⟨"SELECT any_value(] any(a, b)) FROM t", [.unbalanced "any" 2]⟩ ∧
      ¬LeftAlone ⟨"any", .exact⟩ "SELECT any(] any(a, b)) FROM t"
        "SELECT any_value(] any(a, b)) FROM t" 2 := by
  have hopen : (replaceCalls ⟨"any", .exact⟩ (Rule.exact "any" (.rename "any_value")).apply
      "SELECT any(x), any(y FROM t").sql = "SELECT any_value(x), any(y FROM t" := by
    decide +kernel
  have hclosed : replaceCalls ⟨"any", .exact⟩ (Rule.exact "any" (.rename "any_value")).apply
      "SELECT any(] any(a, b)) FROM t" =
        ⟨"SELECT any_value(] any(a, b)) FROM t", [.unbalanced "any" 2]⟩ := by
    decide +kernel
  have hword : IsWord ⟨"any", .exact⟩ := by decide
  refine ⟨?_, hclosed, fun halone => ?_⟩
  · obtain ⟨-, hown, -⟩ := leftAlone_iff_inner ⟨"any", .exact⟩
      (Rule.exact "any" (.rename "any_value")).apply "SELECT any(x), any(y FROM t"
    rw [← hopen]
    exact (hown 15 (by decide)).2
  · obtain ⟨-, -, hiff⟩ := leftAlone_iff_inner ⟨"any", .exact⟩
      (Rule.exact "any" (.rename "any_value")).apply "SELECT any(] any(a, b)) FROM t"
    have hinner : inner ⟨"any", .exact⟩ (Rule.exact "any" (.rename "any_value")).apply
        "SELECT any(] any(a, b)) FROM t" = [.unbalanced "any" 2] := by
      decide +kernel
    have hnone : inner ⟨"any", .exact⟩ (Rule.exact "any" (.rename "any_value")).apply
        "SELECT any(] any(a, b)) FROM t" = [] := by
      refine (hiff hword).mp fun offset hoffset => ?_
      rw [hclosed] at hoffset ⊢
      obtain ⟨-, rfl⟩ := Warning.unbalanced.inj (List.mem_singleton.mp hoffset)
      exact halone
    rw [hinner] at hnone
    cases hnone

end Callee

end QueryBridge
