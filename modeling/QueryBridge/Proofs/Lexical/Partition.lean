import QueryBridge.Proofs.Lexical.Boundary
import QueryBridge.Proofs.Lexical.Run

/-!
# A text as the sequence of its runs

The runs of a text lie end to end from its first byte to its last, and code takes turns with quoted
runs and comments. So they are the longest stretches of one class, their ends are boundaries of
characters, and mapping the code of a text replaces each of these stretches that is code.
-/

namespace QueryBridge

open String

namespace Cursor

/-- A scan of bytes of one class yields all of their offsets or none of them. -/
theorem map_offset_codeFrom_append {isCode : Bool} {mode : Mode} {piece rest : Text}
    (h : ∀ mark ∈ mode.marks rest.head? piece, mark = isCode) (start : Nat) (before : Text) :
    (codeFrom mode start before (piece ++ rest)).map offset =
      (if isCode then List.range' start piece.length else []) ++
        (codeFrom (mode.after rest.head? piece) (start + piece.length) (piece.reverse ++ before)
          rest).map offset := by
  induction piece generalizing mode start before with
  | nil => cases isCode <;> rfl
  | cons b piece ih =>
    obtain ⟨hb, hpiece⟩ := List.forall_mem_cons.mp h
    rw [List.cons_append, codeFrom, List.head?_append, hb]
    have hlater := ih hpiece (start + 1) (b :: before)
    have hstart : start + (b :: piece).length = start + 1 + piece.length := by
      rw [List.length_cons]
      omega
    rw [Mode.after, hstart, List.reverse_cons, List.append_assoc]
    cases isCode with
    | true =>
      simp only [if_true] at hlater ⊢
      rw [List.map_cons, hlater, List.length_cons, List.range'_succ]
      rfl
    | false => exact hlater

end Cursor

namespace Run

/-- Spans from one offset to another that lie end to end, each of another class than the next. -/
inductive Chain : Nat → Nat → List (Nat × Nat × Bool) → Prop
  | nil (place : Nat) : Chain place place []
  | cons {first last stop : Nat} {isCode : Bool} {spans : List (Nat × Nat × Bool)}
    (nonempty : first < last) (other : ∀ next ∈ spans.head?, next.2.2 = !isCode)
    (rest : Chain last stop spans) : Chain first stop ((first, last, isCode) :: spans)

/-- A longest stretch, between two offsets, of places that a predicate answers alike. -/
structure IsLongest (p : Nat → Bool) (start stop first last : Nat) (answer : Bool) : Prop where
  start_le : start ≤ first
  nonempty : first < last
  le_stop : last ≤ stop
  inside : ∀ offset, first ≤ offset → offset < last → p offset = answer
  before : ∀ offset, start ≤ offset → offset + 1 = first → p offset = !answer
  behind : last < stop → p last = !answer

/-- Every place of a span is answered as the span says. -/
def Answers (p : Nat → Bool) (spans : List (Nat × Nat × Bool)) : Prop :=
  ∀ span ∈ spans, ∀ offset, span.1 ≤ offset → offset < span.2.1 → p offset = span.2.2

theorem answers_cons_iff {p : Nat → Bool} {first last : Nat} {isCode : Bool}
    {spans : List (Nat × Nat × Bool)} : Answers p ((first, last, isCode) :: spans) ↔
      (∀ offset, first ≤ offset → offset < last → p offset = isCode) ∧ Answers p spans :=
  List.forall_mem_cons

section Chain

variable {start stop first last : Nat} {answer : Bool} {p : Nat → Bool}
  {spans : List (Nat × Nat × Bool)}

theorem Chain.le (h : Chain start stop spans) : start ≤ stop := by
  induction h with
  | nil => exact Nat.le_refl _
  | cons hne _ _ ih => exact Nat.le_trans (Nat.le_of_lt hne) ih

/-- The first span of a chain starts where the chain does. -/
theorem Chain.head (h : Chain start stop spans) (hlt : start < stop) :
    ∃ last isCode rest, spans = (start, last, isCode) :: rest ∧ start < last := by
  cases h with
  | nil => exact absurd hlt (Nat.lt_irrefl _)
  | cons hne _ _ => exact ⟨_, _, _, rfl, hne⟩

/-- The place behind a span is answered otherwise. -/
theorem Chain.answer_start {isCode : Bool} (h : Chain start stop spans) (hlt : start < stop)
    (hother : ∀ next ∈ spans.head?, next.2.2 = !isCode) (hp : Answers p spans) :
    p start = !isCode := by
  obtain ⟨last, isCode', rest, rfl, hne⟩ := h.head hlt
  rw [hp _ List.mem_cons_self start (Nat.le_refl _) hne]
  exact hother _ rfl

theorem Chain.isLongest_of_mem (h : Chain start stop spans) (hp : Answers p spans)
    (hmem : (first, last, answer) ∈ spans) : IsLongest p start stop first last answer := by
  induction h with
  | nil => cases hmem
  | @cons first' last' stop isCode spans hne hother hrest ih =>
    obtain ⟨hspan, hspans⟩ := answers_cons_iff.mp hp
    rcases List.mem_cons.mp hmem with heq | hmem
    · obtain ⟨rfl, rfl, rfl⟩ := heq
      refine ⟨Nat.le_refl _, hne, hrest.le, hspan, ?_, ?_⟩
      · intro offset hle hoffset
        omega
      · intro hlt
        exact hrest.answer_start hlt hother hspans
    · obtain ⟨hstart, hnonempty, hstop, hinside, hbefore, hbehind⟩ := ih hspans hmem
      refine ⟨Nat.le_of_lt (Nat.lt_of_lt_of_le hne hstart), hnonempty, hstop, hinside, ?_, hbehind⟩
      intro offset hle hoffset
      rcases Nat.lt_or_ge offset last' with hlt | hge
      · -- the stretch is the first one behind the span, so it is of the other class
        obtain rfl : first = last' := by omega
        have hnext := hrest.answer_start (by omega) hother hspans
        rw [hinside first (Nat.le_refl _) hnonempty] at hnext
        rw [hspan offset hle hlt, hnext, Bool.not_not]
      · exact hbefore offset hge hoffset

theorem Chain.mem_of_isLongest (h : Chain start stop spans) (hp : Answers p spans)
    (hlongest : IsLongest p start stop first last answer) : (first, last, answer) ∈ spans := by
  induction h with
  | nil place =>
    obtain ⟨hstart, hne, hstop, -⟩ := hlongest
    omega
  | @cons first' last' stop isCode spans hne hother hrest ih =>
    obtain ⟨hspan, hspans⟩ := answers_cons_iff.mp hp
    obtain ⟨hstart, hnonempty, hstop, hinside, hbefore, hbehind⟩ := hlongest
    have hfirst := hinside first (Nat.le_refl _) hnonempty
    rcases Nat.lt_or_ge first last' with hlt | hge
    · have hanswer : answer = isCode := hfirst.symm.trans (hspan first hstart hlt)
      obtain rfl : first = first' := by
        by_contra hne'
        have hbehindStart := hbefore (first - 1) (by omega) (by omega)
        rw [hspan (first - 1) (by omega) (by omega), hanswer] at hbehindStart
        exact Bool.not_ne_self isCode hbehindStart.symm
      have hlast : last = last' := by
        rcases Nat.lt_trichotomy last last' with hshort | heq | hlong
        · have hnext := hbehind (Nat.lt_of_lt_of_le hshort hrest.le)
          rw [hspan last (Nat.le_of_lt hnonempty) hshort, hanswer] at hnext
          exact absurd hnext.symm (Bool.not_ne_self isCode)
        · exact heq
        · have hnext := hrest.answer_start (Nat.lt_of_lt_of_le hlong hstop) hother hspans
          rw [hinside last' (Nat.le_of_lt hlt) hlong, hanswer] at hnext
          exact absurd hnext.symm (Bool.not_ne_self isCode)
      rw [hanswer, hlast]
      exact List.mem_cons_self
    · refine List.mem_cons_of_mem _ (ih hspans ⟨hge, hnonempty, hstop, hinside, ?_, hbehind⟩)
      intro offset hle hoffset
      exact hbefore offset (Nat.le_trans (Nat.le_of_lt hne) hle) hoffset

/-- The spans of a chain are the longest stretches of one class. -/
theorem Chain.mem_iff (h : Chain start stop spans) (hp : Answers p spans) :
    (first, last, answer) ∈ spans ↔ IsLongest p start stop first last answer := by
  constructor
  · exact h.isLongest_of_mem hp
  · exact h.mem_of_isLongest hp

end Chain

section Walks

variable {mode : Mode} {runs : List Run}

/-- Runs that are read one after the other lie end to end. -/
theorem Walks.chain (h : Walks mode runs) (start : Nat) :
    Chain start (start + (runs.flatMap Run.text).length) (spans start runs) := by
  induction h generalizing start with
  | nil => exact .nil start
  | @cons mode run runs hne _ hother _ ih =>
    have hpos := List.length_pos_iff.mpr hne
    rw [List.flatMap_cons, List.length_append, ← Nat.add_assoc]
    refine .cons (Nat.lt_add_of_pos_right hpos) ?_ (ih _)
    cases runs with
    | nil => simp [spans]
    | cons next runs =>
      rintro _ ⟨rfl⟩
      exact hother next rfl

/-- No span starts before the first one. -/
theorem le_of_mem_spans {start : Nat} {span : Nat × Nat × Bool} (h : span ∈ spans start runs) :
    start ≤ span.1 := by
  induction runs generalizing start with
  | nil => cases h
  | cons run runs ih =>
    rcases List.mem_cons.mp h with rfl | h
    · exact Nat.le_refl _
    · exact Nat.le_trans (Nat.le_add_right _ _) (ih h)

/-- The marks of a text say of each place what the span around it says. -/
theorem Walks.getElem?_marks (h : Walks mode runs) (start : Nat) :
    ∀ span ∈ spans start runs, ∀ offset, span.1 ≤ offset → offset < span.2.1 →
      (mode.marks none (runs.flatMap Run.text))[offset - start]? = some span.2.2 := by
  induction h generalizing start with
  | nil => simp [spans]
  | @cons mode run runs _ hmarks _ _ ih =>
    have hlength := Mode.length_marks (runs.flatMap Run.text).head? mode run.text
    rw [List.flatMap_cons, Mode.marks_append, Option.or_none]
    refine List.forall_mem_cons.mpr ⟨?_, ?_⟩
    · intro offset (hle : start ≤ offset) (hlt : offset < start + run.text.length)
      have hindex : offset - start <
          (mode.marks (runs.flatMap Run.text).head? run.text).length := by omega
      rw [List.getElem?_append_left hindex, List.getElem?_eq_getElem hindex]
      exact congrArg some (hmarks _ (List.getElem_mem hindex))
    · intro span hspan offset hle hlt
      have hstart := le_of_mem_spans hspan
      rw [List.getElem?_append_right (by omega), hlength, Nat.sub_sub]
      exact ih _ span hspan offset hle hlt

/-- The spans of code hold the offsets that a scan yields. -/
theorem Walks.map_offset_codeFrom (h : Walks mode runs) (start : Nat) (before : Text) :
    (Cursor.codeFrom mode start before (runs.flatMap Run.text)).map Cursor.offset =
      ((spans start runs).filter (·.2.2)).flatMap
        fun span => List.range' span.1 (span.2.1 - span.1) := by
  induction h generalizing start before with
  | nil => rfl
  | @cons mode run runs _ hmarks _ _ ih =>
    rw [List.flatMap_cons, Cursor.map_offset_codeFrom_append hmarks, ih, spans, List.filter_cons]
    cases run.isCode with
    | true => simp
    | false => simp

/-- The runs of a text are its slices between the ends of their spans. -/
theorem map_spans {text before : Text} (h : text = before ++ runs.flatMap Run.text) :
    (spans before.length runs).map (fun span => ⟨span.2.2, text.slice span.1 span.2.1⟩) = runs := by
  induction runs generalizing before with
  | nil => rfl
  | cons run runs ih =>
    have hslice : text.slice before.length (before.length + run.text.length) = run.text := by
      rw [h, List.flatMap_cons, Text.slice, List.drop_left, Nat.add_sub_cancel_left, List.take_left]
    have hrest := @ih (before ++ run.text) (by rw [h, List.flatMap_cons, List.append_assoc])
    rw [List.length_append] at hrest
    rw [spans, List.map_cons, hslice, hrest]

end Walks

end Run

/-! ### The ends of runs -/

theorem Byte.lt_of_isQuote {b : UInt8} (h : isQuote b = true) : b.toNat < 128 := by
  simp only [isQuote, Bool.or_eq_true, beq_iff_eq] at h
  rcases h with (rfl | rfl) | rfl <;> decide

namespace Mode

variable {mode : Mode} {b x : UInt8} {next : Option UInt8}

/-- Quoted runs and comments open with a byte of ASCII. -/
theorem lt_of_opened? (h : opened? b next ≠ none) : b.toNat < 128 := by
  unfold opened? at h
  split at h
  next hquote => exact Byte.lt_of_isQuote hquote
  · split at h
    next hhyphen =>
      obtain ⟨hb, -⟩ := Bool.and_eq_true_iff.mp hhyphen
      rw [beq_iff_eq.mp hb]
      decide
    · split at h
      next hslash =>
        obtain ⟨hb, -⟩ := Bool.and_eq_true_iff.mp hslash
        rw [beq_iff_eq.mp hb]
        decide
      · exact absurd rfl h

/-- A quoted run or comment ends with a byte of ASCII. -/
theorem lt_of_step_eq_code (hadmits : mode.Admits (some b)) (hstep : mode.step b next = .code)
    (hshows : mode.shows b next = false) : b.toNat < 128 := by
  cases mode with
  | code =>
    apply @lt_of_opened? b next
    intro hnone
    rw [shows, hnone] at hshows
    cases hshows
  | quoted q =>
    have hb : b = q := by
      by_contra hne
      simp [step, hne] at hstep
    exact hb ▸ Byte.lt_of_isQuote hadmits
  | doubled q => cases hstep
  | lineComment =>
    have hb : b = Byte.newline := by
      by_contra hne
      simp [step, hne] at hstep
    rw [hb]
    decide
  | blockOpening => cases hstep
  | blockComment =>
    rw [step] at hstep
    split at hstep <;> cases hstep
  | blockClosing =>
    rw [Option.some.inj hadmits]
    decide

/-- Between a byte of code and a byte of no code, one of the two is of ASCII. -/
theorem lt_or_lt_of_shows_ne {later : Option UInt8} (hadmits : mode.Admits (some b))
    (h : (mode.step b (some x)).shows x later ≠ mode.shows b (some x)) :
    b.toNat < 128 ∨ x.toNat < 128 := by
  cases hshows : mode.shows b (some x) with
  | true =>
    right
    rw [hshows, step_of_shows hshows] at h
    apply @lt_of_opened? x later
    intro hnone
    rw [shows, hnone] at h
    exact h rfl
  | false =>
    left
    rw [hshows, ne_eq, Bool.not_eq_false] at h
    exact lt_of_step_eq_code hadmits (eq_code_of_shows h) hshows

end Mode

namespace Text

/-- Whether a byte is code is up to the walk over what stands before it. -/
theorem isCode_append_cons (first rest : Text) (b : UInt8) :
    isCode (first ++ b :: rest) first.length =
      (Mode.code.after (some b) first).shows b rest.head? := by
  rw [isCode_eq_marks, Mode.getElem?_marks, Option.getD_some]

/-- Where code begins or ends, there is a byte of ASCII on one of the sides. -/
theorem lt_or_lt_of_isCode_ne (first rest : Text) (b x : UInt8)
    (h : isCode (first ++ b :: x :: rest) (first.length + 1) ≠
      isCode (first ++ b :: x :: rest) first.length) : b.toNat < 128 ∨ x.toNat < 128 := by
  have hbehind : isCode (first ++ b :: x :: rest) (first.length + 1) =
      ((Mode.code.after (some b) first).step b (some x)).shows x rest.head? := by
    have hmoved := isCode_append_cons (first ++ [b]) rest x
    rw [List.append_assoc, List.length_append, Mode.after_append] at hmoved
    exact hmoved
  rw [hbehind, isCode_append_cons] at h
  exact Mode.lt_or_lt_of_shows_ne (Mode.admits_after_code _ _) h

/-- A string can be cut where code begins or ends. -/
theorem isValid_of_isCode_ne {sql : String} {offset : Nat}
    (hlt : offset + 1 < (ofString sql).length)
    (h : (ofString sql).isCode (offset + 1) ≠ (ofString sql).isCode offset) :
    Pos.Raw.IsValid sql ⟨offset + 1⟩ := by
  have hlength : ((ofString sql).take offset).length = offset := by
    rw [List.length_take]
    omega
  have hsplit : ofString sql = (ofString sql).take offset ++
      (ofString sql)[offset] :: (ofString sql)[offset + 1] :: (ofString sql).drop (offset + 2) := by
    rw [← List.drop_eq_getElem_cons hlt, ← List.drop_eq_getElem_cons (by omega),
      List.take_append_drop]
  have hascii := lt_or_lt_of_isCode_ne ((ofString sql).take offset) ((ofString sql).drop (offset + 2))
    (ofString sql)[offset] (ofString sql)[offset + 1]
  rw [← hsplit, hlength] at hascii
  rcases hascii h with hb | hx
  · exact isValid_succ_of_getElem? (List.getElem?_eq_getElem (by omega)) hb
  · exact isValid_of_getElem? (List.getElem?_eq_getElem hlt) hx

/-- A string can be cut at both ends of a longest stretch of one class. -/
theorem isValid_of_isLongest {sql : String} {first last : Nat} {answer : Bool}
    (h : Run.IsLongest (ofString sql).isCode 0 (ofString sql).length first last answer) :
    Pos.Raw.IsValid sql ⟨first⟩ ∧ Pos.Raw.IsValid sql ⟨last⟩ := by
  obtain ⟨-, hne, hle, hinside, hbefore, hbehind⟩ := h
  constructor
  · cases first with
    | zero => exact Pos.Raw.isValid_zero
    | succ offset =>
      apply isValid_of_isCode_ne (Nat.lt_of_lt_of_le hne hle)
      rw [hinside _ (Nat.le_refl _) hne, hbefore offset (Nat.zero_le _) rfl]
      exact (Bool.not_ne_self answer).symm
  · rcases Nat.lt_or_ge last (ofString sql).length with hlt | hge
    · obtain ⟨offset, rfl⟩ := Nat.exists_eq_add_of_lt hne
      apply isValid_of_isCode_ne hlt
      rw [hbehind hlt, hinside _ (Nat.le_add_right _ _) (Nat.lt_succ_self _)]
      exact Bool.not_ne_self answer
    · rw [Nat.le_antisymm hle hge]
      exact isValid_length sql

/-- The runs of a text lie end to end, and no two neighbors are of one class. -/
theorem chain_runs (text : Text) : Run.Chain 0 text.length (Run.spans 0 text.runs) := by
  have hchain := (Run.walks_ofText .code text).chain 0
  rwa [Run.flatMap_ofText, Nat.zero_add] at hchain

/-- A run is code if the scan yields its bytes. -/
theorem answers_runs (text : Text) : Run.Answers text.isCode (Run.spans 0 text.runs) := by
  intro span hspan offset hle hlt
  have hmarks := (Run.walks_ofText .code text).getElem?_marks 0 span hspan offset hle hlt
  rw [Run.flatMap_ofText, Nat.sub_zero] at hmarks
  rw [isCode_eq_marks, hmarks, Option.getD_some]

/-- Mapping code replaces the stretches between the ends of the runs of code. -/
theorem mapCode_eq (f : Text → Text) (text : Text) :
    text.mapCode f = (Run.spans 0 text.runs).flatMap fun (first, last, isCode) =>
      if isCode then f (text.slice first last) else text.slice first last := by
  have hruns := @Run.map_spans text.runs text [] (Run.flatMap_ofText .code text).symm
  rw [mapCode]
  conv_lhs => rw [← hruns, List.flatMap_map]
  rfl

/-- The runs of a statement lie end to end from its first byte to its last, and runs of code take
turns with others. They begin and end on boundaries of characters, the runs of code hold what a scan
yields, and every longest stretch of one class is a run. So mapping code changes these stretches of
code and nothing else. -/
theorem runs_partition (sql : String) :
    let text := ofString sql
    let spans := Run.spans 0 text.runs
    Run.Chain 0 text.length spans ∧
      (∀ span ∈ spans, Pos.Raw.IsValid sql ⟨span.1⟩ ∧ Pos.Raw.IsValid sql ⟨span.2.1⟩) ∧
      (spans.filter (·.2.2)).flatMap (fun span => List.range' span.1 (span.2.1 - span.1)) =
        text.code.map Cursor.offset ∧
      (∀ first last isCode, (first, last, isCode) ∈ spans ↔
        Run.IsLongest text.isCode 0 text.length first last isCode) ∧
      (∀ f, text.mapCode f = spans.flatMap fun (first, last, isCode) =>
        if isCode then f (text.slice first last) else text.slice first last) ∧
      text.mapCode id = text := by
  intro text spans
  have hspans (first last : Nat) (isCode : Bool) : (first, last, isCode) ∈ spans ↔
      Run.IsLongest text.isCode 0 text.length first last isCode :=
    (chain_runs text).mem_iff (answers_runs text)
  have hcode := (Run.walks_ofText .code text).map_offset_codeFrom 0 []
  rw [Run.flatMap_ofText] at hcode
  refine ⟨chain_runs text, ?_, ?_, hspans, ?_, ?_⟩
  · intro span hspan
    exact isValid_of_isLongest ((hspans _ _ _).mp hspan)
  · exact hcode.symm
  · intro f
    exact mapCode_eq f text
  · apply mapCode_of_eq
    intro run _ _
    rfl

/-- Two quoted runs side by side are one run, a line comment holds its newline, and what is never
closed extends to the end. -/
example : Run.spans 0 (ofString "é'a'\"b\"-- c\n/ /* '").runs =
    [(0, 2, true), (2, 13, false), (13, 15, true), (15, 19, false)] := by decide +kernel

end Text

end QueryBridge
