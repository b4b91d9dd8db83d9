import QueryBridge.Proofs.Lexical.Call

/-!
# Scans that are cut short and resumed

A scan reads a text from a place in code. It may be cut short anywhere, and a second one may begin
wherever reading leads from code to code: behind every byte of code, and behind plain bytes. The
second scan yields what the first one yields from there on (`Cursor.ReadsTo.code_eq`), and the
stretch that it leaves behind has the same code if it is read by itself.
-/

namespace QueryBridge

namespace Cursor

/-- Reading from a place in code leads to another place in code. -/
def ReadsTo (c d : Cursor) : Prop :=
  ∃ run, c.Moves run d ∧ Mode.code.after d.after.head? run = .code

/-- The code from one offset up to another, the latter left out. -/
def stretch (code : List Cursor) (first last : Nat) : List Cursor :=
  code.filter fun c => first ≤ c.offset && c.offset < last

/-- Where a cursor stands and what stands there, counted from a place. -/
def spot (place : Nat) (c : Cursor) : Nat × Option UInt8 := (place + c.offset, c.byte?)

theorem le_offset_of_mem_codeFrom {mode : Mode} {offset : Nat} {before text : Text} {c : Cursor}
    (h : c ∈ codeFrom mode offset before text) : offset ≤ c.offset := by
  obtain ⟨first, _, _, _, _, rfl⟩ := mem_codeFrom.mp h
  exact Nat.le_add_right _ _

/-- A scan that is cut short yields the same code up to its end. -/
theorem codeWithinFrom_eq_filter (count : Nat) (mode : Mode) (offset : Nat) (before text : Text) :
    codeWithinFrom count mode offset before text =
      (codeFrom mode offset before text).filter fun c => c.offset < offset + count := by
  induction text generalizing count mode offset before with
  | nil => cases count <;> rfl
  | cons b text ih =>
    cases count with
    | zero =>
      have hnone : ∀ c ∈ codeFrom mode offset before (b :: text),
          ¬decide (c.offset < offset + 0) = true := by
        intro c hc
        have := le_offset_of_mem_codeFrom hc
        simp only [decide_eq_true_eq]
        omega
      rw [List.filter_eq_nil_iff.mpr hnone]
      rfl
    | succ count =>
      have hcount : offset + 1 + count = offset + (count + 1) := by omega
      rw [codeWithinFrom, codeFrom, ih, hcount]
      split
      · rw [List.filter_cons_of_pos (by simp)]
      · rfl

/-- What a scan yields from a place on is the scan from there in the mode of that place. -/
theorem filter_codeFrom (mode : Mode) (offset : Nat) (before first rest : Text) :
    (codeFrom mode offset before (first ++ rest)).filter
        (fun c => offset + first.length ≤ c.offset) =
      codeFrom (mode.after rest.head? first) (offset + first.length) (first.reverse ++ before)
        rest := by
  induction first generalizing mode offset before with
  | nil =>
    refine List.filter_eq_self.mpr ?_
    intro c hc
    exact decide_eq_true (le_offset_of_mem_codeFrom hc)
  | cons b first ih =>
    have hlength : offset + (b :: first).length = offset + 1 + first.length := by
      rw [List.length_cons]
      omega
    rw [hlength, List.cons_append, codeFrom, Mode.after, List.reverse_cons, List.append_assoc,
      ← List.head?_append]
    split
    · rw [List.filter_cons_of_neg (by simp; omega)]
      exact ih ..
    · exact ih ..

/-- A stretch that is marked alike by itself and before the rest of its text has the same code. -/
theorem map_spot_codeFrom {mode : Mode} {run : Text} (rest : Text)
    (hmarks : mode.marks none run = mode.marks rest.head? run) (place offset : Nat)
    (init before : Text) :
    (codeFrom mode offset init run).map (spot place) =
      (codeWithinFrom run.length mode (place + offset) before (run ++ rest)).map (spot 0) := by
  induction run generalizing mode offset init before with
  | nil => rfl
  | cons b run ih =>
    obtain ⟨hshows, hmarks⟩ := List.cons.inj hmarks
    rw [Option.or_none] at hshows hmarks
    have hlater : (codeFrom (mode.step b run.head?) (offset + 1) (b :: init) run).map (spot place) =
        (codeWithinFrom run.length (mode.step b (run.head?.or rest.head?)) (place + offset + 1)
          (b :: before) (run ++ rest)).map (spot 0) := by
      cases run with
      | nil => rfl
      | cons x run => exact ih hmarks (offset + 1) (b :: init) (b :: before)
    rw [codeFrom, List.length_cons, List.cons_append, codeWithinFrom, List.head?_append, ← hshows]
    split
    · rw [List.map_cons, List.map_cons, hlater]
      simp [spot, byte?]
    · exact hlater

theorem offset_forward_of_mem {c d : Cursor} (h : d ∈ c.code) :
    (d.forward 1).offset = d.offset + 1 := by
  obtain ⟨first, b, rest, -, -, rfl⟩ := mem_codeFrom.mp h
  simp [forward]

namespace ReadsTo

variable {c d e : Cursor} {text : Text}

theorem refl (c : Cursor) : c.ReadsTo c := ⟨[], ⟨rfl, by simp, rfl⟩, rfl⟩

theorem trans (h : c.ReadsTo d) (hlater : d.ReadsTo e) : c.ReadsTo e := by
  obtain ⟨run, hmoves, hrun⟩ := h
  obtain ⟨later, hlaterMoves, hlater⟩ := hlater
  refine ⟨run ++ later, hmoves.trans hlaterMoves, ?_⟩
  rw [hlaterMoves.after_eq, List.head?_append] at hrun
  rw [Mode.after_append, hrun, hlater]

theorem reaches (h : c.ReadsTo d) : c.Reaches d := by
  obtain ⟨run, hmoves, -⟩ := h
  exact ⟨run, hmoves⟩

/-- Plain bytes lead from code to code. -/
theorem of_isPlain {run : Text} (hmoves : c.Moves run d) (h : ∀ b ∈ run, Byte.isPlain b = true) :
    c.ReadsTo d := ⟨run, hmoves, Mode.after_code_of_isPlain h _⟩

/-- The code that a scan yields stands where reading leads in code. -/
theorem of_mem (h : d ∈ c.code) : c.ReadsTo d := by
  obtain ⟨first, b, rest, hafter, hshows, rfl⟩ := mem_codeFrom.mp h
  refine ⟨first, ⟨hafter, by simp, rfl⟩, ?_⟩
  exact Mode.eq_code_of_shows hshows

/-- Reading goes on in code behind the code that a scan yields. -/
theorem forward_of_mem (h : d ∈ c.code) : c.ReadsTo (d.forward 1) := by
  obtain ⟨first, b, rest, hafter, hshows, rfl⟩ := mem_codeFrom.mp h
  refine (of_mem h).trans ⟨[b], moves_forward _ 1, ?_⟩
  rw [Mode.eq_code_of_shows hshows] at hshows
  exact Mode.step_of_shows hshows

/-- The scan from a place to which reading leads in code yields what is left of the first scan. -/
theorem code_eq (h : c.ReadsTo d) : d.code = c.code.filter fun e => d.offset ≤ e.offset := by
  obtain ⟨run, hmoves, hrun⟩ := h
  have hbefore : d.before = run.reverse ++ c.before := by
    rw [← List.reverse_inj, hmoves.before_eq, List.reverse_append, List.reverse_reverse]
  have hlater := filter_codeFrom .code c.offset c.before run d.after
  rw [← hmoves.after_eq, ← hmoves.offset_eq, ← hbefore, hrun] at hlater
  exact hlater.symm

/-- A plain byte in code is yielded. -/
theorem mem_of_sees {b : UInt8} (h : c.ReadsTo d) (hsees : d.sees b = true)
    (hb : Byte.isPlain b = true) : d ∈ c.code := by
  have hmem : d ∈ d.code := by
    rw [code_cons (beq_iff_eq.mp hsees) hb]
    exact List.mem_cons_self
  rw [h.code_eq] at hmem
  exact (List.mem_filter.mp hmem).1

/-- The stretch up to a place where reading stands in code is sealed, and its code is the same if it
is read by itself. -/
theorem alone (h : c.ReadsTo d) {run : Text} (hmoves : c.Moves run d) :
    run.Sealed ∧ run.code.map (spot c.offset) =
      (c.code.filter fun e => e.offset < d.offset).map (spot 0) := by
  obtain ⟨same, hsame, hrun⟩ := h
  obtain rfl : same = run := List.append_cancel_right (hsame.after_eq.symm.trans hmoves.after_eq)
  have hmarks : Mode.code.marks none same = Mode.code.marks d.after.head? same := by
    refine Text.marks_eq_of_seam (Text.seam_eq_false_of_after hrun) ?_
    exact Text.seam_eq_false_of_next fun _ hb => nomatch hb
  have hspots := map_spot_codeFrom d.after hmarks c.offset 0 [] c.before
  rw [codeWithinFrom_eq_filter, ← hmoves.after_eq, Nat.add_zero, ← hmoves.offset_eq] at hspots
  refine ⟨Text.sealed_of_after hrun, Eq.trans ?_ hspots⟩
  simp [Text.code, Text.cursor, code]

end ReadsTo

end Cursor

namespace Text

/-- The scan from `place` yields what the scan from `start` yields from there on. -/
def ResumesAt (text : Text) (start place : Nat) : Prop :=
  (text.cursor place).code = (text.cursor start).code.filter fun c => place ≤ c.offset

/-- The scan from `start` yields the byte at an offset or the byte right before it. -/
def Touches (text : Text) (start place : Nat) : Prop :=
  ∃ c ∈ (text.cursor start).code, place = c.offset ∨ place = c.offset + 1

variable {text : Text} {start place next : Nat}

theorem bounds_of_mem_code {c : Cursor} (h : c ∈ (text.cursor start).code) :
    c.LiesIn text ∧ start ≤ c.offset ∧ c.offset < text.length := by
  obtain ⟨first, b, rest, hafter, -, rfl⟩ := Cursor.mem_codeFrom.mp h
  have hlies := (Cursor.reaches_of_mem_code h).liesIn (Cursor.liesIn_cursor text start)
  have hlength := congrArg List.length hlies.joined
  have hcounted := hlies.counted
  have hstart : start < text.length := by
    by_contra hge
    rw [cursor, List.drop_eq_nil_of_le (Nat.le_of_not_lt hge)] at hafter
    simp at hafter
  have hoffset : (text.cursor start).offset = start := Nat.min_eq_left (Nat.le_of_lt hstart)
  simp only [List.length_append, List.length_reverse, List.length_cons] at hlength hcounted
  exact ⟨hlies, by dsimp only; omega, by dsimp only; omega⟩

theorem resumesAt_of_readsTo {d : Cursor} (h : (text.cursor start).ReadsTo d) :
    text.ResumesAt start d.offset := by
  have hlies := h.reaches.liesIn (Cursor.liesIn_cursor text start)
  rw [ResumesAt, ← hlies.eq_cursor]
  exact h.code_eq

/-- Behind a text there is nothing to scan. -/
theorem resumesAt_of_length_le (h : text.length ≤ place) : text.ResumesAt start place := by
  have hnone : (text.cursor start).code.filter (fun c => place ≤ c.offset) = [] := by
    refine List.filter_eq_nil_iff.mpr ?_
    intro c hc
    obtain ⟨-, -, hlt⟩ := bounds_of_mem_code hc
    simp only [decide_eq_true_eq]
    omega
  rw [ResumesAt, hnone, Cursor.code, cursor, List.drop_eq_nil_of_le h]
  rfl

theorem ResumesAt.trans (h : text.ResumesAt start place) (hlater : text.ResumesAt place next)
    (hle : place ≤ next) : text.ResumesAt start next := by
  rw [ResumesAt, hlater, h, List.filter_filter]
  refine List.filter_congr ?_
  intro c _
  rw [Bool.eq_iff_iff, Bool.and_eq_true, decide_eq_true_eq, decide_eq_true_eq]
  omega

/-- A scan can be resumed at every byte that it has yielded, and behind it. -/
theorem Touches.resumesAt (h : text.Touches start place) : text.ResumesAt start place := by
  obtain ⟨c, hc, rfl | rfl⟩ := h
  · exact resumesAt_of_readsTo (.of_mem hc)
  · rw [← Cursor.offset_forward_of_mem hc]
    exact resumesAt_of_readsTo (.forward_of_mem hc)

/-- A scan from a place in code goes on from the scan of the whole text. -/
theorem resumesAt_of_modeAt (h : text.modeAt place = .code) : text.ResumesAt 0 place := by
  rcases Nat.le_total text.length place with hle | hle
  · exact resumesAt_of_length_le hle
  · have hoffset : (text.cursor place).offset = place := Nat.min_eq_left hle
    rw [← hoffset]
    refine resumesAt_of_readsTo ⟨text.take place, ⟨?_, ?_, ?_⟩, ?_⟩
    · simp [cursor]
    · simp [cursor]
    · simp [cursor]
    · rwa [modeAt_eq] at h

/-- A scan that is cut short yields the same code up to its end. -/
theorem codeBetween_eq_filter (text : Text) (start stop : Nat) :
    text.codeBetween start stop = (text.cursor start).code.filter fun c => c.offset < stop := by
  rcases Nat.le_total start stop with hle | hle
  · rw [codeBetween, Cursor.codeWithin, Cursor.codeWithinFrom_eq_filter, Nat.min_eq_left hle]
    refine List.filter_congr ?_
    intro c hc
    obtain ⟨-, hstart, hlt⟩ := bounds_of_mem_code hc
    have hoffset : (text.cursor start).offset = start := Nat.min_eq_left (by omega)
    rw [hoffset, Nat.add_sub_cancel' hle]
  · have hnone : ∀ c ∈ (text.cursor start).code, ¬decide (c.offset < stop) = true := by
      intro c hc
      have := (bounds_of_mem_code hc).2.1
      simp only [decide_eq_true_eq]
      omega
    rw [codeBetween, Nat.sub_eq_zero_of_le hle, List.filter_eq_nil_iff.mpr hnone]
    rfl

end Text

end QueryBridge
