import QueryBridge.Proofs.Binding.Placement
import QueryBridge.Proofs.Conversion.ArrayJoin
import QueryBridge.Proofs.Conversion.Calls
import QueryBridge.Proofs.Conversion.Modifier
import QueryBridge.Proofs.Conversion.Subscript
import QueryBridge.Proofs.Lexical.Resume

/-!
# Passes that begin a new scan

A pass over a statement goes on behind each byte that it has looked at, and behind each call, clause,
placeholder or subscript that it has found. All these places stand in code or at the end of the
statement, so a new scan from any of them sees the code that one scan of the whole statement sees
from there on.
-/

namespace QueryBridge

open Text

/-- The places where the passes over a statement begin a new scan. -/
inductive Text.RestartsAt (text : Text) : Nat → Prop
  /-- A byte of code, or the place right behind it. -/
  | byte {place : Nat} (h : text.Touches 0 place) : RestartsAt text place
  /-- The place behind a call. -/
  | call {callee : Callee} {site : CallSite} (hword : callee.IsWord)
    (h : site ∈ callee.calls text) : RestartsAt text site.stop
  /-- The place behind a call with parameters. -/
  | parametric {callee : Callee} {call : ParametricCall} (hword : callee.IsWord)
    (h : call ∈ (callee.surveyParametric 0 text.code).calls) : RestartsAt text call.stop
  /-- The place behind a modifier. -/
  | modifier {found : Cursor × Modifier} (h : found ∈ Modifier.findAll 0 0 text.code) :
    RestartsAt text found.2.stop.offset
  /-- The place behind an ARRAY JOIN clause. -/
  | clause {clause : ArrayJoin} (h : clause ∈ ArrayJoin.clauses text) :
    RestartsAt text clause.stop.offset
  /-- The place behind a subscripted name. -/
  | subscript {subscript : Subscript} (h : subscript ∈ Subscript.findAll 0 text.code) :
    RestartsAt text subscript.stop
  /-- The place behind a placeholder. -/
  | placeholder {placeholder : Placeholder} (h : placeholder ∈ text.placeholders) :
    RestartsAt text placeholder.stop

variable {text : Text} {place : Nat}

/-- Behind a byte of code a scan of the whole text can be resumed. -/
theorem resumesAt_behind (h : ∃ c ∈ text.code, c.offset + 1 = place) : text.ResumesAt 0 place := by
  obtain ⟨c, hc, rfl⟩ := h
  exact resumesAt_of_modeAt (modeAt_succ_of_mem_code hc)

/-- At the end of a clause a scan of the whole text can be resumed. -/
theorem Spans.resumesAt {start stop : Cursor} (h : Spans text start stop) :
    text.ResumesAt 0 stop.offset := by
  rcases h.rests with hmode | hend
  · apply resumesAt_of_modeAt
    rwa [modeAt, ← h.stop_lies.eq_cursor]
  · apply resumesAt_of_length_le
    rw [← List.drop_eq_nil_iff, h.stop_lies.drop_eq, hend]

/-- Wherever a pass begins a new scan, the scan of the whole statement can be resumed. -/
theorem Text.RestartsAt.resumesAt (h : text.RestartsAt place) : text.ResumesAt 0 place := by
  cases h with
  | byte h => exact h.resumesAt
  | call hword h =>
    have hstands := (Callee.calls_spec hword text).1 _ h
    exact resumesAt_behind (hstands.covers []).last
  | parametric hword h =>
    obtain ⟨hstands, -⟩ := (Callee.successive_surveyParametric hword fun _ hc => hc).holds _ h
    exact resumesAt_behind (hstands.covers []).last
  | modifier h =>
    obtain ⟨hspans, -⟩ := (Modifier.successive_findAll fun _ hc => hc).holds _ h
    exact hspans.resumesAt
  | clause h => exact (ArrayJoin.standsIn_of_mem_clauses h).spans.resumesAt
  | subscript h =>
    obtain ⟨c, hfound⟩ := Subscript.exists_foundAt h
    obtain ⟨d, hd, -, hstop⟩ := hfound.closed
    exact resumesAt_behind ⟨d, hd, hstop⟩
  | placeholder h =>
    obtain ⟨d, hd, hstop, -⟩ := (standsIn_of_mem_placeholders h).closing
    exact resumesAt_behind ⟨d, hd, hstop⟩

/-- A scan that is cut short yields the code of the longer scan up to its end. A scan that is resumed
at a byte which another one yields, or right behind it, yields what is left of the other. So does a
scan that a pass begins anew, compared with one scan of the whole statement. -/
theorem scan_bounded_resumed (text : Text) (start : Nat) :
    (∀ stop, text.codeBetween start stop =
      (text.cursor start).code.filter fun c => c.offset < stop) ∧
    (∀ place, text.Touches start place → (text.cursor place).code =
      (text.cursor start).code.filter fun c => place ≤ c.offset) ∧
    (∀ place, text.RestartsAt place → (text.cursor place).code =
      text.code.filter fun c => place ≤ c.offset) := by
  refine ⟨?_, ?_, ?_⟩
  · intro stop
    exact codeBetween_eq_filter text start stop
  · intro place htouches
    exact htouches.resumesAt
  · intro place hrestarts
    exact hrestarts.resumesAt

/-- A scan that starts within a quoted run takes the closing quote for an opening one. It is resumed
there like any other, and so is that of a pass behind a call with a parenthesis in a literal. -/
theorem scan_bounded_resumed_quoted :
    let text : Text := "f('a)', -- b'\n1) c"
    let callee : Callee := ⟨"f", .exact⟩
    text.Touches 3 4 ∧ callee.IsWord ∧ ⟨0, 1, 15⟩ ∈ callee.calls text ∧
      text.codeBetween 3 12 = (text.cursor 3).code.filter (fun c => c.offset < 12) ∧
      (text.cursor 4).code = (text.cursor 3).code.filter (fun c => 4 ≤ c.offset) ∧
      (text.cursor 16).code = text.code.filter (fun c => 16 ≤ c.offset) := by
  intro text callee
  have htouches : text.Touches 3 4 := ⟨text.cursor 3, by decide +kernel, Or.inr rfl⟩
  have hword : callee.IsWord := by decide
  have hsite : ⟨0, 1, 15⟩ ∈ callee.calls text := by decide +kernel
  obtain ⟨hbounded, hresumed, -⟩ := scan_bounded_resumed text 3
  exact ⟨htouches, hword, hsite, hbounded 12, hresumed 4 htouches,
    (scan_bounded_resumed text 0).2.2 16 (.call hword hsite)⟩

end QueryBridge
