import QueryBridge.Proofs.Braces.Search
import QueryBridge.Proofs.Conversion.JoinOrder
import QueryBridge.Proofs.Lexical.Resume

/-!
# Lists of items

The end of an ARRAY JOIN list is found item by item: the search stops at each comma outside all
brackets and begins anew behind it. Such a comma is code and no bracket is open there, so the new
search finds what is left of the first one. Hence the walk ends, and it ends where a single search
does that passes commas by (`Cursor.listEnd_eq_clauseEnd`).
-/

namespace QueryBridge

namespace Cursor

variable {c d stop : Cursor} {stops : List Text} {rest : List Cursor}

/-- Walking a list item by item. Behind an item that a comma ends the search begins anew, with no
bracket open, and the first item that ends otherwise is the last one. -/
inductive ItemsLeadTo (stops : List Text) : Cursor → Cursor → Prop
  | last {c : Cursor} (h : (c.clauseEnd stops true).sees Byte.comma = false) :
    ItemsLeadTo stops c (c.clauseEnd stops true)
  | comma {c stop : Cursor} (h : (c.clauseEnd stops true).sees Byte.comma = true)
    (hlater : ItemsLeadTo stops ((c.clauseEnd stops true).forward 1) stop) :
    ItemsLeadTo stops c stop

/-- There is only one way to walk. -/
theorem ItemsLeadTo.unique (h : ItemsLeadTo stops c stop) (hother : ItemsLeadTo stops c d) :
    stop = d := by
  induction h with
  | last hends =>
    cases hother with
    | last => rfl
    | comma hcomma =>
      rw [hends] at hcomma
      cases hcomma
  | comma hcomma _ ih =>
    cases hother with
    | last hends =>
      rw [hcomma] at hends
      cases hends
    | comma _ hlater => exact ih hlater

/-! ### Searches that begin anew -/

/-- A new search behind a byte of code finds what the search before it has left. -/
theorem code_behind (h : d :: rest <:+ c.code) : (d.forward 1).code = rest := by
  obtain ⟨before, hsplit⟩ := h
  have hmem : d ∈ c.code := by
    rw [← hsplit]
    exact List.mem_append_right _ List.mem_cons_self
  have hsorted : (before ++ d :: rest).Pairwise fun c d => c.offset < d.offset := by
    rw [hsplit]
    exact pairwise_codeFrom
  obtain ⟨-, hbehind, hbefore⟩ := List.pairwise_append.mp hsorted
  have hnone : before.filter (fun e => d.offset + 1 ≤ e.offset) = [] := by
    refine List.filter_eq_nil_iff.mpr ?_
    intro e he
    have := hbefore e he d List.mem_cons_self
    simp only [decide_eq_true_eq]
    omega
  have hall : rest.filter (fun e => d.offset + 1 ≤ e.offset) = rest := by
    refine List.filter_eq_self.mpr ?_
    intro e he
    exact decide_eq_true (List.rel_of_pairwise_cons hbehind he)
  rw [(ReadsTo.forward_of_mem hmem).code_eq, offset_forward_of_mem hmem, ← hsplit,
    List.filter_append, hnone, List.filter_cons_of_neg (by simp), hall, List.nil_append]

theorem toEnd_eq (c : Cursor) :
    c.toEnd = ⟨c.offset + c.after.length, c.after.reverse ++ c.before, []⟩ := by
  simp [toEnd, forward]

/-- The first of some code, or else the end of the text, is the same from a later place. -/
theorem Reaches.firstOf_eq (h : c.Reaches d) (code : List Cursor) :
    d.firstOf code = c.firstOf code := by
  cases code with
  | cons first code => rfl
  | nil =>
    obtain ⟨run, hafter, hbefore, hoffset⟩ := h
    have hreversed : d.before = run.reverse ++ c.before := by
      rw [← List.reverse_inj, hbefore, List.reverse_append, List.reverse_reverse]
    simp [firstOf, toEnd_eq, hafter, hreversed, hoffset, Nat.add_assoc]

/-- A clause that ends at a byte ends at code of the search. -/
theorem exists_clauseStop_of_sees {commaEnds : Bool} {b : UInt8}
    (h : (c.clauseEnd stops commaEnds).sees b = true) :
    ∃ rest, clauseStop stops commaEnds 0 c.code = c.clauseEnd stops commaEnds :: rest := by
  unfold clauseEnd at h ⊢
  cases hstop : clauseStop stops commaEnds 0 c.code with
  | nil =>
    rw [hstop, firstOf, sees, byte?, after_toEnd] at h
    cases h
  | cons d rest => exact ⟨rest, rfl⟩

end Cursor

open Cursor

/-! ### Searches that pass commas by -/

/-- A search through some code goes on behind each comma where an item ends. -/
def PassesCommas (stops : List Text) (search : List Cursor → List Cursor) : Prop :=
  ∀ code, search code =
    match clauseStop stops true 0 code with
    | [] => []
    | c :: rest => if c.sees Byte.comma then search rest else c :: rest

theorem passesCommas_listStop (stops : List Text) : PassesCommas stops (listStop stops) := by
  intro code
  rw [listStop]
  split
  next hstop => rw [hstop]
  next hstop => rw [hstop]

/-- A search that passes commas by has no other reason to stop at one. -/
theorem Cursor.passed_of_comma {c : Cursor} (h : c.sees Byte.comma = true) :
    c.byte?.any Byte.opensLevel = false ∧ c.byte?.any Byte.closesLevel = false ∧
      c.sees Byte.semicolon = false ∧ c.startsWord = false := by
  rw [sees, startsWord, beq_iff_eq.mp h]
  exact ⟨rfl, rfl, rfl, rfl⟩

/-- A search at any depth that passes commas by stops where one that stops at commas does, or goes
on from there outside all brackets. -/
theorem clauseStop_passing (stops : List Text) (depth : Nat) (code : List Cursor) :
    clauseStop stops false depth code =
      match clauseStop stops true depth code with
      | [] => []
      | c :: rest => if c.sees Byte.comma then clauseStop stops false 0 rest else c :: rest := by
  fun_induction clauseStop stops true depth code with
  | case1 => rfl
  | case2 depth c code hopens ih => rw [clauseStop_of_opening hopens, ih]
  | case3 c code hopens hcloses =>
    have hcomma : c.sees Byte.comma = false := by
      by_contra hcomma
      rw [(passed_of_comma (by simpa using hcomma)).2.1] at hcloses
      cases hcloses
    simp [clauseStop, hopens, hcloses, hcomma]
  | case4 c code hopens hcloses depth ih =>
    rw [clauseStop_of_closing (by simpa using hopens) hcloses, ih]
  | case5 depth c code hopens hcloses hstops =>
    obtain ⟨hdepth, hends⟩ := Bool.and_eq_true_iff.mp hstops
    rw [clauseStop.eq_def]
    cases hcomma : c.sees Byte.comma with
    | true =>
      obtain ⟨-, -, hsemicolon, hword⟩ := passed_of_comma hcomma
      simp only [hopens, hcloses, hcomma, hsemicolon, hword, beq_iff_eq.mp hdepth,
        Bool.false_and, Bool.false_or, Bool.and_false, Bool.false_eq_true, if_false, if_true]
    | false =>
      rw [hcomma, Bool.and_false, Bool.false_or] at hends
      simp only [hopens, hcloses, hcomma, hdepth, hends, Bool.false_or, Bool.and_self,
        Bool.false_eq_true, if_false, if_true]
  | case6 depth c code hopens hcloses hgoesOn ih =>
    have hpasses : ¬(depth == 0 && (false && c.sees Byte.comma || c.sees Byte.semicolon ||
        c.startsWord && stops.any c.keyword)) = true := by
      intro hstops
      apply hgoesOn
      rw [Bool.false_and, Bool.false_or] at hstops
      obtain ⟨hdepth, hends⟩ := Bool.and_eq_true_iff.mp hstops
      rw [hdepth, Bool.or_assoc, hends, Bool.or_true, Bool.and_true]
    rw [← ih, clauseStop.eq_def]
    simp only [hopens, hcloses, hpasses, Bool.false_eq_true, if_false]

theorem passesCommas_clauseStop (stops : List Text) :
    PassesCommas stops (clauseStop stops false 0) := by
  intro code
  exact clauseStop_passing stops 0 code

namespace PassesCommas

variable {stops : List Text} {search : List Cursor → List Cursor} {c : Cursor}

/-- Such a search ends with the first item if no comma ends it. -/
theorem firstOf_of_last (h : PassesCommas stops search)
    (hends : (c.clauseEnd stops true).sees Byte.comma = false) :
    c.firstOf (search c.code) = c.clauseEnd stops true := by
  unfold clauseEnd at hends ⊢
  rw [h c.code]
  cases hstop : clauseStop stops true 0 c.code with
  | nil => rfl
  | cons d rest =>
    rw [hstop, firstOf] at hends
    exact congrArg c.firstOf (if_neg (ne_true_of_eq_false hends))

/-- Such a search ends where a new one behind the comma of the first item does, and there is less
code behind the comma. -/
theorem firstOf_of_comma (h : PassesCommas stops search)
    (hcomma : (c.clauseEnd stops true).sees Byte.comma = true) :
    ((c.clauseEnd stops true).forward 1).firstOf
        (search ((c.clauseEnd stops true).forward 1).code) = c.firstOf (search c.code) ∧
      ((c.clauseEnd stops true).forward 1).code.length < c.code.length := by
  obtain ⟨rest, hstop⟩ := exists_clauseStop_of_sees hcomma
  have hsuffix : c.clauseEnd stops true :: rest <:+ c.code := by
    rw [← hstop]
    exact clauseStop_suffix stops true 0 c.code
  have hreaches : c.Reaches ((c.clauseEnd stops true).forward 1) :=
    (reaches_clauseEnd c stops true).trans (reaches_forward _ 1)
  have hsearch : search c.code = search rest := by
    rw [h c.code, hstop]
    exact if_pos hcomma
  rw [code_behind hsuffix, hreaches.firstOf_eq, hsearch]
  exact ⟨rfl, hsuffix.length_le⟩

/-- Walking item by item leads to where such a search stops. -/
theorem itemsLeadTo (h : PassesCommas stops search) (c : Cursor) :
    c.ItemsLeadTo stops (c.firstOf (search c.code)) := by
  -- Each item is found in less code than the one before it.
  induction hlength : c.code.length using Nat.strong_induction_on generalizing c with
  | _ length ih =>
    subst hlength
    cases hcomma : (c.clauseEnd stops true).sees Byte.comma with
    | false =>
      rw [h.firstOf_of_last hcomma]
      exact .last hcomma
    | true =>
      obtain ⟨hsame, hless⟩ := h.firstOf_of_comma hcomma
      rw [← hsame]
      exact .comma hcomma (ih _ hless _ rfl)

end PassesCommas

/-- From any place, walking an ARRAY JOIN list item by item comes to an end, and the only end it
comes to is the one that a single search finds that passes commas by. There the list ends. -/
theorem Cursor.listEnd_eq_clauseEnd (text : Text) (start : Nat) :
    (∀ stop, (text.cursor start).ItemsLeadTo arrayJoinStops stop ↔
      stop = (text.cursor start).clauseEnd arrayJoinStops false) ∧
    (text.cursor start).listEnd arrayJoinStops =
      (text.cursor start).clauseEnd arrayJoinStops false := by
  have hsingle := (passesCommas_clauseStop arrayJoinStops).itemsLeadTo (text.cursor start)
  have hlist := (passesCommas_listStop arrayJoinStops).itemsLeadTo (text.cursor start)
  refine ⟨?_, hlist.unique hsingle⟩
  intro stop
  constructor
  · intro hstop
    exact hstop.unique hsingle
  · rintro rfl
    exact hsingle

end QueryBridge
