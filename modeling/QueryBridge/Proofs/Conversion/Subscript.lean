import Mathlib.Data.Option.Basic
import QueryBridge.Conversion.Subscript
import QueryBridge.Proofs.Lexical.Call
import QueryBridge.Proofs.Lexical.Word

/-!
# Where subscripted names stand

A subscripted name ends with a closing bracket in code. It starts where the identifiers and dots
before its first opening bracket start, however many of them there are, and that is never before the
end of the name found before it: the bracket there is none of these bytes.
-/

namespace QueryBridge

open Text Edit

namespace Byte

/-- The bytes that the search for the start of a subscripted name passes. -/
def isSubject (b : UInt8) : Bool := isIdent b || b == dot

theorem isSubject_iff {b : UInt8} : isSubject b = true ↔ isIdent b = true ∨ b = dot := by
  simp [isSubject]

theorem lt_of_isSubject {b : UInt8} (h : isSubject b = true) : b.toNat < 128 := by
  rcases isSubject_iff.mp h with hident | rfl
  · exact lt_of_isIdent hident
  · decide

end Byte

namespace Subscript

/-- A subscripted name of a text, whose first subscript opens at a cursor. -/
structure FoundAt (text : Text) (c : Cursor) (subscript : Subscript) : Prop where
  mem : c ∈ text.code
  opens : c.sees Byte.openBracket = true
  follows : c.followsIdent = true
  start_eq : subscript.start = (c.backWhile Byte.isSubject).offset
  subject_eq : subscript.subject = (c.before.takeWhile Byte.isSubject).reverse
  not_digit : (c.backWhile Byte.isSubject).byte?.any Byte.isDigit = false
  closed : ∃ d ∈ text.code, d.sees Byte.closeBracket = true ∧ d.offset + 1 = subscript.stop
  opens_lt : c.offset < subscript.stop

variable {text : Text} {c : Cursor} {code : List Cursor} {subscript : Subscript}

/-- Subscripts that follow each other end behind a bracket in code. -/
theorem closed_keysFrom (hcode : ∀ c ∈ code, c ∈ text.code) (place : Nat) :
    ((keysFrom place code).1 = [] ∧ (keysFrom place code).2 = place) ∨
      (∃ d ∈ text.code, d.sees Byte.closeBracket = true ∧ d.offset + 1 = (keysFrom place code).2) ∧
        place < (keysFrom place code).2 := by
  fun_induction keysFrom place code with
  | case1 => exact Or.inl ⟨rfl, rfl⟩
  | case2 place c code hlt ih => exact ih (List.forall_mem_cons.mp hcode).2
  | case3 => exact Or.inl ⟨rfl, rfl⟩
  | case4 place c code hlt hopens closing hclosing key hkey keys last hrest ih =>
    obtain ⟨hc, hcode⟩ := List.forall_mem_cons.mp hcode
    obtain ⟨hmem, hsees, hle⟩ := Cursor.closing?_spec hc hclosing
    have hplace : c.offset = place := by simpa using (Bool.and_eq_true_iff.mp hopens).1
    have hlater := ih hcode
    rw [hrest] at hlater
    right
    rcases hlater with ⟨-, hlast⟩ | ⟨hclosed, hbehind⟩
    · exact ⟨⟨closing, hmem, hsees, hlast.symm⟩, by dsimp only at hlast ⊢; omega⟩
    · exact ⟨hclosed, by dsimp only at hbehind ⊢; omega⟩
  | case5 => exact Or.inl ⟨rfl, rfl⟩
  | case6 => exact Or.inl ⟨rfl, rfl⟩

/-- The subscripts of a name are those that follow each other from its first bracket on. -/
theorem keysFrom_of_at? (h : at? c code = some subscript) :
    keysFrom c.offset (c :: code) = (subscript.keys, subscript.stop) ∧ subscript.keys ≠ [] := by
  simp only [at?, Option.bind_eq_bind, Option.bind_eq_some_iff] at h
  obtain ⟨-, -, -, -, hkeys⟩ := h
  split at hkeys
  · cases hkeys
  next keys stop hne hfound =>
    obtain rfl := Option.some.inj hkeys
    exact ⟨hfound, hne⟩

theorem foundAt_of_at? (hcode : ∀ d ∈ c :: code, d ∈ text.code)
    (h : at? c code = some subscript) : FoundAt text c subscript := by
  obtain ⟨hfound, hne⟩ := keysFrom_of_at? h
  simp only [at?, Option.bind_eq_bind, Option.bind_eq_some_iff, Option.guard_eq_some',
    Bool.and_eq_true, Bool.not_eq_true', hfound] at h
  obtain ⟨-, ⟨hopens, hfollows⟩, -, hdigit, hkeys⟩ := h
  have hmem := hcode c List.mem_cons_self
  have hclosed := closed_keysFrom hcode c.offset
  rw [hfound] at hclosed
  obtain ⟨hclosed, hlt⟩ := hclosed.resolve_left fun hnil => hne hnil.1
  have hmoves := (mem_code.mp hmem).1.moves_backWhile Byte.isSubject
  have hsubject : (c.backWhile Byte.isSubject).after.take
      (c.offset - (c.backWhile Byte.isSubject).offset) =
      (c.before.takeWhile Byte.isSubject).reverse := by
    rw [hmoves.after_eq, hmoves.offset_eq, Nat.add_sub_cancel_left, List.take_left]
  have hsame := Option.some.inj hkeys
  exact ⟨hmem, hopens, hfollows, (congrArg Subscript.start hsame).symm,
    (congrArg Subscript.subject hsame).symm.trans hsubject, hdigit, hclosed, hlt⟩

namespace FoundAt

/-- The name leads from its start to the bracket. -/
theorem moves (h : FoundAt text c subscript) :
    (c.backWhile Byte.isSubject).Moves subscript.subject c := by
  rw [h.subject_eq]
  exact (mem_code.mp h.mem).1.moves_backWhile _

theorem start_le (h : FoundAt text c subscript) : subscript.start ≤ c.offset := by
  rw [h.start_eq]
  exact c.backWhile_offset_le _

theorem stop_le (h : FoundAt text c subscript) : subscript.stop ≤ text.length := by
  obtain ⟨d, hd, -, hstop⟩ := h.closed
  have := lt_length_of_mem_code hd
  omega

end FoundAt

/-- The subscripted names that a search finds follow each other: the bracket that ends one of them
is no part of the next one. -/
theorem successive_findAll (hcode : ∀ c ∈ code, c ∈ text.code) {place : Nat}
    (hplace : place = 0 ∨
      ∃ d ∈ text.code, d.sees Byte.closeBracket = true ∧ d.offset + 1 = place) :
    Successive (fun subscript => ∃ c, FoundAt text c subscript) start stop place
      (findAll place code) := by
  fun_induction findAll place code with
  | case1 => exact .nil
  | case2 place c code hlt ih => exact ih (List.forall_mem_cons.mp hcode).2 hplace
  | case3 place c code hlt hat ih => exact ih (List.forall_mem_cons.mp hcode).2 hplace
  | case4 place c code hlt subscript hat ih =>
    have hfound := foundAt_of_at? hcode hat
    have hle : subscript.start ≤ subscript.stop :=
      Nat.le_trans hfound.start_le (Nat.le_of_lt hfound.opens_lt)
    refine .cons ⟨c, hfound⟩ ?_ hle (ih (List.forall_mem_cons.mp hcode).2 (Or.inr hfound.closed))
    rcases hplace with rfl | ⟨d, hd, hsees, rfl⟩
    · exact Nat.zero_le _
    · obtain ⟨hlies, hoffset, -⟩ := Cursor.forward_one_of_mem_code hd
      have hreaches := hlies.reaches (mem_code.mp hfound.mem).1 (by omega)
      rw [hfound.start_eq]
      exact Cursor.offset_lt_backWhile hreaches (beq_iff_eq.mp hsees) (by decide)

/-- The edits that extract the subscripts of a statement. -/
def edits (text : Text) : List Edit := (findAll 0 text.code).map edit

theorem extractSubscripts_eq (text : Text) :
    extractSubscripts text = text.splice (edits text) := rfl

theorem exists_foundAt (h : subscript ∈ findAll 0 text.code) :
    ∃ c, FoundAt text c subscript :=
  ((successive_findAll (fun _ hc => hc) (Or.inl rfl)).holds subscript h).1

/-- A subscripted name that a search finds opens at a cursor of the code searched. -/
theorem exists_at?_of_mem_findAll {place : Nat} (h : subscript ∈ findAll place code) :
    ∃ c rest, c :: rest <:+ code ∧ at? c rest = some subscript := by
  fun_induction findAll place code with
  | case1 => cases h
  | case2 place c code hlt ih =>
    obtain ⟨d, rest, hsuffix, hat⟩ := ih h
    exact ⟨d, rest, hsuffix.trans (List.suffix_cons c code), hat⟩
  | case3 place c code hlt hnone ih =>
    obtain ⟨d, rest, hsuffix, hat⟩ := ih h
    exact ⟨d, rest, hsuffix.trans (List.suffix_cons c code), hat⟩
  | case4 place c code hlt found hat ih =>
    rcases List.mem_cons.mp h with rfl | h
    · exact ⟨c, code, List.suffix_refl _, hat⟩
    · obtain ⟨d, rest, hsuffix, hat⟩ := ih h
      exact ⟨d, rest, hsuffix.trans (List.suffix_cons c code), hat⟩

theorem ordered_edits (text : Text) : Ordered text 0 (edits text) := by
  have hfound := @successive_findAll text text.code (fun _ hc => hc) 0 (Or.inl rfl)
  refine ordered_of_pairwise (fun _ _ => Nat.zero_le _) (List.forall_mem_map.mpr ?_)
    (List.pairwise_map.mpr hfound.apart)
  intro subscript hsubscript
  obtain ⟨c, hc⟩ := exists_foundAt hsubscript
  exact ⟨Nat.lt_of_le_of_lt hc.start_le hc.opens_lt, hc.stop_le⟩

end Subscript

end QueryBridge
