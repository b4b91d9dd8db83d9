import Mathlib.Data.Nat.Bitwise
import QueryBridge.Proofs.Lexical.Word

/-!
# Boundaries of characters

The text of a string may only be cut between two of its characters. An ASCII byte is a character of
its own, so there is such a boundary on either side of it.
-/

namespace QueryBridge

open String

namespace Byte

theorem isUTF8FirstByte_of_lt {b : UInt8} (h : b.toNat < 128) : b.IsUTF8FirstByte := by
  have hbit : b.toNat.testBit 7 = false := Nat.testBit_lt_two_pow h
  have hand := Nat.and_two_pow b.toNat 7
  rw [hbit] at hand
  exact Or.inl (UInt8.toNat_inj.mp (by simpa using hand))

/-- An ASCII byte encodes a character. -/
theorem isValidUTF8_of_lt {b : UInt8} (h : b.toNat < 128) : [b].toByteArray.IsValidUTF8 := by
  have hval : (Char.ofUInt8 b).val.toNat = b.toNat := UInt8.toNat_toUInt32 b
  have hsize : (Char.ofUInt8 b).utf8Size = 1 := by
    rw [Char.utf8Size_eq_one_iff, UInt32.le_iff_toNat_le, hval]
    exact Nat.le_of_lt_succ h
  refine ⟨[Char.ofUInt8 b], ?_⟩
  rw [List.utf8Encode_singleton, utf8EncodeChar_eq_singleton hsize]
  exact congrArg (fun c => [c].toByteArray) (UInt8.toUInt8_toUInt32 b).symm

theorem lt_of_isBlank {b : UInt8} (h : isBlank b = true) : b.toNat < 128 := by
  simp only [isBlank, Bool.or_eq_true, beq_iff_eq] at h
  rcases h with (((rfl | rfl) | rfl) | rfl) | rfl <;> decide

end Byte

namespace Text

variable {sql : String} {offset : Nat} {b : UInt8}

theorem length_ofString (sql : String) : (ofString sql).length = sql.utf8ByteSize := by
  simp [ofString]

theorem isValid_length (sql : String) : Pos.Raw.IsValid sql ⟨(ofString sql).length⟩ := by
  rw [length_ofString]
  exact Pos.Raw.isValid_rawEndPos

/-- A string can be cut before an ASCII byte. -/
theorem isValid_of_getElem? (hget : (ofString sql)[offset]? = some b) (hb : b.toNat < 128) :
    Pos.Raw.IsValid sql ⟨offset⟩ := by
  obtain ⟨hlt, hget⟩ := List.getElem?_eq_some_iff.mp hget
  have hbound : (⟨offset⟩ : Pos.Raw) < sql.rawEndPos := by
    rw [Pos.Raw.lt_iff]
    simpa [length_ofString] using hlt
  have hbyte : sql.getUTF8Byte ⟨offset⟩ hbound = b := by
    rw [← hget]
    simp only [getUTF8Byte, ofString, Array.getElem_toList]
    rfl
  refine Pos.Raw.isValid_iff_isUTF8FirstByte.mpr (Or.inr ⟨hbound, ?_⟩)
  rw [hbyte]
  exact Byte.isUTF8FirstByte_of_lt hb

/-- A string can be cut behind an ASCII byte. -/
theorem isValid_succ_of_getElem? (hget : (ofString sql)[offset]? = some b) (hb : b.toNat < 128) :
    Pos.Raw.IsValid sql ⟨offset + 1⟩ := by
  obtain ⟨-, hbefore⟩ :=
    Pos.Raw.isValid_iff_isValidUTF8_extract_zero.mp (isValid_of_getElem? hget hb)
  obtain ⟨hlt, hget⟩ := List.getElem?_eq_some_iff.mp hget
  refine Pos.Raw.isValid_iff_isValidUTF8_extract_zero.mpr ⟨?_, ?_⟩
  · rw [Pos.Raw.le_iff]
    simpa [length_ofString, Nat.succ_le_iff] using hlt
  have hsplit : sql.toByteArray.extract 0 (offset + 1) =
      sql.toByteArray.extract 0 offset ++ [b].toByteArray := by
    refine ByteArray.ext (Array.toList_inj.mp ?_)
    have htake := List.take_succ_eq_append_getElem hlt
    rw [hget] at htake
    simpa [ofString] using htake
  rw [hsplit]
  exact hbefore.append (Byte.isValidUTF8_of_lt hb)

/-- What stands between two boundaries of a string is a string. -/
theorem exists_ofString_eq_slice {first last : Nat} (hle : first ≤ last)
    (hfirst : Pos.Raw.IsValid sql ⟨first⟩) (hlast : Pos.Raw.IsValid sql ⟨last⟩) :
    ∃ piece : String, ofString piece = (ofString sql).slice first last := by
  have h : sql.pos ⟨first⟩ hfirst ≤ sql.pos ⟨last⟩ hlast := hle
  refine ⟨(sql.slice (sql.pos ⟨first⟩ hfirst) (sql.pos ⟨last⟩ hlast) h).copy, ?_⟩
  simp only [ofString, Slice.toByteArray_copy, ByteArray.data_extract, Array.toList_extract]
  simp [slice]

end Text

namespace Cursor

variable {c : Cursor} {sql : String}

/-- A cursor at the end of its text, or beside an ASCII byte. -/
inductive Bordered (c : Cursor) : Prop
  | atEnd (h : c.after = [])
  | before {b : UInt8} (h : c.byte? = some b) (hb : b.toNat < 128)
  | behind {b : UInt8} (h : c.before.head? = some b) (hb : b.toNat < 128)

/-- Such a cursor stands between two characters. -/
theorem Bordered.isValid (h : c.Bordered) (hlies : c.LiesIn (Text.ofString sql)) :
    Pos.Raw.IsValid sql ⟨c.offset⟩ := by
  cases h with
  | atEnd h =>
    have hdrop := hlies.drop_eq
    rw [h, List.drop_eq_nil_iff] at hdrop
    rw [Nat.le_antisymm hlies.offset_le hdrop]
    exact Text.isValid_length sql
  | before h hb =>
    rw [hlies.byte?_eq] at h
    exact Text.isValid_of_getElem? h hb
  | behind h hb =>
    obtain ⟨before, hbefore⟩ := List.head?_eq_some_iff.mp h
    have hcounted := hlies.counted
    rw [hbefore, List.length_cons] at hcounted
    rw [hlies.before_head?_eq hcounted.symm] at h
    rw [hcounted]
    exact Text.isValid_succ_of_getElem? h hb

/-- Moving back over ASCII bytes stays between two characters. -/
theorem Bordered.backWhile {p : UInt8 → Bool} (h : c.Bordered)
    (hp : ∀ {b}, p b = true → b.toNat < 128) : (c.backWhile p).Bordered := by
  cases hrun : (c.before.takeWhile p).reverse with
  | nil =>
    have hstays : c.backWhile p = c := by
      simp [Cursor.backWhile, List.reverse_eq_nil_iff.mp hrun]
    rwa [hstays]
  | cons b run =>
    have hmem : b ∈ (c.before.takeWhile p).reverse := by
      rw [hrun]
      exact List.mem_cons_self
    have hbyte : (c.backWhile p).byte? = some b := by simp [byte?, Cursor.backWhile, hrun]
    exact .before hbyte (hp (List.mem_takeWhile_imp (List.mem_reverse.mp hmem)))

theorem bordered_of_sees {b : UInt8} (h : c.sees b = true) (hb : b.toNat < 128) : c.Bordered :=
  .before (beq_iff_eq.mp h) hb

/-- Behind an ASCII byte there is a boundary. -/
theorem bordered_forward_one {b : UInt8} (h : c.sees b = true) (hb : b.toNat < 128) :
    (c.forward 1).Bordered := by
  obtain ⟨rest, hafter⟩ : ∃ rest, c.after = b :: rest :=
    List.head?_eq_some_iff.mp (by simpa [sees, byte?] using h)
  exact .behind (by simp [forward, hafter]) hb

theorem bordered_toEnd (c : Cursor) : c.toEnd.Bordered := .atEnd c.after_toEnd

/-- Behind bytes of an identifier there is a boundary. -/
theorem bordered_of_moves {d : Cursor} {run : Text} (h : c.Moves run d) (hne : run ≠ [])
    (hrun : ∀ b ∈ run, Byte.isIdent b = true) : d.Bordered := by
  obtain rfl | ⟨init, last, rfl⟩ := List.eq_nil_or_concat run
  · exact absurd rfl hne
  have hlast : d.before.head? = some last := by
    rw [← List.getLast?_reverse, h.before_eq]
    simp
  exact .behind hlast (Byte.lt_of_isIdent (hrun last (by simp)))

theorem bordered_forward_of_keyword {word : Text} {n : Nat} (h : c.keyword word = true)
    (hlength : word.length = n) (hword : word ≠ [] ∧ word.all Byte.isIdent = true) :
    (c.forward n).Bordered := by
  obtain ⟨run, hmoves, hrun, hident⟩ := exists_moves_of_keyword h hlength hword.2
  have hpos := List.length_pos_iff.mpr hword.1
  exact bordered_of_moves hmoves (List.length_pos_iff.mp (by omega)) hident

/-- Behind a word of an identifier there is a boundary. -/
theorem bordered_forwardWhile (h : c.byte?.any Byte.isIdent = true) :
    (c.forwardWhile Byte.isIdent).Bordered := by
  obtain ⟨b, hb, hident⟩ := (Option.any_eq_true _ _).mp h
  obtain ⟨rest, hafter⟩ : ∃ rest, c.after = b :: rest := List.head?_eq_some_iff.mp hb
  refine bordered_of_moves (c.moves_forwardWhile Byte.isIdent) ?_ fun x hx =>
    List.mem_takeWhile_imp hx
  simp [hafter, hident]

end Cursor

end QueryBridge
