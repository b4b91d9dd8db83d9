import QueryBridge.Conversion.Modifier
import QueryBridge.Proofs.Conversion.Clause

/-!
# Removed modifiers

Every modifier starts with a word in code and ends behind it, and the modifiers of a statement do
not overlap. So the edits that remove them are in order, and each begins in code or in a line
comment whose newline it takes along.
-/

namespace QueryBridge

open Text Edit

namespace Modifier

/-- The modifier that starts at a word, by the keyword that stands there. -/
inductive StartsAt (depth : Nat) (c : Cursor) (modifier : Modifier) : Prop
  | final (hword : c.keyword "FINAL" = true) (h : final? c = some modifier)
  | withFill (hword : c.keyword "WITH" = true) (h : withFill? c = some modifier)
  | interpolate (hword : c.keyword "INTERPOLATE" = true) (h : Modifier.interpolate c = modifier)
  | settings (hdepth : depth = 0) (hword : c.keyword "SETTINGS" = true)
      (h : settings? c = some modifier)
  | format (hdepth : depth = 0) (hword : c.keyword "FORMAT" = true)
      (h : format? c = some modifier)

theorem startsAt_of_at? {depth : Nat} {c : Cursor} {modifier : Modifier}
    (h : at? depth c = some modifier) : StartsAt depth c modifier := by
  unfold at? at h
  split at h
  next hword => exact .final hword h
  · split at h
    next hword => exact .withFill hword h
    · split at h
      next hword => exact .interpolate hword (Option.some.inj h)
      · split at h
        next hword =>
          simp only [Bool.and_eq_true, beq_iff_eq] at hword
          exact .settings hword.1 hword.2 h
        · split at h
          next hword =>
            simp only [Bool.and_eq_true, beq_iff_eq] at hword
            exact .format hword.1 hword.2 h
          · simp at h

/-- A modifier ends behind the first byte of its first word, in code or with the text. -/
structure EndsBehind (c : Cursor) (modifier : Modifier) : Prop where
  reaches : (c.forward 1).Reaches modifier.stop
  rests : modifier.stop.Rests

variable {text : Text} {c : Cursor} {modifier : Modifier}

theorem endsBehind_of_final? (hmode : (c.forward 5).mode = .code) (h : final? c = some modifier) :
    EndsBehind c modifier := by
  simp only [final?, Option.ite_none_right_eq_some, Option.some.injEq] at h
  rw [← h.2]
  exact ⟨c.reaches_forward_of_le (by decide), Or.inl hmode⟩

theorem endsBehind_of_withFill? (hlies : c.LiesIn text) (hmode : (c.forward 4).mode = .code)
    (h : withFill? c = some modifier) : EndsBehind c modifier := by
  simp only [withFill?, Option.bind_eq_bind, Option.bind_eq_some_iff, Option.guard_eq_some'] at h
  obtain ⟨fill, hfill, -, hword, hstop⟩ := h
  obtain rfl := Option.some.inj hstop
  have hreaches : (c.forward 1).Reaches (fill.forward 4) :=
    ((c.reaches_forward_of_le (by decide)).trans (Cursor.reaches_of_nextSignificant? hfill)).trans
      (fill.reaches_forward 4)
  have hmode : (fill.forward 4).mode = .code :=
    Cursor.mode_forward_of_keyword (Cursor.mode_of_nextSignificant? hmode hfill) hword
      (by decide) (by decide)
  exact ⟨hreaches.trans (Cursor.reaches_clauseEnd _ _ _),
    Cursor.rests_clauseEnd (hreaches.liesIn (hlies.forward 1)) hmode _ _⟩

theorem endsBehind_interpolate (hlies : c.LiesIn text) (hmode : (c.forward 11).mode = .code) :
    EndsBehind c (interpolate c) := by
  have hword : (c.forward 1).Reaches (c.forward 11) := c.reaches_forward_of_le (by decide)
  unfold interpolate
  dsimp only
  cases hnext : (c.forward 11).nextSignificant? with
  | none => exact ⟨hword, Or.inl hmode⟩
  | some next =>
    have hreaches := hword.trans (Cursor.reaches_of_nextSignificant? hnext)
    have hcode := Cursor.mode_of_nextSignificant? hmode hnext
    dsimp only
    split
    · cases hclosing : next.closingParen? with
      | none => exact ⟨hreaches.trans next.reaches_toEnd, next.rests_toEnd⟩
      | some closing =>
        have hmem := (mem_of_closing? hclosing).1
        have hclose := (Cursor.mem_code (hreaches.liesIn (hlies.forward 1)) hcode).mp hmem
        have hbehind := Cursor.forward_one_of_mem_code (mem_code.mpr ⟨hclose.1, hclose.2.1⟩)
        exact ⟨(hreaches.trans (Cursor.reaches_of_mem_code hmem)).trans (closing.reaches_forward 1),
          Or.inl hbehind.2.2⟩
    · exact ⟨hword, Or.inl hmode⟩

theorem endsBehind_of_settings? (hlies : c.LiesIn text) (hmode : (c.forward 8).mode = .code)
    (h : settings? c = some modifier) : EndsBehind c modifier := by
  simp only [settings?, Option.bind_eq_bind, Option.bind_eq_some_iff] at h
  obtain ⟨name, -, -, -, sign, -, -, -, hstop⟩ := h
  obtain rfl := Option.some.inj hstop
  exact ⟨(c.reaches_forward_of_le (by decide)).trans (Cursor.reaches_clauseEnd _ _ _),
    Cursor.rests_clauseEnd (hlies.forward 8) hmode _ _⟩

theorem endsBehind_of_format? (hmode : (c.forward 6).mode = .code)
    (h : format? c = some modifier) : EndsBehind c modifier := by
  simp only [format?, Option.bind_eq_bind, Option.bind_eq_some_iff] at h
  obtain ⟨name, hname, -, -, -, -, hstop⟩ := h
  obtain rfl := Option.some.inj hstop
  exact ⟨((c.reaches_forward_of_le (by decide)).trans
      (Cursor.reaches_of_nextSignificant? hname)).trans (name.reaches_forwardWhile _),
    Or.inl (Cursor.mode_forwardWhile Byte.isPlain_of_isIdent
      (Cursor.mode_of_nextSignificant? hmode hname))⟩

theorem endsBehind_of_at? {depth : Nat} (hc : c ∈ text.code) (h : at? depth c = some modifier) :
    EndsBehind c modifier := by
  obtain ⟨hlies, hcode⟩ := mem_code.mp hc
  have hmode {word : Text} {n : Nat} (hkeyword : c.keyword word = true) (hlength : word.length = n)
      (hword : word.all Byte.isIdent = true) : (c.forward n).mode = .code :=
    Cursor.mode_forward_of_keyword (Cursor.mode_eq_code_of_isCode hcode) hkeyword hlength hword
  cases startsAt_of_at? h with
  | final hword h => exact endsBehind_of_final? (hmode hword (by decide) (by decide)) h
  | withFill hword h =>
    exact endsBehind_of_withFill? hlies (hmode hword (by decide) (by decide)) h
  | interpolate hword h =>
    rw [← h]
    exact endsBehind_interpolate hlies (hmode hword (by decide) (by decide))
  | settings _ hword h =>
    exact endsBehind_of_settings? hlies (hmode hword (by decide) (by decide)) h
  | format _ hword h =>
    exact endsBehind_of_format? (hmode hword (by decide) (by decide)) h

theorem exists_isIdent_of_startsWord (h : c.startsWord = true) :
    ∃ b, c.byte? = some b ∧ Byte.isIdent b = true := by
  simp only [Cursor.startsWord, Bool.and_eq_true, Option.any_eq_true] at h
  obtain ⟨⟨b, hb, hletter⟩, -⟩ := h
  exact ⟨b, hb, by simp [Byte.isIdent, hletter]⟩

/-- The modifiers in some code of a text start with words in code, one behind the other. -/
theorem successive_findAll {depth place : Nat} {code : List Cursor}
    (hcode : ∀ c ∈ code, c ∈ text.code) :
    Successive (fun found => Spans text found.1 found.2.stop) (fun found => found.1.offset)
      (fun found => found.2.stop.offset) place (findAll depth place code) := by
  induction code generalizing depth place with
  | nil => exact .nil
  | cons c code ih =>
    obtain ⟨hc, hcode⟩ := List.forall_mem_cons.mp hcode
    rw [findAll]
    split
    · exact ih hcode
    next hplace =>
      split
      · exact ih hcode
      · split
        · exact ih hcode
        · split
          next hword =>
            cases hmodifier : at? depth c with
            | none => exact ih hcode
            | some modifier =>
              obtain ⟨hlies, hisCode⟩ := mem_code.mp hc
              have hends := endsBehind_of_at? hc hmodifier
              have hspans : Spans text c modifier.stop :=
                ⟨hlies, exists_isIdent_of_startsWord hword,
                  Or.inl (Cursor.mode_eq_code_of_isCode hisCode), hends.reaches, hends.rests⟩
              exact .cons hspans (Nat.le_of_not_lt hplace)
                ((c.reaches_forward 1).trans hspans.reaches).offset_le (ih hcode)
          · exact ih hcode

/-- The edits that remove the modifiers of a statement. -/
def edits (text : Text) : List Edit :=
  (findAll 0 0 text.code).map fun (start, modifier) => modifier.edit start

theorem dropModifiers_sql (text : Text) : (dropModifiers text).sql = text.splice (edits text) := rfl

theorem ordered_edits (text : Text) : Ordered text 0 (edits text) := by
  have hfound := @successive_findAll text 0 0 text.code fun _ hc => hc
  refine ordered_of_pairwise (fun _ _ => Nat.zero_le _) (fun edit hedit => ?_) ?_
  · obtain ⟨found, hmem, rfl⟩ := List.mem_map.mp hedit
    obtain ⟨hspans, -⟩ := hfound.holds found hmem
    exact ⟨hspans.nonempty, hspans.stop_le⟩
  · refine List.pairwise_map.mpr (hfound.apart.imp_of_mem fun hfirst hsecond hle => ?_)
    exact (hfound.holds _ hfirst).1.stop_le_start (hfound.holds _ hsecond).1 hle

theorem cuts_of_mem_edits {edit : Edit} (h : edit ∈ edits text) :
    edit.Cuts text ∧ edit.text = [] := by
  obtain ⟨found, hmem, rfl⟩ := List.mem_map.mp h
  have hfound := @successive_findAll text 0 0 text.code fun _ hc => hc
  exact ⟨(hfound.holds found hmem).1.cuts [], rfl⟩

/-- Removing the modifiers keeps the class of every byte around them exactly if each of them begins
and ends in code, blanks included, and no comment opens where one stood. -/
theorem keepsClass_edits_iff (hreveals : ∀ edit ∈ edits text, edit.Reveals text (edits text)) :
    text.KeepsClass (edits text) ↔
      (∀ edit ∈ edits text, edit.EdgesInCode text) ∧ Seamless text 0 (edits text) := by
  refine keepsClass_iff_edgesInCode (ordered_edits text)
    (fun edit hedit => (cuts_of_mem_edits hedit).1) (fun edit hedit _ => ?_) hreveals
  rw [(cuts_of_mem_edits hedit).2]
  exact inline_nil

end Modifier

end QueryBridge
