import Mathlib.Data.List.Pairwise
import QueryBridge.Proofs.Binding.Search
import QueryBridge.Proofs.Braces.Basic

/-!
# Statements whose braces all belong to placeholders

The encoding of a string falls into characters. If each of its braces belongs to a placeholder and
no pass edits any of these, the placeholders are its only groups.
-/

namespace QueryBridge

open Text

namespace Text

/-- A text that encodes a string. -/
def IsEncoding (text : Text) : Prop := ∃ string : String, ofString string = text

section Characters

/-- A text of whole characters: bytes of ASCII, and the encodings of other characters. -/
inductive Whole : Text → Prop where
  | nil : Whole []
  | ascii {b : UInt8} {rest : Text} (hb : b.toNat < 128) (hrest : Whole rest) : Whole (b :: rest)
  | wide {lead : UInt8} {conts rest : Text} (hlead : 192 ≤ lead.toNat)
    (hconts : ∀ b ∈ conts, Byte.continues b = true) (hrest : Whole rest) :
    Whole (lead :: (conts ++ rest))

variable {text first second : Text}

theorem ofString_eq (string : String) :
    ofString string = string.toList.flatMap String.utf8EncodeChar := by
  rw [ofString, ← String.utf8Encode_toList, List.utf8Encode, List.toList_data_toByteArray]

/-- A character is encoded by a byte of ASCII, or by a lead and bytes that continue it. -/
theorem exists_utf8EncodeChar (c : Char) :
    (∃ b : UInt8, String.utf8EncodeChar c = [b] ∧ b.toNat < 128) ∨
      ∃ (lead : UInt8) (conts : Text), String.utf8EncodeChar c = lead :: conts ∧
        192 ≤ lead.toNat ∧ ∀ b ∈ conts, Byte.continues b = true := by
  have hcontinues (n : Nat) : Byte.continues (UInt8.ofNat (n % 64 + 128)) = true := by
    simp only [Byte.continues, Bool.and_eq_true, decide_eq_true_eq, UInt8.le_iff_toNat_le,
      UInt8.lt_iff_toNat_lt, UInt8.toNat_ofNat', UInt8.reduceToNat]
    omega
  have hlead {n : Nat} (hle : 192 ≤ n) (hlt : n < 256) : 192 ≤ (UInt8.ofNat n).toNat := by
    rw [UInt8.toNat_ofNat']
    omega
  unfold String.utf8EncodeChar
  dsimp only
  split
  next hascii =>
    refine Or.inl ⟨_, rfl, ?_⟩
    rw [UInt8.toNat_ofNat']
    omega
  · right
    split
    · exact ⟨_, _, rfl, hlead (by omega) (by omega),
        List.forall_mem_singleton.mpr (hcontinues _)⟩
    · split
      · exact ⟨_, _, rfl, hlead (by omega) (by omega), List.forall_mem_cons.mpr
          ⟨hcontinues _, List.forall_mem_singleton.mpr (hcontinues _)⟩⟩
      · exact ⟨_, _, rfl, hlead (by omega) (by omega), List.forall_mem_cons.mpr
          ⟨hcontinues _, List.forall_mem_cons.mpr
            ⟨hcontinues _, List.forall_mem_singleton.mpr (hcontinues _)⟩⟩⟩

theorem IsEncoding.whole (h : text.IsEncoding) : text.Whole := by
  obtain ⟨string, rfl⟩ := h
  rw [ofString_eq]
  induction string.toList with
  | nil => exact .nil
  | cons c chars ih =>
    rw [List.flatMap_cons]
    rcases exists_utf8EncodeChar c with ⟨b, hchar, hb⟩ | ⟨lead, conts, hchar, hlead, hconts⟩
    · rw [hchar]
      exact .ascii hb ih
    · rw [hchar]
      exact .wide hlead hconts ih

theorem Whole.behind (h : Whole (first ++ second)) (hfirst : ∀ b ∈ first, b.toNat < 128) :
    Whole second := by
  induction first with
  | nil => exact h
  | cons b first ih =>
    obtain ⟨hb, hfirst⟩ := List.forall_mem_cons.mp hfirst
    rw [List.cons_append] at h
    generalize htext : b :: (first ++ second) = text at h
    cases h with
    | nil => simp at htext
    | ascii _ hrest =>
      obtain ⟨-, rfl⟩ := List.cons.inj htext
      exact ih hrest hfirst
    | wide hlead =>
      obtain ⟨rfl, -⟩ := List.cons.inj htext
      omega

/-- A text of whole characters without braces. -/
theorem Whole.braced {bodies : List Text} (h : text.Whole) (hopen : Byte.openBrace ∉ text)
    (hclose : Byte.closeBrace ∉ text) : Braced bodies text := by
  induction h with
  | nil => exact .nil
  | ascii hb hrest ih =>
    simp only [List.mem_cons, not_or] at hopen hclose
    have hfree := Byte.isFree_iff.mpr ⟨hb, Ne.symm hopen.1, Ne.symm hclose.1⟩
    exact .cons (.free hfree) (ih hopen.2 hclose.2)
  | wide hlead hconts hrest ih =>
    simp only [List.mem_cons, List.mem_append, not_or] at hopen hclose
    exact .cons (.wide hlead hconts) (ih hopen.2.2 hclose.2.2)

end Characters

end Text

namespace Placeholder

variable {placeholder : Placeholder} {text : Text}

theorem StandsIn.getElem?_start (h : placeholder.StandsIn text) :
    text[placeholder.start]? = some Byte.openBrace := by
  obtain ⟨c, hc, hstart, hopen⟩ := h.opening
  rw [← hstart]
  exact Text.getElem?_of_sees (Text.mem_code.mp hc).1 hopen

theorem StandsIn.drop_start (h : placeholder.StandsIn text) :
    text.drop placeholder.start =
      (placeholder.body text).inBraces ++ text.drop placeholder.stop := by
  have hopen := h.getElem?_start
  obtain ⟨d, hd, hstop, hclose⟩ := h.closing
  have hlast := Text.getElem?_of_sees (Text.mem_code.mp hd).1 hclose
  have hnonempty := h.nonempty
  have hne : d.offset ≠ placeholder.start := by
    intro heq
    rw [heq, hopen] at hlast
    exact absurd (Option.some.inj hlast) (by decide)
  have hle : placeholder.start + 1 ≤ d.offset := by omega
  rw [body, ← hstop, Nat.add_sub_cancel, List.drop_eq_getElem?_toList_append, hopen,
    Text.drop_eq_slice_append text hle, List.drop_eq_getElem?_toList_append (i := d.offset), hlast]
  simp [inBraces]

end Placeholder

namespace Text

/-- What stands between the braces of the placeholders of a statement. -/
def bodies (text : Text) : List Text := text.placeholders.map (·.body text)

/-- A statement whose braces all belong to placeholders, none of which any pass edits. -/
structure Plain (text : Text) : Prop where
  encoding : text.IsEncoding
  opening : ∀ offset < text.length, text[offset]? = some Byte.openBrace →
    ∃ placeholder ∈ text.placeholders, placeholder.start = offset
  closing : ∀ offset < text.length, text[offset]? = some Byte.closeBrace →
    ∃ placeholder ∈ text.placeholders, placeholder.stop = offset + 1
  inert : ∀ body ∈ text.bodies, body.Inert

/-- An offset in none of the placeholders of a statement. -/
def Apart (text : Text) (offset : Nat) : Prop :=
  ∀ placeholder ∈ text.placeholders, offset ≤ placeholder.start ∨ placeholder.stop ≤ offset

variable {text : Text}

/-- No placeholder opens in a run without an opening brace. -/
theorem Apart.behind {offset : Nat} {run rest : Text} (h : text.Apart offset)
    (htext : text.drop offset = run ++ rest) (hrun : Byte.openBrace ∉ run) :
    text.Apart (offset + run.length) ∧ text.drop (offset + run.length) = rest := by
  refine ⟨fun placeholder hmem => ?_, by rw [← List.drop_drop, htext, List.drop_left]⟩
  rcases h placeholder hmem with hle | hle
  · rcases Nat.lt_or_ge placeholder.start (offset + run.length) with hlt | hge
    · exfalso
      have hopen := (standsIn_of_mem_placeholders hmem).getElem?_start
      obtain ⟨index, hindex⟩ := Nat.exists_eq_add_of_le hle
      have hlt : index < run.length := by omega
      rw [hindex, ← List.getElem?_drop, htext, List.getElem?_append_left hlt] at hopen
      exact hrun (List.mem_of_getElem? hopen)
    · exact Or.inl hge
  · exact Or.inr (by omega)

/-- Behind a placeholder no other one has begun. -/
theorem apart_stop {placeholder : Placeholder} (h : placeholder ∈ text.placeholders) :
    text.Apart placeholder.stop := by
  intro other hother
  have hapart := @List.Pairwise.forall _ (fun p q : Placeholder => p.stop ≤ q.start ∨
    q.stop ≤ p.start) _ ⟨fun _ _ => Or.symm⟩ (text.pairwise_placeholders.imp Or.inl)
  by_cases heq : placeholder = other
  · exact Or.inr (heq ▸ Nat.le_refl _)
  · have hnonempty := (standsIn_of_mem_placeholders h).nonempty
    rcases hapart h hother heq with hle | hle
    · exact Or.inl hle
    · exact Or.inr (by omega)

/-- An opening brace begins a placeholder, and whole characters stand behind it. -/
theorem Plain.exists_drop_eq_inBraces (h : text.Plain) {offset : Nat}
    (hget : text[offset]? = some Byte.openBrace) (hwhole : Whole (text.drop offset)) :
    ∃ body ∈ text.bodies, ∃ stop, offset < stop ∧ text.Apart stop ∧
      text.drop offset = body.inBraces ++ text.drop stop ∧ Whole (text.drop stop) := by
  have hlt : offset < text.length := (List.getElem?_eq_some_iff.mp hget).1
  obtain ⟨placeholder, hmem, rfl⟩ := h.opening offset hlt hget
  have hstands := standsIn_of_mem_placeholders hmem
  have hbody : placeholder.body text ∈ text.bodies := List.mem_map_of_mem hmem
  have hnonempty := hstands.nonempty
  have hsplit := hstands.drop_start
  refine ⟨_, hbody, placeholder.stop, by omega, apart_stop hmem, hsplit, ?_⟩
  rw [hsplit] at hwhole
  refine hwhole.behind fun x hx => ?_
  rcases (h.inert _ hbody).of_mem_inBraces hx with hx | rfl | rfl
  · exact (Byte.isFree_iff.mp (Byte.isFree_of_isDeclarator hx)).1
  · decide
  · decide

/-- A closing brace belongs to a placeholder. -/
theorem Plain.ne_closeBrace (h : text.Plain) {offset : Nat} (hapart : text.Apart offset)
    {b : UInt8} (hget : text[offset]? = some b) : b ≠ Byte.closeBrace := by
  rintro rfl
  have hlt : offset < text.length := (List.getElem?_eq_some_iff.mp hget).1
  obtain ⟨placeholder, hmem, hstop⟩ := h.closing offset hlt hget
  have hstands := standsIn_of_mem_placeholders hmem
  have hnonempty := hstands.nonempty
  have hstart : placeholder.start = offset := by
    rcases hapart placeholder hmem with hle | hle <;> omega
  rw [← hstart, hstands.getElem?_start] at hget
  exact absurd (Option.some.inj hget) (by decide)

theorem Plain.braced_drop (h : text.Plain) {offset : Nat} (hapart : text.Apart offset)
    (hwhole : Whole (text.drop offset)) : Braced text.bodies (text.drop offset) := by
  induction hlength : text.length - offset using Nat.strongRecOn generalizing offset with
  | ind n ih =>
    have hlater {run rest : Text} (htext : text.drop offset = run ++ rest) (hrun : run ≠ [])
        (hrest : Whole rest) (hopen : Byte.openBrace ∉ run) : Braced text.bodies rest := by
      obtain ⟨hbehind, hdrop⟩ := hapart.behind htext hopen
      have hpos := List.length_pos_iff.mpr hrun
      have hlen := congrArg List.length htext
      rw [List.length_drop, List.length_append] at hlen
      rw [← hdrop] at hrest ⊢
      exact ih _ (by omega) hbehind hrest rfl
    generalize hrest : text.drop offset = rest at hwhole
    cases hwhole with
    | nil => exact .nil
    | @ascii b rest hb hwhole =>
      have hget : text[offset]? = some b := by
        rw [← List.head?_drop, hrest]
        rfl
      by_cases hopen : b = Byte.openBrace
      · -- A placeholder starts here, and the next piece behind it.
        subst hopen
        obtain ⟨body, hbody, stop, hstop, hbehind, hsplit, hwholeStop⟩ :=
          h.exists_drop_eq_inBraces hget (hrest ▸ .ascii hb hwhole)
        have hlt : offset < text.length := (List.getElem?_eq_some_iff.mp hget).1
        rw [← hrest, hsplit]
        exact .cons (.group hbody (h.inert _ hbody)) (ih _ (by omega) hbehind hwholeStop rfl)
      · have hclose := h.ne_closeBrace hapart hget
        exact .cons (.free (Byte.isFree_iff.mpr ⟨hb, hopen, hclose⟩))
          (@hlater [b] _ hrest (by simp) hwhole (by simpa using Ne.symm hopen))
    | @wide lead conts rest hlead hconts hwhole =>
      have hopen : Byte.openBrace ∉ lead :: conts := fun hmem =>
        absurd (Byte.le_of_wide hlead hconts _ hmem) (by decide)
      exact .cons (.wide hlead hconts) (@hlater (lead :: conts) _ hrest (by simp) hwhole hopen)

/-- The placeholders of such a statement are its only groups. -/
theorem Plain.braced (h : text.Plain) : Braced text.bodies text :=
  h.braced_drop (fun _ _ => Or.inl (Nat.zero_le _)) h.encoding.whole

end Text

end QueryBridge
