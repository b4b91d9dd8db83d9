import Mathlib.Data.List.Basic
import QueryBridge.Edit

/-!
# Splicing

A pass over a statement copies every byte that no edit removes. This file says where such a byte
goes (`Edit.moved`) and how the result falls into the pieces before and behind an edit.
-/

namespace QueryBridge

/-- Things that a search finds in a text, one behind the other from offset `place` on. -/
structure Successive {α : Type} (P : α → Prop) (start stop : α → Nat) (place : Nat)
    (found : List α) : Prop where
  holds : ∀ x ∈ found, P x ∧ place ≤ start x
  apart : found.Pairwise fun x y => stop x ≤ start y

namespace Successive

variable {α : Type} {P : α → Prop} {start stop : α → Nat} {place : Nat}

theorem nil : Successive P start stop place [] := ⟨by simp, List.Pairwise.nil⟩

/-- A search goes on behind what it has found. -/
theorem cons {x : α} {found : List α} (hx : P x) (hplace : place ≤ start x)
    (hle : start x ≤ stop x) (h : Successive P start stop (stop x) found) :
    Successive P start stop place (x :: found) where
  holds := List.forall_mem_cons.mpr
    ⟨⟨hx, hplace⟩, fun y hy => (h.holds y hy).imp_right fun hbehind => by omega⟩
  apart := List.pairwise_cons.mpr ⟨fun y hy => (h.holds y hy).2, h.apart⟩

/-- What starts before something else that is found stops before it, too. -/
theorem stop_le_start {found : List α} (h : Successive P start stop place found)
    (hle : ∀ x ∈ found, start x ≤ stop x) {x y : α} (hx : x ∈ found) (hy : y ∈ found)
    (hlt : start x < start y) : stop x ≤ start y := by
  let R (x y : α) : Prop := start x < start y → stop x ≤ start y
  have hforth : found.Pairwise R := h.apart.imp fun {x y} hapart (_ : start x < start y) => hapart
  have hback : found.Pairwise (flip R) :=
    h.apart.imp_of_mem fun {x y} hx _ hapart (hback : start y < start x) => by
      have := hle x hx
      omega
  exact hforth.forall_of_forall_of_flip (fun x _ (hself : start x < start x) => by omega) hback
    hx hy hlt

end Successive

namespace Edit

/-- Whether an edit leaves the byte at an offset in place. -/
def Spares (edit : Edit) (offset : Nat) : Prop := offset < edit.start ∨ edit.stop ≤ offset

instance (edit : Edit) (offset : Nat) : Decidable (edit.Spares offset) :=
  inferInstanceAs (Decidable (_ ∨ _))

/-- Where the byte at an offset goes when edits are made to a text from offset `place` on. The
start of an edit goes to the start of its text. -/
def movedFrom (place : Nat) : List Edit → Nat → Nat
  | [], offset => offset - place
  | edit :: edits, offset =>
    if offset ≤ edit.start then offset - place
    else edit.start - place + edit.text.length + movedFrom edit.stop edits offset

/-- Where the byte at an offset goes when edits are made to a text. -/
def moved (edits : List Edit) (offset : Nat) : Nat := movedFrom 0 edits offset

/-- Edits in the order of their places from offset `place` on, each removing something. -/
def Ordered (text : Text) (place : Nat) : List Edit → Prop
  | [] => True
  | edit :: edits =>
    place ≤ edit.start ∧ edit.start < edit.stop ∧ edit.stop ≤ text.length ∧
      Ordered text edit.stop edits

/-- Later edits start no earlier, and each removes something. -/
theorem Ordered.bounds {text : Text} {place : Nat} {edits : List Edit}
    (h : Ordered text place edits) : ∀ edit ∈ edits,
      place ≤ edit.start ∧ edit.start < edit.stop ∧ edit.stop ≤ text.length := by
  induction edits generalizing place with
  | nil => simp
  | cons edit edits ih =>
    obtain ⟨hstart, hnonempty, hbound, hrest⟩ := h
    refine List.forall_mem_cons.mpr ⟨⟨hstart, hnonempty, hbound⟩, fun later hlater => ?_⟩
    have := ih hrest later hlater
    omega

/-- The edits before another one are in order in what stands before it. -/
theorem Ordered.take {text : Text} {place : Nat} {before behind : List Edit} {edit : Edit}
    (h : Ordered text place (before ++ edit :: behind)) :
    Ordered (text.take edit.start) place before ∧ edit.start ≤ text.length := by
  obtain ⟨-, hnonempty, hbound⟩ := h.bounds edit (by simp)
  refine ⟨?_, by omega⟩
  induction before generalizing place with
  | nil => trivial
  | cons first before ih =>
    obtain ⟨hstart, hfirst, -, hrest⟩ := h
    have hle := (hrest.bounds edit (by simp)).1
    refine ⟨hstart, hfirst, ?_, ih hrest⟩
    rw [List.length_take]
    omega

/-- Edits in order are in order from any place before all of them. -/
theorem Ordered.of_le {text : Text} {place later : Nat} {edits : List Edit}
    (h : Ordered text place edits) (hstart : ∀ edit ∈ edits, later ≤ edit.start) :
    Ordered text later edits := by
  cases edits with
  | nil => trivial
  | cons edit edits =>
    obtain ⟨-, hrest⟩ := h
    exact ⟨hstart edit List.mem_cons_self, hrest⟩

theorem Ordered.behind {text : Text} {place : Nat} {before behind : List Edit} {edit : Edit}
    (h : Ordered text place (before ++ edit :: behind)) : Ordered text edit.stop behind := by
  induction before generalizing place with
  | nil => exact h.2.2.2
  | cons first before ih => exact ih h.2.2.2

/-- No edit starts at the end of its text. -/
theorem Ordered.eq_nil {text : Text} {place : Nat} {edits : List Edit}
    (h : Ordered text place edits) (hle : text.length ≤ place) : edits = [] := by
  cases edits with
  | nil => rfl
  | cons edit edits =>
    obtain ⟨hstart, hnonempty, hbound, -⟩ := h
    omega

/-- Edits that do not overlap are in order. -/
theorem ordered_of_pairwise {text : Text} {place : Nat} {edits : List Edit}
    (hstart : ∀ edit ∈ edits, place ≤ edit.start)
    (hstop : ∀ edit ∈ edits, edit.start < edit.stop ∧ edit.stop ≤ text.length)
    (hpairwise : edits.Pairwise fun first second => first.stop ≤ second.start) :
    Ordered text place edits := by
  induction hpairwise generalizing place with
  | nil => trivial
  | cons hfirst _ ih =>
    obtain ⟨hnonempty, hbound⟩ := hstop _ List.mem_cons_self
    exact ⟨hstart _ List.mem_cons_self, hnonempty, hbound,
      ih hfirst fun later hlater => hstop later (List.mem_cons_of_mem _ hlater)⟩

end Edit

namespace Text

open Edit

theorem drop_eq_slice_append (text : Text) {first last : Nat} (hle : first ≤ last) :
    text.drop first = text.slice first last ++ text.drop last := by
  have hdrop : text.drop last = (text.drop first).drop (last - first) := by
    rw [List.drop_drop, Nat.add_sub_cancel' hle]
  rw [slice, hdrop, List.take_append_drop]

theorem take_eq_append_slice (text : Text) {first last : Nat} (hle : first ≤ last) :
    text.take last = text.take first ++ text.slice first last := by
  rw [slice, ← List.take_add, Nat.add_sub_cancel' hle]

theorem length_slice {text : Text} {first last : Nat} (hlast : last ≤ text.length) :
    (text.slice first last).length = last - first := by
  simp only [slice, List.length_take, List.length_drop]
  omega

/-- A byte that is left in place is itself after the edits. -/
theorem getElem?_spliceFrom {text : Text} {place offset : Nat} {edits : List Edit}
    (hordered : Ordered text place edits) (hle : place ≤ offset)
    (hspared : ∀ edit ∈ edits, edit.Spares offset) :
    (text.spliceFrom place edits)[movedFrom place edits offset]? = text[offset]? := by
  induction edits generalizing place with
  | nil => rw [spliceFrom, movedFrom, List.getElem?_drop, Nat.add_sub_cancel' hle]
  | cons edit edits ih =>
    obtain ⟨hstart, hstop, hbound, hrest⟩ := hordered
    obtain ⟨hspare, hspared⟩ := List.forall_mem_cons.mp hspared
    have hlength : (text.slice place edit.start).length = edit.start - place :=
      length_slice (by omega)
    rw [spliceFrom, movedFrom, List.append_assoc]
    rcases hspare with hbefore | hbehind
    · rw [if_pos (by omega), List.getElem?_append_left (by omega), slice,
        List.getElem?_take_of_lt (by omega), List.getElem?_drop, Nat.add_sub_cancel' hle]
    · rw [if_neg (by omega), List.getElem?_append_right (by omega), hlength,
        List.getElem?_append_right (by omega)]
      have hindex : edit.start - place + edit.text.length + movedFrom edit.stop edits offset -
          (edit.start - place) - edit.text.length = movedFrom edit.stop edits offset := by omega
      rw [hindex]
      exact ih hrest hbehind hspared

/-- What stands between two places of the start of a text stands between them in the text. -/
theorem slice_take (text : Text) {first last stop : Nat} (hle : last ≤ stop) :
    Text.slice (text.take stop) first last = text.slice first last := by
  rw [slice, slice, List.drop_take, List.take_take, Nat.min_eq_left (by omega)]

/-- The result falls into what stands before an edit, its text, and what stands behind it. -/
theorem spliceFrom_append_cons {text : Text} {place : Nat} {before behind : List Edit}
    {edit : Edit} (hordered : Ordered text place (before ++ edit :: behind)) :
    text.spliceFrom place (before ++ edit :: behind) =
      Text.spliceFrom (text.take edit.start) place before ++ edit.text ++
        text.spliceFrom edit.stop behind := by
  induction before generalizing place with
  | nil => rw [List.nil_append, spliceFrom, spliceFrom, slice, List.drop_take]
  | cons first before ih =>
    obtain ⟨-, hnonempty, -, hrest⟩ := hordered
    have hle := (hrest.bounds edit (by simp)).1
    rw [List.cons_append, spliceFrom, spliceFrom, ih hrest, slice_take text (by omega)]
    simp only [List.append_assoc]

/-- The text of an edit comes to stand where its start goes. -/
theorem length_spliceFrom_take {text : Text} {place : Nat} {before behind : List Edit}
    {edit : Edit} (hordered : Ordered text place (before ++ edit :: behind)) :
    (Text.spliceFrom (text.take edit.start) place before).length =
      movedFrom place (before ++ edit :: behind) edit.start := by
  induction before generalizing place with
  | nil =>
    obtain ⟨-, hnonempty, hbound, -⟩ := hordered
    rw [List.nil_append, spliceFrom, movedFrom, if_pos (Nat.le_refl _), List.length_drop,
      List.length_take, Nat.min_eq_left (by omega)]
  | cons first before ih =>
    obtain ⟨hstart, hnonempty, hbound, hrest⟩ := hordered
    have hle := (hrest.bounds edit (by simp)).1
    rw [List.cons_append, spliceFrom, movedFrom, if_neg (by omega), List.length_append,
      List.length_append, ih hrest, slice_take text (by omega), length_slice (by omega)]

/-- If the last edit ends before the last byte, that byte stays the last one. -/
theorem getLast?_spliceFrom {text : Text} {place : Nat} {edits : List Edit}
    (hplace : place < text.length) (hstop : ∀ edit ∈ edits, edit.stop < text.length) :
    (text.spliceFrom place edits).getLast? = text.getLast? := by
  induction edits generalizing place with
  | nil =>
    rw [spliceFrom, List.getLast?_drop, if_neg (by omega)]
  | cons edit edits ih =>
    obtain ⟨hedit, hedits⟩ := List.forall_mem_cons.mp hstop
    have hrest := ih hedit hedits
    have hne : text.spliceFrom edit.stop edits ≠ [] := by
      rw [← List.getLast?_isSome, hrest, List.getLast?_isSome, ← List.length_pos_iff]
      omega
    rw [spliceFrom, List.getLast?_append_of_ne_nil _ hne, hrest]

/-- If the next edit starts later, what stands at a place stays there. -/
theorem head?_spliceFrom {text : Text} {place : Nat} {edits : List Edit}
    (hordered : Ordered text place edits) (hstart : ∀ edit ∈ edits, edit.start ≠ place) :
    (text.spliceFrom place edits).head? = (text.drop place).head? := by
  cases edits with
  | nil => rfl
  | cons edit edits =>
    obtain ⟨hle, hnonempty, hbound, -⟩ := hordered
    have hne := hstart edit List.mem_cons_self
    have hslice : text.slice place edit.start ≠ [] := by
      rw [← List.length_pos_iff, length_slice (by omega)]
      omega
    rw [spliceFrom, List.append_assoc, List.head?_append_of_ne_nil _ hslice, slice, List.head?_take,
      if_neg (by omega)]

/-- A byte that is left in place right behind an edit stays there. -/
theorem exists_spliceFrom_eq_cons {text : Text} {place : Nat} {edits : List Edit}
    (hordered : Ordered text place edits) (hlt : place < text.length)
    (hspared : ∀ edit ∈ edits, edit.Spares place) :
    ∃ behind, text.spliceFrom place edits = text[place] :: behind := by
  refine List.head?_eq_some_iff.mp ?_
  rw [head?_spliceFrom hordered fun edit hedit heq => ?_, List.head?_drop,
    List.getElem?_eq_getElem hlt]
  have hbounds := hordered.bounds edit hedit
  have hspare := hspared edit hedit
  unfold Spares at hspare
  omega

theorem movedFrom_place {text : Text} {place : Nat} {edits : List Edit}
    (hordered : Ordered text place edits) : movedFrom place edits place = 0 := by
  cases edits with
  | nil => simp [movedFrom]
  | cons edit edits => rw [movedFrom, if_pos hordered.1, Nat.sub_self]

/-- A byte that is left in place stays right before what stood behind it. -/
theorem movedFrom_succ {text : Text} {place offset : Nat} {edits : List Edit}
    (hordered : Ordered text place edits) (hle : place ≤ offset)
    (hspared : ∀ edit ∈ edits, edit.Spares offset) :
    movedFrom place edits (offset + 1) = movedFrom place edits offset + 1 := by
  induction edits generalizing place with
  | nil =>
    simp only [movedFrom]
    omega
  | cons edit edits ih =>
    obtain ⟨hedit, hspared⟩ := List.forall_mem_cons.mp hspared
    obtain ⟨hstart, hnonempty, -, hrest⟩ := hordered
    rcases hedit with hbefore | hbehind
    · rw [movedFrom, if_pos (by omega), movedFrom, if_pos (by omega)]
      omega
    · rw [movedFrom, if_neg (by omega), movedFrom, if_neg (by omega), ih hrest hbehind hspared]
      omega

/-- Behind a place that no edit touches stands the text from there on, with the later edits made. -/
theorem exists_drop_spliceFrom {text : Text} {place offset : Nat} {edits : List Edit}
    (hordered : Ordered text place edits) (hle : place ≤ offset)
    (hspared : ∀ edit ∈ edits, edit.Spares offset) :
    ∃ behind, Ordered text offset behind ∧ behind ⊆ edits ∧
      (text.spliceFrom place edits).drop (movedFrom place edits offset) =
        text.spliceFrom offset behind := by
  induction edits generalizing place with
  | nil =>
    refine ⟨[], trivial, List.Subset.refl _, ?_⟩
    rw [spliceFrom, movedFrom, List.drop_drop, spliceFrom, Nat.add_sub_cancel' hle]
  | cons edit edits ih =>
    obtain ⟨hedit, hspared⟩ := List.forall_mem_cons.mp hspared
    obtain ⟨hstart, hnonempty, hbound, hrest⟩ := hordered
    rcases hedit with hbefore | hbehind
    · refine ⟨edit :: edits, ⟨by omega, hnonempty, hbound, hrest⟩, List.Subset.refl _, ?_⟩
      rw [movedFrom, if_pos (by omega), spliceFrom, spliceFrom, List.append_assoc,
        List.drop_append_of_le_length (by rw [length_slice (by omega)]; omega), List.append_assoc]
      congr 1
      rw [slice, slice, List.drop_take, List.drop_drop, Nat.add_sub_cancel' hle]
      congr 1
      omega
    · obtain ⟨behind, hordered, hsub, hdrop⟩ := ih hrest hbehind hspared
      refine ⟨behind, hordered, fun e he => List.mem_cons_of_mem _ (hsub he), ?_⟩
      have hlength : (text.slice place edit.start ++ edit.text).length =
          edit.start - place + edit.text.length := by
        rw [List.length_append, length_slice (by omega)]
      rw [movedFrom, if_neg (by omega), spliceFrom, ← hdrop, ← List.drop_drop, ← hlength,
        List.drop_left]

/-- Up to a place before all edits the text is copied. -/
theorem spliceFrom_eq_slice_append {text : Text} {place later : Nat} {edits : List Edit}
    (hle : place ≤ later) (hstart : ∀ edit ∈ edits, later ≤ edit.start) :
    text.spliceFrom place edits = text.slice place later ++ text.spliceFrom later edits := by
  cases edits with
  | nil => exact drop_eq_slice_append text hle
  | cons edit edits =>
    have hlater := hstart edit List.mem_cons_self
    have hsum : edit.start - place = later - place + (edit.start - later) := by omega
    have hslice : text.slice place edit.start =
        text.slice place later ++ text.slice later edit.start := by
      rw [slice, slice, slice, hsum, List.take_add, List.drop_drop, Nat.add_sub_cancel' hle]
    rw [spliceFrom, spliceFrom, hslice]
    simp only [List.append_assoc]

/-- What stands behind all edits is copied at the end. -/
theorem drop_suffix_spliceFrom {text : Text} {place offset : Nat} {edits : List Edit}
    (hplace : place ≤ offset) (hstop : ∀ edit ∈ edits, edit.stop ≤ offset) :
    text.drop offset <:+ text.spliceFrom place edits := by
  induction edits generalizing place with
  | nil =>
    obtain ⟨count, rfl⟩ := Nat.exists_eq_add_of_le hplace
    rw [spliceFrom, ← List.drop_drop]
    exact List.drop_suffix _ _
  | cons edit edits ih =>
    obtain ⟨hedit, hedits⟩ := List.forall_mem_cons.mp hstop
    exact (ih hedit hedits).trans (List.suffix_append _ _)

/-- If nothing is put in, what comes to stand at a place has stood there, or behind edits that
remove everything in between. -/
theorem head?_spliceFrom_or {text : Text} {place : Nat} {edits : List Edit}
    (hordered : Ordered text place edits) (hempty : ∀ edit ∈ edits, edit.text = []) :
    (text.spliceFrom place edits).head? = text[place]? ∨
      ∃ edit ∈ edits, (text.spliceFrom place edits).head? = text[edit.stop]? ∧
        ∀ offset, place ≤ offset → offset < edit.stop → ∃ e ∈ edits, ¬e.Spares offset := by
  induction edits generalizing place with
  | nil => exact Or.inl (by rw [spliceFrom, List.head?_drop])
  | cons edit edits ih =>
    by_cases hstart : edit.start = place
    · obtain ⟨-, hnonempty, hbound, hrest⟩ := hordered
      obtain ⟨hnothing, hempty⟩ := List.forall_mem_cons.mp hempty
      have hhead : text.spliceFrom place (edit :: edits) = text.spliceFrom edit.stop edits := by
        rw [spliceFrom, hstart, slice, Nat.sub_self, List.take_zero, hnothing, List.nil_append,
          List.nil_append]
      have hremoved (offset : Nat) (hle : place ≤ offset) (hlt : offset < edit.stop) :
          ¬edit.Spares offset := by
        unfold Spares
        omega
      refine Or.inr ?_
      rw [hhead]
      rcases ih hrest hempty with hsame | ⟨later, hmem, hsame, hbetween⟩
      · exact ⟨edit, List.mem_cons_self, hsame,
          fun offset hle hlt => ⟨edit, List.mem_cons_self, hremoved offset hle hlt⟩⟩
      · refine ⟨later, List.mem_cons_of_mem _ hmem, hsame, fun offset hle hlt => ?_⟩
        rcases Nat.lt_or_ge offset edit.stop with hinside | hbehind
        · exact ⟨edit, List.mem_cons_self, hremoved offset hle hinside⟩
        · obtain ⟨e, he, htouched⟩ := hbetween offset hbehind hlt
          exact ⟨e, List.mem_cons_of_mem _ he, htouched⟩
    · refine Or.inl ?_
      have hlater (e : Edit) (he : e ∈ edit :: edits) : e.start ≠ place := by
        rcases List.mem_cons.mp he with rfl | he
        · exact hstart
        · have := hordered.2.2.2.bounds e he
          have := hordered.1
          have := hordered.2.1
          omega
      rw [head?_spliceFrom hordered hlater, List.head?_drop]

end Text

namespace Edit

/-- The order of bytes is kept. -/
theorem movedFrom_mono {edits : List Edit} {place first last : Nat} (hle : first ≤ last) :
    movedFrom place edits first ≤ movedFrom place edits last := by
  induction edits generalizing place with
  | nil => exact Nat.sub_le_sub_right hle place
  | cons edit edits ih =>
    have := @ih edit.stop
    simp only [movedFrom]
    split <;> split <;> omega

/-- Two bytes that edits leave next to each other although something stood between them. -/
structure Joins (edits : List Edit) (first last : Nat) : Prop where
  apart : first + 1 < last
  spared : ∀ edit ∈ edits, edit.Spares first ∧ edit.Spares last
  adjacent : moved edits last = moved edits first + 1

/-- The last of the edits between two such bytes ends at the second one. -/
theorem Joins.exists_stop {text : Text} {edits : List Edit} {first last : Nat}
    (h : Joins edits first last) (hordered : Ordered text 0 edits) :
    ∃ edit ∈ edits, edit.stop = last := by
  obtain ⟨hapart, hspared, hadjacent⟩ := h
  by_contra hnone
  have hbetween (edit : Edit) (hedit : edit ∈ edits) : edit.Spares (last - 1) := by
    have hne : edit.stop ≠ last := fun heq => hnone ⟨edit, hedit, heq⟩
    have := (hspared edit hedit).2
    unfold Spares at this ⊢
    omega
  have hfirst := Text.movedFrom_succ hordered (Nat.zero_le first) fun edit hedit => (hspared edit hedit).1
  have hlast := Text.movedFrom_succ hordered (Nat.zero_le (last - 1)) hbetween
  rw [Nat.sub_add_cancel (by omega)] at hlast
  have hmono : movedFrom 0 edits (first + 1) ≤ movedFrom 0 edits (last - 1) :=
    movedFrom_mono (by omega)
  unfold moved at hadjacent
  omega

end Edit

end QueryBridge
