import Mathlib.Data.List.Dedup
import QueryBridge.Keyed

/-!
# Order in keyed collections

Entries that are put in one after the other are in the order of their keys, and no key comes twice.
An entry whose key is beyond all others is put at the end.
-/

namespace QueryBridge

namespace Keyed

variable {α : Type} {entries : Keyed α} {key : Text} {value : α}

/-- The entries are in the order of their keys, and no key comes twice. -/
def IsSorted (entries : Keyed α) : Prop := entries.keys.Pairwise (· < ·)

instance (entries : Keyed α) : Decidable entries.IsSorted :=
  inferInstanceAs (Decidable (entries.keys.Pairwise (· < ·)))

@[simp] theorem keys_cons (entry : Text × α) (entries : Keyed α) :
    keys (entry :: entries) = entry.1 :: entries.keys := rfl

@[simp] theorem keys_append (first second : Keyed α) :
    keys (first ++ second) = first.keys ++ second.keys := List.map_append

/-- Entries stay in order when their values change. -/
theorem IsSorted.map {β : Type} (h : entries.IsSorted) (change : α → β) :
    IsSorted (List.map (fun entry => (entry.1, change entry.2)) entries) := by
  have hkeys : keys (List.map (fun entry => (entry.1, change entry.2)) entries) = entries.keys :=
    List.map_map
  rwa [IsSorted, hkeys]

/-- In sorted entries the keys before an entry are less than its key. -/
theorem IsSorted.forall_lt {entry : Text × α} {later : Keyed α}
    (h : IsSorted (entries ++ entry :: later)) : ∀ other ∈ entries.keys, other < entry.1 := by
  unfold IsSorted at h
  rw [keys_append, keys_cons, List.pairwise_append] at h
  exact fun other hother => h.2.2 other hother entry.1 List.mem_cons_self

theorem put_of_forall_lt (h : ∀ other ∈ entries.keys, other < key) :
    put key value entries = entries ++ [(key, value)] := by
  induction entries with
  | nil => rfl
  | cons entry entries ih =>
    obtain ⟨hfirst, hrest⟩ := List.forall_mem_cons.mp h
    have hle : ¬ key < entry.1 := fun hlt => List.lt_irrefl _ (List.lt_trans hfirst hlt)
    have hne : key ≠ entry.1 := by
      intro heq
      rw [← heq] at hfirst
      exact List.lt_irrefl _ hfirst
    rw [put, if_neg hle, if_neg hne, ih hrest, List.cons_append]

theorem get?_eq_none_of_forall_lt (h : ∀ other ∈ entries.keys, other < key) :
    entries.get? key = none := by
  refine List.lookup_eq_none_iff.mpr fun entry hentry => ?_
  have hlt := h entry.1 (List.mem_map_of_mem hentry)
  rw [bne_iff_ne]
  intro heq
  rw [heq] at hlt
  exact List.lt_irrefl _ hlt

theorem get?_put_self : (put key value entries).get? key = some value := by
  induction entries with
  | nil => exact List.lookup_cons_self
  | cons entry entries ih =>
    obtain ⟨k, v⟩ := entry
    unfold put
    split
    · exact List.lookup_cons_self
    · split
      · exact List.lookup_cons_self
      next hne => rwa [get?, List.lookup_cons, beq_eq_false_iff_ne.mpr hne]

theorem get?_put_of_ne {other : Text} (h : other ≠ key) :
    (put key value entries).get? other = entries.get? other := by
  have hfalse : (other == key) = false := beq_eq_false_iff_ne.mpr h
  induction entries with
  | nil => simp [put, get?, List.lookup_cons, hfalse]
  | cons entry entries ih =>
    obtain ⟨k, v⟩ := entry
    unfold put
    split
    · simp [get?, List.lookup_cons, hfalse]
    · split
      next heq => simp [get?, List.lookup_cons, ← heq, hfalse]
      · rw [get?, List.lookup_cons, get?, List.lookup_cons]
        exact congrArg (fun found => match other == k with | true => some v | false => found) ih

/-- Where no key comes twice, the value under a key is that of any entry with the key. -/
theorem get?_eq_some_iff (h : entries.keys.Nodup) :
    entries.get? key = some value ↔ (key, value) ∈ entries := by
  induction entries with
  | nil => simp [get?]
  | cons entry entries ih =>
    obtain ⟨hfirst, hrest⟩ := List.nodup_cons.mp h
    rw [get?, List.lookup_cons, List.mem_cons]
    by_cases heq : key = entry.1
    · subst heq
      have hlater : (entry.1, value) ∉ entries := fun hmem =>
        hfirst (List.mem_map.mpr ⟨_, hmem, rfl⟩)
      simp [hlater, Prod.ext_iff, eq_comm]
    · have hne : (key, value) ≠ entry := fun hsame => heq (congrArg Prod.fst hsame)
      rw [beq_eq_false_iff_ne.mpr heq]
      exact (ih hrest).trans (or_iff_right hne).symm

/-- The order of the entries does not matter to the value under a key. -/
theorem get?_eq_of_perm (h : entries.keys.Nodup) {other : Keyed α} (hperm : other.Perm entries) :
    other.get? key = entries.get? key := by
  have hother : (keys other).Nodup := (hperm.map Prod.fst).nodup_iff.mpr h
  refine Option.ext fun value => ?_
  rw [get?_eq_some_iff h, get?_eq_some_iff hother, hperm.mem_iff]

/-- Of two values under one key the later one stays. -/
theorem put_put {later : α} : put key later (put key value entries) = put key later entries := by
  induction entries with
  | nil => simp [put]
  | cons entry entries ih =>
    obtain ⟨k, v⟩ := entry
    by_cases hlt : key < k
    · simp [put, hlt]
    · by_cases heq : key = k
      · subst heq
        simp [put, hlt]
      · simp [put, hlt, heq, ih]

/-! ### Entries put in one after the other -/

theorem IsSorted.nodup (h : entries.IsSorted) : entries.keys.Nodup :=
  List.Pairwise.imp (fun hless => by
    rintro rfl
    exact List.lt_irrefl _ hless) h

theorem mem_put {entry : Text × α} (h : entry ∈ put key value entries) :
    entry = (key, value) ∨ entry ∈ entries := by
  induction entries with
  | nil => exact .inl (List.mem_singleton.mp h)
  | cons first entries ih =>
    obtain ⟨k, v⟩ := first
    unfold put at h
    split at h
    · exact List.mem_cons.mp h
    · split at h
      · exact (List.mem_cons.mp h).imp_right (List.mem_cons_of_mem _)
      · rcases List.mem_cons.mp h with rfl | hmem
        · exact .inr List.mem_cons_self
        · exact (ih hmem).imp_right (List.mem_cons_of_mem _)

/-- The entries are among those that were put in. -/
theorem mem_of_mem_ofList {entries : List (Text × α)} {entry : Text × α}
    (h : entry ∈ ofList entries) : entry ∈ entries := by
  have hfold (found : Keyed α)
      (hmem : entry ∈ entries.foldl (fun found entry => put entry.1 entry.2 found) found) :
      entry ∈ found ∨ entry ∈ entries := by
    clear h
    induction entries generalizing found with
    | nil => exact .inl hmem
    | cons next entries ih =>
      rcases ih _ hmem with hfound | hlater
      · rcases mem_put hfound with rfl | hbefore
        · exact .inr List.mem_cons_self
        · exact .inl hbefore
      · exact .inr (List.mem_cons_of_mem _ hlater)
  exact (hfold [] h).resolve_left List.not_mem_nil

/-- Puts a value under a key, if there is a value. -/
def putAny (key : Text) (value? : Option α) (entries : Keyed α) : Keyed α :=
  value?.elim entries fun value => put key value entries

theorem get?_putAny_self {value? : Option α} (h : entries.get? key = none) :
    (putAny key value? entries).get? key = value? := by
  cases value? with
  | none => exact h
  | some value => exact get?_put_self

theorem get?_putAny_of_ne {value? : Option α} {other : Text} (h : other ≠ key) :
    (putAny key value? entries).get? other = entries.get? other := by
  cases value? with
  | none => rfl
  | some value => exact get?_put_of_ne h

end Keyed

end QueryBridge
