import Mathlib.Data.List.TakeWhile
import QueryBridge.Text.Byte

/-!
# Texts cut at a byte

A text is cut at the first occurrence of a byte, so what stands before the cut does not hold the
byte. A text that does not hold it is not cut.
-/

namespace QueryBridge

namespace Text

variable {b : UInt8} {text before behind : Text}

/-- A text is cut at the first occurrence of a byte. -/
theorem cut?_eq_some_iff :
    text.cut? b = some (before, behind) ↔ text = before ++ b :: behind ∧ b ∉ before := by
  have hbefore : b ∉ text.takeWhile (· != b) := fun hmem => by
    have hne := List.mem_takeWhile_imp hmem
    simp at hne
  constructor
  · intro h
    cases hdrop : text.dropWhile (· != b) with
    | nil => simp [cut?, hdrop] at h
    | cons c rest =>
      obtain rfl : c = b := by
        have hhead := List.head?_dropWhile_not (· != b) text
        simpa [hdrop] using hhead
      simp only [cut?, hdrop, Option.some.injEq, Prod.mk.injEq] at h
      obtain ⟨rfl, rfl⟩ := h
      refine ⟨?_, hbefore⟩
      rw [← hdrop, List.takeWhile_append_dropWhile]
  · rintro ⟨rfl, hmem⟩
    have hall : ∀ c ∈ before, (c != b) = true := fun c hc =>
      bne_iff_ne.mpr (ne_of_mem_of_not_mem hc hmem)
    simp [cut?, List.dropWhile_append_of_pos hall, List.takeWhile_append_of_pos hall]

theorem cut?_append (h : b ∉ before) : cut? b (before ++ b :: behind) = some (before, behind) :=
  cut?_eq_some_iff.mpr ⟨rfl, h⟩

theorem cut?_eq_none (h : b ∉ text) : cut? b text = none := by
  refine Option.eq_none_iff_forall_not_mem.mpr fun (before, behind) hcut => h ?_
  rw [(cut?_eq_some_iff.mp hcut).1]
  exact List.mem_append_right _ List.mem_cons_self

end Text

end QueryBridge
