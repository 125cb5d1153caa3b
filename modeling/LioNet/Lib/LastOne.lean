import Mathlib.Data.List.Dedup

/-!
# The last element that counts

Entries are read one after the other, and each reader keeps the last one that it can use.
`dedup_eq_iff` says when two lists are alike for every reader: without the repetitions that a later
occurrence makes void, they are the same list.
-/

namespace LioNet.Lib

variable {α β : Type*} [DecidableEq α] {l l' : List α}

/-- A repeated entry counts where it stands last. -/
theorem getLast?_filterMap_dedup (f : α → Option β) (l : List α) :
    (l.dedup.filterMap f).getLast? = (l.filterMap f).getLast? := by
  induction l with
  | nil => rfl
  | cons a l ih =>
    by_cases ha : a ∈ l
    · rw [List.dedup_cons_of_mem ha, ih]
      cases hf : f a with
      | none => rw [List.filterMap_cons_none hf]
      | some b =>
        have hb : b ∈ l.filterMap f := List.mem_filterMap.mpr ⟨a, ha, hf⟩
        rw [List.filterMap_cons_some hf, List.getLast?_cons_of_ne_nil (List.ne_nil_of_mem hb)]
    · rw [List.dedup_cons_of_notMem ha]
      cases hf : f a with
      | none => rw [List.filterMap_cons_none hf, List.filterMap_cons_none hf, ih]
      | some b =>
        rw [List.filterMap_cons_some hf, List.filterMap_cons_some hf, List.getLast?_cons,
          List.getLast?_cons, ih]

theorem dedup_concat (l : List α) (a : α) :
    (l ++ [a]).dedup = (l.filter (· ≠ a)).dedup ++ [a] := by
  induction l with
  | nil => rfl
  | cons b l ih =>
    rw [List.cons_append]
    by_cases hb : b = a
    · subst hb
      rw [List.dedup_cons_of_mem (by simp), ih, List.filter_cons_of_neg (by simp)]
    · rw [List.filter_cons_of_pos (by simpa using hb)]
      by_cases hm : b ∈ l
      · rw [List.dedup_cons_of_mem (by simp [hm]), ih, List.dedup_cons_of_mem (by simp [hm, hb])]
      · rw [List.dedup_cons_of_notMem (by simp [hm, hb]), ih,
          List.dedup_cons_of_notMem (by simp [hm]), List.cons_append]

/-- **Two lists are alike for every reader exactly when they are equal after `dedup`.** -/
theorem dedup_eq_iff :
    l.dedup = l'.dedup ↔ ∀ p : α → Bool, (l.filter p).getLast? = (l'.filter p).getLast? := by
  constructor
  · intro h p
    rw [← List.filterMap_eq_filter, ← getLast?_filterMap_dedup, h, getLast?_filterMap_dedup]
  · intro h
    induction hn : l.length using Nat.strongRecOn generalizing l l' with
    | ind n ih =>
      have hlast : l.getLast? = l'.getLast? := by simpa using h fun _ => true
      rcases List.eq_nil_or_concat l with rfl | ⟨l₀, a, rfl⟩
      · have hnil : l' = [] := List.getLast?_eq_none_iff.mp hlast.symm
        rw [hnil]
      · rw [List.concat_eq_append] at *
        rw [List.getLast?_concat] at hlast
        obtain ⟨l₁, rfl⟩ := List.getLast?_eq_some_iff.mp hlast.symm
        rw [dedup_concat, dedup_concat]
        refine congrArg (· ++ [a]) (ih _ ?_ (fun p => ?_) rfl)
        · rw [← hn, List.length_append]
          exact Nat.lt_succ_of_le (List.length_filter_le _ l₀)
        · have hp := h fun b => p b && decide (b ≠ a)
          simpa [List.filter_filter] using hp

end LioNet.Lib
