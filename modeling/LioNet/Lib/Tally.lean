import Mathlib.Data.Finset.Card
import Mathlib.Data.Set.Finite.Basic

/-!
# Counting the parties that pass a test

`Tally f n` says that exactly `n` parties pass the test `f`.  There may be infinitely many parties, so
the number is the size of a finite set and no sum over all of them.  A counter that a program keeps
by hand is right when it is the tally of some test on its parties; since one party moves at a time,
`Tally.move` is the only rule a proof about such a counter needs.
-/

namespace LioNet.Lib

variable {ι : Type*}

def Tally (f : ι → Bool) (n : ℕ) : Prop :=
  ∃ A : Finset ι, (∀ i, i ∈ A ↔ f i = true) ∧ A.card = n

variable {f g : ι → Bool} {n m : ℕ} {i : ι}

theorem Tally.congr (h : Tally f n) (hfg : ∀ i, g i = f i) : Tally g n := by
  obtain ⟨A, hA, hn⟩ := h
  exact ⟨A, fun i => by rw [hfg, hA], hn⟩

theorem tally_none (h : ∀ i, f i = false) : Tally f 0 :=
  ⟨∅, fun i => by simp [h], rfl⟩

theorem Tally.eq_zero_iff (h : Tally f n) : n = 0 ↔ ∀ i, f i = false := by
  obtain ⟨A, hA, rfl⟩ := h
  rw [Finset.card_eq_zero, Finset.eq_empty_iff_forall_notMem]
  constructor
  · intro hz i
    have hi := hz i
    rw [hA] at hi
    simpa using hi
  · intro hz i
    rw [hA, hz i]
    simp

theorem Tally.pos (h : Tally f n) (hi : f i = true) : 0 < n := by
  rcases Nat.eq_zero_or_pos n with hz | hpos
  · have hf := h.eq_zero_iff.mp hz i
    rw [hi] at hf
    cases hf
  · exact hpos

/-- **One party moves**: the count follows that party's test, before and after. -/
theorem Tally.move (h : Tally f n) (hother : ∀ j, j ≠ i → g j = f j)
    (hm : m = n + (g i).toNat - (f i).toNat) : Tally g m := by
  classical
  have hsame : ∀ j, j ≠ i → (g j = true ↔ f j = true) := by
    intro j hj
    rw [hother j hj]
  have hpos : f i = true → 0 < n := h.pos
  obtain ⟨A, hA, hn⟩ := h
  cases hf : f i with
  | false =>
    have hiA : i ∉ A := by
      rw [hA, hf]
      simp
    cases hg : g i with
    | false =>
      refine ⟨A, fun j => ?_, ?_⟩
      · by_cases hj : j = i
        · rw [hj, hA, hf, hg]
        · rw [hA, hsame j hj]
      · simp only [hf, hg, Bool.toNat_false] at hm
        omega
    | true =>
      refine ⟨insert i A, fun j => ?_, ?_⟩
      · by_cases hj : j = i
        · simp [hj, hg]
        · simp [hj, hA, hsame j hj]
      · rw [Finset.card_insert_of_notMem hiA]
        simp only [hf, hg, Bool.toNat_false, Bool.toNat_true] at hm
        omega
  | true =>
    have hiA : i ∈ A := (hA i).mpr hf
    have hn0 := hpos hf
    cases hg : g i with
    | true =>
      refine ⟨A, fun j => ?_, ?_⟩
      · by_cases hj : j = i
        · rw [hj, hA, hf, hg]
        · rw [hA, hsame j hj]
      · simp only [hf, hg, Bool.toNat_true] at hm
        omega
    | false =>
      refine ⟨A.erase i, fun j => ?_, ?_⟩
      · by_cases hj : j = i
        · simp [hj, hg]
        · simp [hj, hA, hsame j hj]
      · rw [Finset.card_erase_of_mem hiA]
        simp only [hf, hg, Bool.toNat_true, Bool.toNat_false] at hm
        omega

theorem Tally.unique (h : Tally f n) (h' : Tally f m) : n = m := by
  obtain ⟨A, hA, rfl⟩ := h
  obtain ⟨B, hB, rfl⟩ := h'
  have hAB : A = B := by
    ext i
    rw [hA, hB]
  rw [hAB]

/-- Two parties that pass a test which one party passes are the same. -/
theorem Tally.eq_of_one {j : ι} (h : Tally f 1) (hi : f i = true) (hj : f j = true) : i = j := by
  obtain ⟨A, hA, hcard⟩ := h
  obtain ⟨a, rfl⟩ := Finset.card_eq_one.mp hcard
  rw [Finset.mem_singleton.mp ((hA i).mpr hi), Finset.mem_singleton.mp ((hA j).mpr hj)]

/-- A test that finitely many parties pass has a tally. -/
theorem exists_tally (h : {i | f i = true}.Finite) : ∃ n, Tally f n :=
  ⟨_, h.toFinset, fun i => by simp, rfl⟩

/-- Two tests that no party passes at once count no more than a test that both imply. -/
theorem Tally.add_le {k : ι → Bool} {r : ℕ} (hf : Tally f n) (hg : Tally g m) (hk : Tally k r)
    (hfg : ∀ i, f i = true → g i = false) (hfk : ∀ i, f i = true → k i = true)
    (hgk : ∀ i, g i = true → k i = true) : n + m ≤ r := by
  classical
  obtain ⟨A, hA, rfl⟩ := hf
  obtain ⟨B, hB, rfl⟩ := hg
  obtain ⟨C, hC, rfl⟩ := hk
  have hdisj : Disjoint A B := by
    rw [Finset.disjoint_left]
    intro i hi hi'
    have hgi := (hB i).mp hi'
    rw [hfg i ((hA i).mp hi)] at hgi
    cases hgi
  have hsub : A ∪ B ⊆ C := by
    intro i hi
    rw [hC]
    rcases Finset.mem_union.mp hi with h | h
    · exact hfk i ((hA i).mp h)
    · exact hgk i ((hB i).mp h)
  calc A.card + B.card = (A ∪ B).card := (Finset.card_union_of_disjoint hdisj).symm
    _ ≤ C.card := Finset.card_le_card hsub

end LioNet.Lib
