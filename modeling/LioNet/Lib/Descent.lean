import Mathlib.Data.Fintype.EquivFin
import Mathlib.Logic.Relation

/-!
# Recursion that may not come to an end

A recursive function calls itself on finitely many arguments, `next a` for the argument `a`.  It
returns when the calls nest to some depth only: `Within next n a` says that `n` levels are enough.

`exists_within_iff` says that such a depth exists exactly when `a` is accessible, and
`acc_iff_no_cycle` that over finitely many arguments this means: no cycle can be reached from `a`.
-/

namespace LioNet.Lib

variable {α : Type*}

/-- A call on `a` and the calls below it nest at most `n` deep. -/
def Within (next : α → List α) : ℕ → α → Prop
  | 0, _ => False
  | n + 1, a => ∀ b ∈ next a, Within next n b

section Within

variable {next : α → List α} {a : α} {n m : ℕ}

theorem Within.succ (h : Within next n a) : Within next (n + 1) a := by
  induction n generalizing a with
  | zero => exact h.elim
  | succ n ih => exact fun b hb => ih (h b hb)

theorem Within.mono (hnm : n ≤ m) (h : Within next n a) : Within next m a := by
  induction hnm with
  | refl => exact h
  | step _ ih => exact ih.succ

/-- Finitely many calls share a depth. -/
theorem exists_within_all {bs : List α} (h : ∀ b ∈ bs, ∃ n, Within next n b) :
    ∃ n, ∀ b ∈ bs, Within next n b := by
  induction bs with
  | nil => exact ⟨0, fun _ hb => by cases hb⟩
  | cons b bs ih =>
    obtain ⟨n, hn⟩ := h b List.mem_cons_self
    obtain ⟨m, hm⟩ := ih fun c hc => h c (List.mem_cons_of_mem b hc)
    refine ⟨max n m, fun c hc => ?_⟩
    rcases List.mem_cons.mp hc with rfl | hc
    · exact hn.mono (Nat.le_max_left n m)
    · exact (hm c hc).mono (Nat.le_max_right n m)

/-- **The calls nest to a bounded depth exactly when there is no infinite chain of calls.** -/
theorem exists_within_iff : (∃ n, Within next n a) ↔ Acc (fun b a => b ∈ next a) a := by
  constructor
  · rintro ⟨n, hn⟩
    induction n generalizing a with
    | zero => exact hn.elim
    | succ n ih => exact .intro a fun b hb => ih (hn b hb)
  · intro hacc
    induction hacc with
    | intro a _ ih =>
      obtain ⟨n, hn⟩ := exists_within_all ih
      exact ⟨n + 1, hn⟩

end Within

section Cycle

open Relation

variable {r : α → α → Prop} {a b : α}

/-- An accessible point is on no cycle, and it leads to none. -/
theorem not_cycle_of_acc (h : Acc (fun b a => r a b) a) (hab : ReflTransGen r a b) :
    ¬TransGen r b b := by
  have hb : Acc (fun b a => r a b) b := by
    induction hab with
    | refl => exact h
    | tail _ hbc ih => exact ih.inv hbc
  have htrans : Acc (TransGen fun b a => r a b) b := hb.transGen
  clear hab hb h
  induction htrans with
  | intro b _ ih =>
    intro hcyc
    exact ih b (transGen_swap.mpr hcyc) hcyc

/-- **Over finitely many points, what leads to no cycle is accessible.** -/
theorem acc_iff_no_cycle [Finite α] :
    Acc (fun b a => r a b) a ↔ ∀ b, ReflTransGen r a b → ¬TransGen r b b := by
  constructor
  · exact fun h b hab => not_cycle_of_acc h hab
  · intro h
    -- the points that `a` leads to, and the order "comes after"
    let after : {b // ReflTransGen r a b} → {b // ReflTransGen r a b} → Prop :=
      fun x y => TransGen r y.1 x.1
    have htrans : IsTrans _ after := ⟨fun _ _ _ hxy hyz => hyz.trans hxy⟩
    have hirrefl : Std.Irrefl after := ⟨fun x hx => h x.1 x.2 hx⟩
    have hwf : WellFounded after := Finite.wellFounded_of_trans_of_irrefl after
    have hall : ∀ x : {b // ReflTransGen r a b}, Acc (fun b a => r a b) x.1 := by
      intro x
      induction x using hwf.induction with
      | _ x ih => exact .intro x.1 fun b hb => ih ⟨b, x.2.tail hb⟩ (.single hb)
    exact hall ⟨a, .refl⟩

end Cycle

end LioNet.Lib
