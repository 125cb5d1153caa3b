import Mathlib.Data.List.Basic
import LioNet.Lib.TakeFirst

/-!
# Turns at a queue

Several takers serve one queue, and each of them takes the first element that suits it (`takeFirst`), so
an element may be passed by one that came later.  `Turns` keeps the books of such a queue: every element
gets a number when it comes, and keeps it.

`before a b` is read "whoever would take `b` would take `a`".  If that is so of all that waits whenever
somebody takes, no `b` is ever taken before an `a` with a smaller number (`InTurn`).
-/

namespace LioNet.Lib

structure Turns (α : Type*) where
  /-- all that came -/
  arrived : List α
  /-- what is in the queue -/
  waiting : List (α × ℕ)
  /-- what was taken, in the order in which it was -/
  taken : List (α × ℕ)
  deriving DecidableEq, Repr

namespace Turns

variable {α : Type*}

def empty : Turns α := ⟨[], [], []⟩

def queue (x : Turns α) : List α := x.waiting.map Prod.fst

def arrive (x : Turns α) (as : List α) : Turns α where
  arrived := x.arrived ++ as
  waiting := x.waiting ++ as.zipIdx x.arrived.length
  taken := x.taken

/-- A taker with the test `p` takes what it finds first. -/
def serve (x : Turns α) (p : α → Bool) : Turns α :=
  match takeFirst (fun e => p e.1) x.waiting with
  | some (e, rest) => { x with waiting := rest, taken := x.taken ++ [e] }
  | none => x

variable {x : Turns α} {as : List α} {p : α → Bool} {before : α → α → Prop}

theorem queue_arrive : (x.arrive as).queue = x.queue ++ as := by
  show (x.waiting ++ as.zipIdx x.arrived.length).map Prod.fst = _
  rw [List.map_append, List.zipIdx_map_fst]
  rfl

theorem queue_serve :
    (x.serve p).queue = ((takeFirst p x.queue).map Prod.snd).getD x.queue := by
  unfold queue serve
  rw [takeFirst_map]
  cases takeFirst (fun e => p e.1) x.waiting <;> rfl

/-- **Everybody has his turn.** -/
structure InTurn (before : α → α → Prop) (x : Turns α) : Prop where
  /-- what came waits or was taken, and was taken once -/
  all : (x.taken ++ x.waiting).Perm x.arrived.zipIdx
  sorted : x.waiting.Pairwise fun a b => a.2 < b.2
  order : ∀ {a b}, a ∈ x.arrived.zipIdx → b ∈ x.taken → a.2 < b.2 → before a.1 b.1 →
    [a, b].Sublist x.taken

namespace InTurn

theorem start : InTurn before (empty : Turns α) where
  all := .refl _
  sorted := .nil
  order h := by cases h

theorem number_lt (h : x.InTurn before) {a : α × ℕ} (ha : a ∈ x.taken ++ x.waiting) :
    a.2 < x.arrived.length := by
  have hmem : (a.1, a.2) ∈ x.arrived.zipIdx := h.all.mem_iff.mp ha
  have hlt := List.snd_lt_add_of_mem_zipIdx hmem
  omega

theorem arrive (h : x.InTurn before) (as : List α) : (x.arrive as).InTurn before where
  all := by
    show (x.taken ++ (x.waiting ++ _)).Perm (x.arrived ++ as).zipIdx
    rw [List.zipIdx_append, ← List.append_assoc, Nat.zero_add]
    exact h.all.append_right _
  sorted := by
    refine List.pairwise_append.mpr ⟨h.sorted, ?_, fun a ha b hb => ?_⟩
    · apply List.pairwise_map.mp
      change ((as.zipIdx x.arrived.length).map Prod.snd).Pairwise (· < ·)
      rw [List.zipIdx_map_snd]
      exact List.pairwise_lt_range'
    · have hb' : (b.1, b.2) ∈ as.zipIdx x.arrived.length := hb
      have hle := List.le_snd_of_mem_zipIdx hb'
      have hlt := h.number_lt (List.mem_append_right _ ha)
      omega
  order {a b} ha hb hab hbefore := by
    rw [show (x.arrive as).arrived = x.arrived ++ as from rfl, List.zipIdx_append] at ha
    rcases List.mem_append.mp ha with ha | ha
    · exact h.order ha hb hab hbefore
    · -- who comes now has a greater number than all that were taken
      have ha' : (a.1, a.2) ∈ as.zipIdx (0 + x.arrived.length) := ha
      have hle := List.le_snd_of_mem_zipIdx ha'
      have hlt := h.number_lt (List.mem_append_left _ hb)
      omega

theorem serve (h : x.InTurn before)
    (hp : ∀ a ∈ x.queue, ∀ b, before a b → p b = true → p a = true) : (x.serve p).InTurn before := by
  unfold Turns.serve
  split
  · rename_i e rest htake
    obtain ⟨pre, post, hw, rfl, he, hpre⟩ := takeFirst_eq_some_iff.mp htake
    have hsorted := h.sorted
    have hall := h.all
    rw [hw] at hsorted hall
    refine ⟨?_, ?_, fun {a b} ha hb hab hbefore => ?_⟩
    · show (x.taken ++ [e] ++ (pre ++ post)).Perm _
      refine .trans ?_ hall
      rw [List.append_assoc]
      have hmiddle : (pre ++ e :: post).Perm (e :: (pre ++ post)) := List.perm_middle
      exact hmiddle.symm.append_left x.taken
    · exact hsorted.sublist ((List.sublist_cons_self e post).append_left pre)
    · rcases List.mem_append.mp hb with hb | hb
      · exact (h.order ha hb hab hbefore).trans (List.sublist_append_left _ _)
      · obtain rfl := List.mem_singleton.mp hb
        rcases List.mem_append.mp (hall.mem_iff.mpr ha) with ha | ha
        · exact (List.singleton_sublist.mpr ha).append (.refl [b])
        · -- an `a` that waits is in front of `b`, and suits the taker
          rcases List.mem_append.mp ha with hapre | hapost
          · have hqueue : a.1 ∈ x.queue := by
              refine List.mem_map_of_mem ?_
              rw [hw]
              exact List.mem_append_left _ hapre
            have hpa := hp a.1 hqueue b.1 hbefore he
            rw [hpre a hapre] at hpa
            cases hpa
          · have hpost := (List.pairwise_append.mp hsorted).2.1
            rcases List.mem_cons.mp hapost with rfl | hapost
            · exact absurd hab (Nat.lt_irrefl _)
            · exact absurd hab (Nat.lt_asymm (List.rel_of_pairwise_cons hpost hapost))
  · exact h

end InTurn

end Turns

end LioNet.Lib
