import Mathlib.Logic.Function.Basic

/-!
# Guarded runs of a labelled partial step

A system is a partial step `step : σ → κ → Option σ`: the label says which party moves (and, for
an open choice, what it does), and `none` says that this party cannot make that move here.  An
interleaving of the parties is a list of labels.

`Reach step P s₀ s` says that `s` is reached from `s₀` by moves which all meet the guard `P`, a
condition on the state before the move and the label.  With `P := fun _ _ => True` it is plain
reachability; a law that holds "in every run whose steps all meet a condition" is an invariant of
`Reach` for that condition.

`runs` executes a list of labels, so a single interleaving can be evaluated, and `Reach.of_runs` and
`Reach.of_guarded` turn the evaluation into a reachability proof.
-/

namespace LioNet.Lib

variable {σ κ : Type*}

/-- States reached from `s₀` by moves which all meet `P`. -/
inductive Reach (step : σ → κ → Option σ) (P : σ → κ → Prop) (s₀ : σ) : σ → Prop
  | refl : Reach step P s₀ s₀
  | move {s s' : σ} {l : κ} : Reach step P s₀ s → P s l → step s l = some s' →
      Reach step P s₀ s'

namespace Reach

variable {step : σ → κ → Option σ} {P Q : σ → κ → Prop} {s₀ s s' : σ}

/-- **The invariant rule.**  What holds at the start and is kept by every guarded move holds in
every state reached. -/
theorem invariant {I : σ → Prop} (hr : Reach step P s₀ s) (h0 : I s₀)
    (hstep : ∀ {s l s'}, I s → P s l → step s l = some s' → I s') : I s := by
  induction hr with
  | refl => exact h0
  | move _ hP hs ih => exact hstep ih hP hs

/-- The invariant rule with the reachability of the source state at hand. -/
theorem invariant' {I : σ → Prop} (hr : Reach step P s₀ s) (h0 : I s₀)
    (hstep : ∀ {s l s'}, Reach step P s₀ s → I s → P s l → step s l = some s' → I s') : I s := by
  induction hr with
  | refl => exact h0
  | move hr hP hs ih => exact hstep hr ih hP hs

/-- A guard may be exchanged for one that follows from it in the states reached. -/
theorem mono' (hr : Reach step P s₀ s)
    (hPQ : ∀ {s l}, Reach step P s₀ s → P s l → Q s l) : Reach step Q s₀ s := by
  induction hr with
  | refl => exact .refl
  | move hr hP hs ih => exact .move ih (hPQ hr hP) hs

theorem mono (hr : Reach step P s₀ s) (hPQ : ∀ {s l}, P s l → Q s l) : Reach step Q s₀ s :=
  hr.mono' fun _ => hPQ

theorem trans (h : Reach step P s₀ s) (h' : Reach step P s s') : Reach step P s₀ s' := by
  induction h' with
  | refl => exact h
  | move _ hP hs ih => exact .move ih hP hs

end Reach

/-- Execute a list of labels. -/
def runs (step : σ → κ → Option σ) : σ → List κ → Option σ
  | s, [] => some s
  | s, l :: ls => (step s l).bind fun s' => runs step s' ls

theorem runs_append (step : σ → κ → Option σ) (s : σ) (ls ls' : List κ) :
    runs step s (ls ++ ls') = (runs step s ls).bind fun s' => runs step s' ls' := by
  induction ls generalizing s with
  | nil => rfl
  | cons l ls ih =>
    rw [List.cons_append, runs, runs, Option.bind_assoc]
    exact Option.bind_congr fun s' _ => ih s'

/-- The step that first checks a guard. -/
def guarded (step : σ → κ → Option σ) (p : σ → κ → Bool) (s : σ) (l : κ) : Option σ :=
  if p s l then step s l else none

section Runs

variable {step : σ → κ → Option σ} {P : σ → κ → Prop}

/-- A run whose labels all meet a guard on labels alone reaches its last state. -/
theorem Reach.of_runs {p : κ → Prop} {s₀ s s' : σ} {ls : List κ}
    (h : Reach step (fun _ l => p l) s₀ s) (hp : ∀ l ∈ ls, p l)
    (hr : runs step s ls = some s') : Reach step (fun _ l => p l) s₀ s' := by
  induction ls generalizing s with
  | nil =>
    obtain rfl : s = s' := Option.some.inj hr
    exact h
  | cons l ls ih =>
    obtain ⟨t, ht, hrest⟩ := Option.bind_eq_some_iff.mp hr
    exact ih (.move h (hp l List.mem_cons_self) ht)
      (fun m hm => hp m (List.mem_cons_of_mem l hm)) hrest

/-- A run whose moves pass a check reaches its last state under every guard that the check implies,
given what is known about the states on the way. -/
theorem Reach.of_guarded {I : σ → Prop} {p : σ → κ → Bool} {s₀ s s' : σ} {ls : List κ}
    (h : Reach step P s₀ s) (hI : I s)
    (hstep : ∀ {s l s'}, I s → p s l = true → step s l = some s' → P s l ∧ I s')
    (hr : runs (guarded step p) s ls = some s') : Reach step P s₀ s' ∧ I s' := by
  induction ls generalizing s with
  | nil =>
    obtain rfl : s = s' := Option.some.inj hr
    exact ⟨h, hI⟩
  | cons l ls ih =>
    obtain ⟨t, ht, hrest⟩ := Option.bind_eq_some_iff.mp hr
    unfold guarded at ht
    split at ht
    · rename_i hp
      obtain ⟨hP, hI'⟩ := hstep hI hp ht
      exact ih (.move h hP ht) hI' hrest
    · cases ht

/-- A run that ends in a state passing a check, as one evaluation. -/
theorem exists_of_runs (step : σ → κ → Option σ) (s : σ) (ls : List κ) (check : σ → Bool)
    (h : (runs step s ls).any check = true) :
    ∃ s', runs step s ls = some s' ∧ check s' = true := by
  cases hr : runs step s ls with
  | none => simp [hr] at h
  | some s' => exact ⟨s', rfl, by simpa [hr] using h⟩

end Runs

end LioNet.Lib
