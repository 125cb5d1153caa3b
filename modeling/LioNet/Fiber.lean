import Mathlib.Logic.Function.Basic

/-!
# The fiber object

`Fiber` of `fiber.h`/`fiber.cc`: its state, its function, and the context that `swapcontext` loads
when the fiber is resumed.  A context is described by the place where control continues when it is
loaded:

* `entry`: `makecontext` made it, the entry function has not begun;
* `suspended b`: the body is inside `swapOut`, and `b` says what it does after that;
* `finished`: the entry function is past its last `swapOut`/`back`, on the "never reach" line.

The entry function matters at the end of the body only: `MainFunc` ends in `swapOut`,
`CallerMainFunc` in `back`.

`saved` is no field of the class.  It records whether `ctx` is where the fiber's code really stands:
resuming a fiber makes it false, and the `swapcontext` that leaves the fiber makes it true again.

Every fiber here has a stack of its own (the fibers of the no-argument constructor, one a thread,
are the threads' main fibers), so the `m_stack` assertion of `reset` passes.  `m_id` and
`m_stacksize` take no part in scheduling and are left out.
-/

namespace LioNet

/-- `Fiber::State`. -/
inductive FiberState
  | init | hold | exec | term | ready | except
  deriving DecidableEq, Repr

/-- The two functions a fiber's context can be made with. -/
inductive EntryFunc
  | mainFunc | callerMainFunc
  deriving DecidableEq, Repr

/-- Where control continues when a context is loaded. -/
inductive Ctx (β : Type)
  | entry
  | suspended (b : β)
  | finished
  deriving DecidableEq, Repr

/-- `Fiber`, with functions of type `φ` and suspended bodies of type `β`. -/
structure Fiber (φ β : Type) where
  state : FiberState
  func : Option φ
  entryFunc : EntryFunc
  ctx : Ctx β
  saved : Bool
  deriving DecidableEq, Repr

namespace FiberState

/-- `TERM` or `EXCEPT`: the states in which `run` does not resume a fiber. -/
def ended : FiberState → Bool
  | .term | .except => true
  | _ => false

/-- `READY` or `HOLD`: the states after which `run` schedules a fiber again. -/
def yielded : FiberState → Bool
  | .ready | .hold => true
  | _ => false

/-- `INIT`, `READY` or `HOLD`: the states in which a fiber may be resumed. -/
def waiting : FiberState → Bool
  | .init | .ready | .hold => true
  | _ => false

theorem ended_iff {st : FiberState} : st.ended = true ↔ st = .term ∨ st = .except := by
  cases st <;> simp [ended]

theorem yielded_iff {st : FiberState} : st.yielded = true ↔ st = .ready ∨ st = .hold := by
  cases st <;> simp [yielded]

theorem not_ended_of_yielded {st : FiberState} (h : st.yielded = true) : st.ended = false := by
  cases st <;> simp_all [ended, yielded]

end FiberState

namespace Fiber

variable {φ β : Type}

/-- `Fiber::Fiber(func, stacksize, use_caller)`. -/
def construct (func : Option φ) (useCaller : Bool) : Fiber φ β where
  state := .init
  func := func
  entryFunc := if useCaller then .callerMainFunc else .mainFunc
  ctx := .entry
  saved := true

/-- `Fiber::reset(func)`: the context is made with `MainFunc` again, whatever the constructor
chose.  `none` is the failed assertion on the state. -/
def reset (F : Fiber φ β) (func : Option φ) : Option (Fiber φ β) :=
  if F.state = .term ∨ F.state = .except ∨ F.state = .init then
    some { state := .init, func := func, entryFunc := .mainFunc, ctx := .entry, saved := true }
  else none

/-- The writes of `call`/`swapIn` on the fiber being resumed. -/
def resume (F : Fiber φ β) : Fiber φ β := { F with state := .exec, saved := false }

/-- The first half of the `swapcontext` in `swapOut`/`back`. -/
def save (F : Fiber φ β) (c : Ctx β) : Fiber φ β := { F with ctx := c, saved := true }

/-- `YieldToReady`/`YieldToHold` up to `swapOut`; `none` is the failed assertion. -/
def yieldTo (F : Fiber φ β) (st : FiberState) : Option (Fiber φ β) :=
  if F.state = .exec then some { F with state := st } else none

/-- The end of `MainFunc`/`CallerMainFunc` when the function returned. -/
def returned (F : Fiber φ β) : Fiber φ β := { F with func := none, state := .term }

/-- The `catch` clauses of `MainFunc`/`CallerMainFunc`. -/
def threw (F : Fiber φ β) : Fiber φ β := { F with state := .except }

instance : Inhabited (Fiber φ β) := ⟨construct none false⟩

/-- What a fiber looks like while nobody executes it: its context is saved and agrees with its
state. -/
def Resting (F : Fiber φ β) : Prop :=
  F.saved = true ∧
    match F.state with
    | .init => F.ctx = .entry
    | .ready | .hold => ∃ b, F.ctx = .suspended b
    | .term | .except => F.ctx = .finished
    | .exec => False

theorem resting_construct (func : Option φ) (uc : Bool) :
    (construct func uc : Fiber φ β).Resting := ⟨rfl, rfl⟩

theorem reset_eq_some_iff {F F' : Fiber φ β} {func : Option φ} :
    F.reset func = some F' ↔
      (F.state = .term ∨ F.state = .except ∨ F.state = .init) ∧ F' = construct func false := by
  unfold reset
  split
  · rename_i h
    constructor
    · intro heq
      exact ⟨h, (Option.some.inj heq).symm⟩
    · rintro ⟨-, rfl⟩
      rfl
  · rename_i h
    simp [h]

theorem Resting.state_ne_exec {F : Fiber φ β} (h : F.Resting) : F.state ≠ .exec := by
  intro he
  have h2 := h.2
  rw [he] at h2
  exact h2

/-- A resting fiber that has not ended may be resumed. -/
theorem Resting.waiting {F : Fiber φ β} (h : F.Resting) (he : F.state.ended = false) :
    F.state.waiting = true := by
  have hx := h.state_ne_exec
  cases hs : F.state <;> rw [hs] at he hx
  case init | hold | ready => rfl
  case exec => exact absurd rfl hx
  case term | except => cases he

/-- A resting fiber that has not ended can be resumed: its context is not the finished one. -/
theorem Resting.ctx_ne_finished {F : Fiber φ β} (h : F.Resting) (he : F.state.ended = false) :
    F.ctx ≠ .finished := by
  have h2 := h.2
  cases hs : F.state <;> rw [hs] at h2 he
  case init => intro hc; rw [hc] at h2; cases h2
  case exec => exact h2.elim
  case hold | ready => obtain ⟨b, hb⟩ := h2; rw [hb]; intro hc; cases hc
  case term | except => cases he

end Fiber

end LioNet
