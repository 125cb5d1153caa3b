import LioNet.Scheduler.Accounting
import LioNet.Scheduler.Control

/-!
# No fiber is resumed after its end

A context past its last `swapOut`/`back` stands on the "never reach" line.  `run()` looks at the state
of a task's fiber before it resumes it, and at the state of its idle fiber.  `stop()` does so for the
root fiber on one path only: when the scheduler has worker threads, or when the first `stopping()` is
false, it comes to line 97 with the root fiber in any state, and calls it unless `stopping()` is true.

The root fiber is made once and runs `run()` once.  `Tracked` notes beside a run which schedulers have
called theirs, and `CallRun` asks that no `stop()` that comes to line 97 with work left follows one that
did.
-/

namespace LioNet.Scheduler

open LioNet.Lib

/-- A state, and the schedulers that have executed `m_rootFiber->call()`. -/
structure Tracked where
  state : State
  called : SchedId → Bool

def Tracked.init (u : Setup) : Tracked := ⟨u.init, fun _ => false⟩

def Tracked.step (x : Tracked) (l : Label) : Option Tracked :=
  (Scheduler.step x.state l).map fun s' =>
    match l with
    | .owner i =>
      ⟨s', Function.update x.called i (x.called i || (x.state.scheds i).owner = .call)⟩
    | _ => { x with state := s' }

/-- Fibers are taken out of nobody's hands, and a `stop()` that finds work at line 97 does not follow
one that has called the root fiber. -/
structure CallRun (x : Tracked) (l : Label) : Prop where
  free : TakesFree x.state l
  once : ∀ i, l = .owner i → (x.state.scheds i).owner = .check2 → x.state.stopping i = false →
    x.called i = false

/-- Every `swapIn()` and every `call()` that comes next is of an INIT, READY or HOLD fiber, and finds
no context past its end. -/
structure ResumesWaiting (s : State) : Prop where
  task : ∀ w v f, (s.workers w).pc = .exec v f .enter →
    (s.fibers f).state.waiting = true ∧ (s.fibers f).ctx ≠ .finished
  idle : ∀ w, (s.workers w).pc = .idleIn → (s.workers w).idle.waiting = true
  root : ∀ i, (s.scheds i).owner = .call → (s.scheds i).rootFiber.waiting = true

/-- The idle fiber's state, as the worker's control point calls for. -/
def Worker.IdleOk (W : Worker) : Prop :=
  match W.pc with
  | .idleRun => True
  | .idleInc | .idleIn => W.idle.waiting = true
  | _ => W.idle.waiting = true ∨ W.idle = .term

variable {s s' : State} {w : ThreadId}

theorem Worker.IdleOk.next {W W' : Worker} (h : W.IdleOk) (hidle : W'.idle = W.idle)
    (hpc : W.pc ≠ .idleRun) (hpc' : W'.pc ≠ .idleInc ∧ W'.pc ≠ .idleIn) : W'.IdleOk := by
  have hor : W'.idle.waiting = true ∨ W'.idle = .term := by
    rw [hidle]
    unfold Worker.IdleOk at h
    split at h
    · rename_i hx
      exact absurd hx hpc
    · exact .inl h
    · exact .inl h
    · exact h
  unfold Worker.IdleOk
  split
  · trivial
  · rename_i hx
    exact absurd hx hpc'.1
  · rename_i hx
    exact absurd hx hpc'.2
  · exact hor

/-- A worker's move keeps its idle fiber in order. -/
theorem RunMove.idleOk (hm : RunMove s w s') (h : (s.workers w).IdleOk) : (s'.workers w).IdleOk := by
  cases hm with
  | toIdle hpc hft hi =>
    unfold Worker.IdleOk at h
    rw [hpc] at h
    simp only [State.setWorker_workers, Function.update_self]
    exact h.resolve_right hi
  | idleInc hpc =>
    unfold Worker.IdleOk at h
    rw [hpc] at h
    simp only [State.setWorker_workers, Function.update_self]
    exact h
  | idleIn => simp [Worker.IdleOk]
  | idleStop => simp [Worker.IdleOk]
  | idleWait => simp [Worker.IdleOk, FiberState.waiting]
  | idleDec hpc =>
    unfold Worker.IdleOk at h
    rw [hpc] at h
    simp only [State.setWorker_workers, Function.update_self, Worker.IdleOk]
    split
    · exact h
    · exact .inl rfl
  | leave hpc =>
    exact h.next (by simp) (by simp [hpc]) (by simp)
  | take hpc | noEntry hpc | dropEnded hpc | enterFiber hpc | reuseFunc hpc | newFunc hpc | drop hpc
    | begin hpc | beginEmpty hpc | resume hpc | hold hpc | save hpc | saveBack hpc | decr hpc | keep hpc
    | endFiber hpc | endFunc hpc | lostFiber hpc | lostFunc hpc | requeueFiber hpc
    | requeueFunc hpc =>
    exact h.next (by simp [State.leaveBody, State.decActive]) (by simp [hpc])
      (by simp [State.leaveBody, State.decActive])

/-- Every move keeps every worker's idle fiber in order. -/
theorem step_idleOk {l : Label} (h : ∀ w, (s.workers w).IdleOk) (hs : step s l = some s')
    (w : ThreadId) : (s'.workers w).IdleOk := by
  by_cases hl : l.worker = some w
  · cases move_of_step hs with
    | @run w' _ _ hm =>
      obtain rfl : w' = w := Option.some.inj hl
      exact hm.idleOk (h w')
    | @body w' v f a _ _ hpc hm =>
      obtain rfl : w' = w := Option.some.inj hl
      obtain ⟨-, st, hW⟩ := hm.control hpc
      rw [hW, Function.update_self]
      exact (h w').next rfl (by simp [hpc]) (by simp)
    | _ => cases hl
  · rcases step_worker_other hs hl with hsame | ⟨j, ws, -, -, -, hfresh⟩
    · rw [hsame]
      exact h w
    · rw [hfresh]
      exact .inl rfl

/-! ### The root fiber -/

variable {x x' : Tracked}

theorem Tracked.of_step {l : Label} (h : x.step l = some x') :
    Scheduler.step x.state l = some x'.state := by
  obtain ⟨s', hs, rfl⟩ := Option.map_eq_some_iff.mp h
  cases l <;> exact hs

theorem Tracked.called_owner {i : SchedId} (h : x.step (.owner i) = some x') :
    x'.called i = (x.called i || (x.state.scheds i).owner = .call) := by
  obtain ⟨s', -, rfl⟩ := Option.map_eq_some_iff.mp h
  exact Function.update_self _ _ _

theorem Tracked.called_other {l : Label} {i : SchedId} (hl : l ≠ .owner i)
    (h : x.step l = some x') : x'.called i = x.called i := by
  obtain ⟨s', -, rfl⟩ := Option.map_eq_some_iff.mp h
  cases l with
  | owner j => exact Function.update_of_ne (fun e => hl (by rw [e])) _ _
  | _ => rfl

/-- Until it is called the root fiber is INIT, and `m_rootFiber->call()` comes next only then. -/
structure Sched.Fresh (S : Sched) (called : Bool) : Prop where
  init : called = false → S.rootFiber = .init ∧ S.owner ≠ .called
  call : S.owner = .call → called = false

/-- Line 97 leads to the first call only, and the call is noted. -/
theorem OwnerMove.fresh {i : SchedId} {called : Bool} (hm : OwnerMove s i s')
    (h : (s.scheds i).Fresh called)
    (honce : (s.scheds i).owner = .check2 → s.stopping i = false → called = false) :
    (s'.scheds i).Fresh (called || (s.scheds i).owner = .call) := by
  cases hm with
  | toCall hc hst =>
    obtain rfl := honce hc hst
    have hinit := h.init rfl
    exact ⟨fun _ => by simpa using hinit.1, fun _ => by simp [hc]⟩
  | call hc _ => exact ⟨fun hf => by simp [hc] at hf, fun ho => by simp at ho⟩
  | setStopping hc =>
    refine ⟨fun hf => ?_, fun ho => ?_⟩
    · have hinit := h.init (by simpa [hc] using hf)
      refine ⟨by simpa using hinit.1, ?_⟩
      simp only [State.setSched_scheds, Function.update_self]
      split <;> simp
    · simp only [State.setSched_scheds, Function.update_self] at ho
      split at ho <;> cases ho
  | stopAlone hc | stopPool hc | returnEarly hc | goOn hc | skipCall hc | swap hc | join hc =>
    refine ⟨fun hf => ?_, fun ho => by simp at ho⟩
    have hinit := h.init (by simpa [hc] using hf)
    simpa using hinit.1

theorem fresh_step {l : Label} {i : SchedId} (h : (x.state.scheds i).Fresh (x.called i))
    (hl : CallRun x l) (hs : x.step l = some x') :
    (x'.state.scheds i).Fresh (x'.called i) := by
  by_cases he : l = .owner i
  · subst he
    rw [Tracked.called_owner hs]
    have hmove := move_of_step (Tracked.of_step hs)
    generalize x'.state = s' at hmove ⊢
    cases hmove with
    | owner _ hm => exact hm.fresh h (hl.once i rfl)
  · rw [Tracked.called_other he hs]
    rcases step_control (Tracked.of_step hs) i with
      hsame | ⟨w, -, hi, hr, hc, -, hswap, -⟩ | ⟨ws, rfl⟩ | ⟨⟨-, hu⟩ | ⟨hlabel, -⟩, hm⟩
    · refine ⟨?_, ?_⟩
      · rw [hsame.rootFiber, hsame.owner]
        exact h.init
      · rw [hsame.owner]
        exact h.call
    · -- the root worker gives the thread back, so the root fiber has been called
      have ho := called_of_onCpu hc hr
      rw [State.schedOf, hi] at ho
      refine ⟨fun hf => absurd ho (h.init hf).2, fun ho' => ?_⟩
      rw [hswap] at ho'
      cases ho'
    · obtain ⟨hu, ⟨heq, -⟩ | ⟨-, -, -, -, -, heq⟩⟩ := start_cases (Tracked.of_step hs)
      · rw [heq]
        exact h
      · rw [heq]
        exact ⟨fun hf => by simpa [hu] using (h.init hf).1, fun ho => by simp [hu] at ho⟩
    · simpa [hu] using hm.fresh h fun hc => by simp [hu] at hc
    · exact absurd hlabel he

/-- What such runs keep. -/
structure Waiting (x : Tracked) : Prop where
  excl : Exclusive x.state
  idle : ∀ w, (x.state.workers w).IdleOk
  fresh : ∀ i, (x.state.scheds i).Fresh (x.called i)

theorem Waiting.step {l : Label} (h : Waiting x) (hl : CallRun x l) (hs : x.step l = some x') :
    Waiting x' :=
  ⟨h.excl.step hl.free (Tracked.of_step hs), step_idleOk h.idle (Tracked.of_step hs),
    fun i => fresh_step (h.fresh i) hl hs⟩

theorem Waiting.init (u : Setup) : Waiting (.init u) where
  excl := Exclusive.init u
  idle w := by
    show (u.init.workers w).IdleOk
    rcases init_workers u w with hw | ⟨i, hw⟩ <;> rw [hw] <;> exact .inl rfl
  fresh i := ⟨fun _ => ⟨rfl, fun ho => by cases ho⟩, fun ho => by cases ho⟩

/-- **No ended fiber is resumed** in a run in which no `stop()` that finds work follows one that has
called the root fiber. -/
theorem resumes_waiting {u : Setup} (h : Reach Tracked.step CallRun (.init u) x) :
    ResumesWaiting x.state := by
  have hW : Waiting x := h.invariant (Waiting.init u) fun hI hP hs => hI.step hP hs
  refine ⟨fun w v f hpc => ?_, fun w hpc => ?_, fun i ho => ?_⟩
  · obtain ⟨hrest, he⟩ := (hW.excl.ok w).stage hpc
    exact ⟨hrest.waiting he, hrest.ctx_ne_finished he⟩
  · have hidle := hW.idle w
    unfold Worker.IdleOk at hidle
    rwa [hpc] at hidle
  · rw [((hW.fresh i).init ((hW.fresh i).call ho)).1]
    rfl

/-- `CallRun`, as a test for plain runs. -/
def CallRun.check (x : Tracked) (l : Label) : Bool :=
  l.plain &&
    match l with
    | .owner i =>
      (x.state.scheds i).owner != .check2 || (x.state.stopping i || !x.called i)
    | _ => true

theorem CallRun.of_check {l : Label} (hB : Books x.state) (h : CallRun.check x l = true)
    (hs : x.step l = some x') : CallRun x l ∧ Books x'.state := by
  obtain ⟨hplain, h⟩ := Bool.and_eq_true_iff.mp h
  refine ⟨⟨hB.ledger.takesFree l, ?_⟩, hB.step hplain (Tracked.of_step hs)⟩
  rintro i rfl ho hst
  simpa [ho, hst] using h

/-- A scheduler on its owner's thread alone: one task, and `stop()` calls the root fiber. -/
def calledRun : List Label := [.schedule 0 .func (-1), .stop 0] ++ List.replicate 3 (.owner 0)

theorem resumes_waiting_once :
    ∃ x, runs (guarded Tracked.step CallRun.check)
      (.init (Setup.caller 1 (by decide) true true)) calledRun = some x ∧
        ResumesWaiting x.state := by
  obtain ⟨x, hr, -⟩ := exists_of_runs (guarded Tracked.step CallRun.check)
    (.init (Setup.caller 1 (by decide) true true)) calledRun
    (fun x => (x.state.scheds 0).owner == .call) (by decide +kernel)
  obtain ⟨hreach, -⟩ := Reach.of_guarded (I := fun x => Books x.state) .refl
    ⟨Exclusive.init _, Ledger.init _⟩ (fun hI hp hs => CallRun.of_check hI hp hs) hr
  exact ⟨x, hr, resumes_waiting hreach⟩

/-- The scheduler runs to its end in a first `stop()`; then another task is scheduled and stopped
for. -/
def recalledRun : List Label :=
  [.schedule 0 .func (-1), .stop 0] ++ List.replicate 4 (.owner 0) ++ runWorker 0 3 ++
    [.body 0 .ret] ++ runWorker 0 11 ++ List.replicate 2 (.owner 0) ++
    [.schedule 0 .func (-1), .stop 0] ++ List.replicate 3 (.owner 0)

/-- A second `stop()` calls the root fiber when it is TERM. -/
theorem not_resumes_waiting :
    ¬∀ (u : Setup) (s : State), Reach Scheduler.step (fun _ l => l.plain) u.init s →
      ResumesWaiting s := by
  intro h
  obtain ⟨s, hs, hc⟩ := exists_of_runs Scheduler.step (Setup.caller 1 (by decide) true true).init
    recalledRun (fun s => (s.scheds 0).owner == .call && (s.scheds 0).rootFiber == .term)
    (by decide +kernel)
  simp only [Bool.and_eq_true, beq_iff_eq] at hc
  obtain ⟨ho, hterm⟩ := hc
  have hroot := (h _ s (.of_runs .refl (by decide) hs)).root 0 ho
  rw [hterm] at hroot
  cases hroot

end LioNet.Scheduler
