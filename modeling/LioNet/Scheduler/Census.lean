import LioNet.Scheduler.Control
import LioNet.Scheduler.Counters

/-!
# What the counters say

The counters are right in the terms of the program's own events.  `Noted` keeps notes beside a run:
which workers have taken an entry out of `m_fibers` and not executed `--m_activeThreadCount` since,
and which are between `++m_idleThreadCount` and `--m_idleThreadCount`.  There are three decrements of
the first counter, and the code must come past exactly one of them after each entry it takes.

The notes agree with the tests of `Counters`, which look at the control point only.  A worker that
passes one of them is in `run()`, so the counters together never exceed the crew of a scheduler.
-/

namespace LioNet.Scheduler

open LioNet.Lib

/-! ### The events -/

/-- The next step of the worker takes an entry out of `m_fibers`. -/
def State.removes (s : State) (w : ThreadId) : Bool :=
  (s.workers w).pc = .top && (takeFirst (s.takes w) (s.schedOf w).fibers).isSome

/-- `--m_activeThreadCount` comes next: for an ended fiber, after `ft.fiber` or after `func_fiber`. -/
def Pc.decrementsActive : Pc → Bool
  | .drop | .exec _ _ (.dec _) => true
  | _ => false

def Pc.incrementsIdle : Pc → Bool
  | .idleInc => true
  | _ => false

def Pc.decrementsIdle : Pc → Bool
  | .idleDec => true
  | _ => false

/-- A state, and the notes. -/
structure Noted where
  state : State
  /-- has taken an entry and not executed the matching decrement -/
  entry : ThreadId → Bool
  /-- has executed `++m_idleThreadCount` and not the matching decrement -/
  idle : ThreadId → Bool

def Noted.init (u : Setup) : Noted := ⟨u.init, fun _ => false, fun _ => false⟩

/-- The worker's step, noted. -/
def Noted.write (x : Noted) (w : ThreadId) (s' : State) : Noted where
  state := s'
  entry := Function.update x.entry w
    (x.state.removes w || (x.entry w && !(x.state.workers w).pc.decrementsActive))
  idle := Function.update x.idle w
    ((x.state.workers w).pc.incrementsIdle || (x.idle w && !(x.state.workers w).pc.decrementsIdle))

def Noted.step (x : Noted) (l : Label) : Option Noted :=
  (Scheduler.step x.state l).map fun s' =>
    match l with
    | .run w => x.write w s'
    | _ => { x with state := s' }

/-! ### The property -/

/-- The worker executes `run()` of scheduler `i`.  The root fiber does so from its first `call()` on. -/
def State.inRun (s : State) (i : SchedId) (w : ThreadId) : Bool :=
  (s.workers w).sched = i && (s.workers w).pc ≠ .absent && (s.workers w).pc ≠ .left &&
    !((s.workers w).root && (s.scheds i).rootFiber = .init)

/-- The counters of scheduler `i` are exact. -/
structure Exact (x : Noted) (i : SchedId) : Prop where
  active : Tally (fun w => (x.state.workers w).sched = i && x.entry w)
    (x.state.scheds i).activeThreadCount
  idle : Tally (fun w => (x.state.workers w).sched = i && x.idle w)
    (x.state.scheds i).idleThreadCount
  /-- together they do not exceed the number of workers in `run()` -/
  within : ∃ n, Tally (x.state.inRun i) n ∧
    (x.state.scheds i).activeThreadCount + (x.state.scheds i).idleThreadCount ≤ n
  /-- neither is decremented at zero -/
  active_pos : ∀ w, (x.state.workers w).sched = i →
    (x.state.workers w).pc.decrementsActive = true → 0 < (x.state.scheds i).activeThreadCount
  idle_pos : ∀ w, (x.state.workers w).sched = i →
    (x.state.workers w).pc.decrementsIdle = true → 0 < (x.state.scheds i).idleThreadCount

variable {s s' : State} {w : ThreadId} {x x' : Noted} {u : Setup}

/-! ### The notes -/

/-- **A worker's move**: it becomes active by taking an entry and stops by a decrement. -/
theorem RunMove.active (hm : RunMove s w s') : (s'.workers w).active =
    (s.removes w || ((s.workers w).active && !(s.workers w).pc.decrementsActive)) := by
  cases hm with
  | take hpc htake => simp [State.removes, Worker.active, hpc, htake]
  | noEntry hpc htake => simp [State.removes, Worker.active, hpc, htake]
  | dropEnded hpc hft _ | enterFiber hpc hft _ | reuseFunc hpc hft _ _ | newFunc hpc hft _
    | leave hpc hft _ | toIdle hpc hft _ =>
    simp [State.removes, Worker.active, Worker.goto, Stage.counted, Pc.decrementsActive, hpc, hft]
  | drop hpc | idleInc hpc | idleIn hpc | idleStop hpc _ | idleWait hpc _ | idleDec hpc =>
    simp [State.removes, State.decActive, Worker.active, Pc.decrementsActive, hpc]
  | begin hpc _ _ | beginEmpty hpc _ _ | resume hpc _ | hold hpc _ | save hpc _ | saveBack hpc _ _
    | decr hpc | keep hpc _ | endFiber hpc _ | endFunc hpc _ | lostFiber hpc _ _ | lostFunc hpc _ _
    | requeueFiber hpc | requeueFunc hpc =>
    simp [State.removes, State.decActive, State.leaveBody, Worker.active, Stage.counted,
      Pc.decrementsActive, hpc]

theorem RunMove.idling (hm : RunMove s w s') : (s'.workers w).idling =
    ((s.workers w).pc.incrementsIdle ||
      ((s.workers w).idling && !(s.workers w).pc.decrementsIdle)) := by
  cases hm with
  | take hpc _ | noEntry hpc _ | dropEnded hpc _ _ | enterFiber hpc _ _ | reuseFunc hpc _ _ _
    | newFunc hpc _ _ | leave hpc _ _ | toIdle hpc _ _ | drop hpc | begin hpc _ _ | beginEmpty hpc _ _
    | resume hpc _ | hold hpc _ | save hpc _ | saveBack hpc _ _ | decr hpc | keep hpc _
    | endFiber hpc _ | endFunc hpc _ | lostFiber hpc _ _ | lostFunc hpc _ _ | requeueFiber hpc
    | requeueFunc hpc | idleInc hpc | idleIn hpc | idleStop hpc _ | idleWait hpc _ | idleDec hpc =>
    simp [State.decActive, State.leaveBody, Worker.idling, Pc.incrementsIdle, Pc.decrementsIdle, hpc]

/-- A body's move keeps its worker between the increment and the decrement. -/
theorem BodyMove.tests {v : Via} {f : FiberId} {a : Action}
    (hpc : (s.workers w).pc = .exec v f .running) (hm : BodyMove s w v f a s') :
    (s'.workers w).active = (s.workers w).active ∧
      (s'.workers w).idling = (s.workers w).idling := by
  have hkeep : ∀ {t : State}, t.workers = s.workers → (t.workers w).active = (s.workers w).active ∧
      (t.workers w).idling = (s.workers w).idling := by
    intro t ht
    rw [ht]
    exact ⟨rfl, rfl⟩
  cases hm with
  | schedule => exact hkeep (accept_workers _ _ _ _)
  | scheduleAll => exact hkeep (sameControl_acceptAll _ _ _ 0).2
  | self | stay => exact hkeep rfl
  | go | yield | ret | throw =>
    simp [State.leaveBody, Worker.active, Worker.idling, Stage.counted, hpc]

/-- Only `run()` changes the tests. -/
theorem tests_kept {l : Label} (hs : Scheduler.step s l = some s') (hl : l ≠ .run w) :
    (s'.workers w).active = (s.workers w).active ∧
      (s'.workers w).idling = (s.workers w).idling := by
  by_cases hw : l.worker = some w
  · cases move_of_step hs with
    | run => exact absurd (congrArg Label.run (Option.some.inj hw)) hl
    | @body w' v f a _ _ hpc hm =>
      obtain rfl : w' = w := Option.some.inj hw
      exact hm.tests hpc
    | _ => cases hw
  · rcases step_worker_other hs hw with hsame | ⟨i, ws, -, -, habs, hfresh⟩
    · rw [hsame]
      exact ⟨rfl, rfl⟩
    · simp [hfresh, Worker.fresh, Worker.active, Worker.idling, habs]

/-- The notes say what the tests say. -/
def Noted.Agrees (x : Noted) : Prop :=
  ∀ w, x.entry w = (x.state.workers w).active ∧ x.idle w = (x.state.workers w).idling

/-- A noted move is a move. -/
theorem Noted.of_step {l : Label} (h : x.step l = some x') :
    Scheduler.step x.state l = some x'.state := by
  obtain ⟨s', hs, rfl⟩ := Option.map_eq_some_iff.mp h
  cases l <;> exact hs

theorem Noted.Agrees.step {l : Label} (hA : x.Agrees) (h : x.step l = some x') : x'.Agrees := by
  intro w
  have hs := Noted.of_step h
  obtain ⟨s', -, rfl⟩ := Option.map_eq_some_iff.mp h
  by_cases hl : l = .run w
  · subst hl
    cases move_of_step hs with
    | run _ hm =>
      simp only [Noted.write, Function.update_self, (hA w).1, (hA w).2]
      exact ⟨hm.active.symm, hm.idling.symm⟩
  · obtain ⟨ha, hi⟩ := tests_kept hs hl
    rw [ha, hi, ← (hA w).1, ← (hA w).2]
    cases l with
    | run w' =>
      have hne : w ≠ w' := fun e => hl (by rw [e])
      simp [Noted.write, hne]
    | _ => exact ⟨rfl, rfl⟩

theorem Noted.reach {P : Noted → Label → Prop} (h : Reach Noted.step P (Noted.init u) x) :
    x.Agrees ∧ Reach Scheduler.step (fun _ _ => True) u.init x.state := by
  refine h.invariant (I := fun x => x.Agrees ∧
    Reach Scheduler.step (fun _ _ => True) u.init x.state) ⟨fun w => ?_, .refl⟩ ?_
  · rcases init_workers u w with hw | ⟨i, hw⟩ <;>
      simp [Noted.init, hw, Worker.absent, Worker.fresh, Worker.active, Worker.idling]
  · rintro x l x' ⟨hA, hr⟩ - hs
    exact ⟨hA.step hs, hr.move trivial (Noted.of_step hs)⟩

/-! ### The crew -/

/-- The threads that belong to scheduler `i`. -/
def State.crew (s : State) (i : SchedId) : Set ThreadId :=
  {w | (s.workers w).sched = i ∧ (s.workers w).pc ≠ .absent}

/-- Only `start()` adds to a crew. -/
theorem crew_step {l : Label} {i : SchedId} (hs : Scheduler.step s l = some s') :
    ∃ ws : List ThreadId, s'.crew i ⊆ s.crew i ∪ {w | w ∈ ws} := by
  have hold : ∀ {w}, (s.workers w).pc ≠ .absent → w ∈ s'.crew i → w ∈ s.crew i := by
    rintro w hp ⟨hi, -⟩
    exact ⟨(step_mark hs hp).1.symm.trans hi, hp⟩
  have hnew : ∀ {w}, (s.workers w).pc = .absent → w ∈ s'.crew i →
      ∃ j ws, l = .start j ws ∧ w ∈ ws := by
    rintro w hp ⟨-, hp'⟩
    rcases step_worker_other hs (worker_ne_of_out (.inl hp) hs) with hsame | ⟨j, ws, hl, hw, -⟩
    · rw [hsame] at hp'
      exact absurd hp hp'
    · exact ⟨j, ws, hl, hw⟩
  by_cases hl : ∃ j ws, l = .start j ws
  · obtain ⟨j, ws, rfl⟩ := hl
    refine ⟨ws, fun w hw => ?_⟩
    by_cases hp : (s.workers w).pc = .absent
    · obtain ⟨j', ws', he, hmem⟩ := hnew hp hw
      injection he with _ he
      exact .inr (he ▸ hmem)
    · exact .inl (hold hp hw)
  · refine ⟨[], fun w hw => .inl (hold (fun hp => hl ?_) hw)⟩
    obtain ⟨j, ws, he, -⟩ := hnew hp hw
    exact ⟨j, ws, he⟩

theorem crew_finite {P : State → Label → Prop} (h : Reach Scheduler.step P u.init s)
    (i : SchedId) : (s.crew i).Finite := by
  refine h.invariant (I := fun s => (s.crew i).Finite) ?_ ?_
  · -- at first only the root thread is there
    refine (List.finite_toSet (u.config i).rootThread.toList).subset ?_
    rintro w ⟨hi, hp⟩
    have hw : (u.config i).rootThread = some w := by
      rw [← u.rootOf_iff]
      cases hr : u.rootOf w with
      | none => simp [Setup.init, hr, Worker.absent] at hp
      | some j =>
        have hj : j = i := by simpa [Setup.init, hr, Worker.fresh] using hi
        rw [hj]
    simp [hw]
  · intro s l s' hI _ hs
    obtain ⟨ws, hsub⟩ := crew_step (i := i) hs
    exact (hI.union (List.finite_toSet ws)).subset hsub

/-! ### The counters -/

/-! What a worker's control point says. -/

theorem Worker.active_of_decrements {k : Worker} (h : k.pc.decrementsActive = true) :
    k.active = true := by
  unfold Pc.decrementsActive at h
  unfold Worker.active
  split at h <;> simp_all [Stage.counted]

theorem Worker.idling_of_decrements {k : Worker} (h : k.pc.decrementsIdle = true) :
    k.idling = true := by
  unfold Pc.decrementsIdle at h
  unfold Worker.idling
  split at h <;> simp_all

/-- No control point passes both tests. -/
theorem Worker.not_idling {k : Worker} (h : k.active = true) : k.idling = false := by
  unfold Worker.active at h
  unfold Worker.idling
  split at h <;> simp_all

/-- A worker that counts is in `run()`. -/
theorem RootOk.inRun (h : RootOk u s) {i : SchedId} (hi : (s.workers w).sched = i)
    (hp : (s.workers w).active = true ∨ (s.workers w).idling = true) : s.inRun i w = true := by
  have habs : (s.workers w).pc ≠ .absent := by
    intro he
    simp [Worker.active, Worker.idling, he] at hp
  have hleft : (s.workers w).pc ≠ .left := by
    intro he
    simp [Worker.active, Worker.idling, he] at hp
  have htop : (s.workers w).pc ≠ .top := by
    intro he
    simp [Worker.active, Worker.idling, he] at hp
  have hroot : (s.workers w).root = true → (s.scheds i).rootFiber ≠ .init := by
    intro hr he
    have hat := h.fiber hr
    rw [State.schedOf, hi, he] at hat
    exact htop hat.1
  cases hr : (s.workers w).root <;> simp_all [State.inRun]

/-- **The counters are exact**, in every state that any number of workers reach in any order, whatever
their tasks do. -/
theorem counters_exact (h : Reach Noted.step (fun _ _ => True) (Noted.init u) x) (i : SchedId) :
    Exact x i := by
  obtain ⟨hA, hr⟩ := Noted.reach h
  have hC := Counters.reach hr
  have hR := RootOk.reach hr
  have hactive : Tally (fun w => (x.state.workers w).sched = i && x.entry w)
      (x.state.scheds i).activeThreadCount :=
    (hC.active i).congr fun w => by rw [(hA w).1]
  have hidle : Tally (fun w => (x.state.workers w).sched = i && x.idle w)
      (x.state.scheds i).idleThreadCount :=
    (hC.idle i).congr fun w => by rw [(hA w).2]
  refine ⟨hactive, hidle, ?_, fun w hi hd => (hC.active i).pos (i := w) ?_,
    fun w hi hd => (hC.idle i).pos (i := w) ?_⟩
  · have hfin : {w | x.state.inRun i w = true}.Finite := by
      refine (crew_finite hr i).subset fun w hw => ?_
      simp only [State.inRun, Set.mem_ofPred_eq, Bool.and_eq_true, decide_eq_true_eq] at hw
      exact ⟨hw.1.1.1, hw.1.1.2⟩
    obtain ⟨n, hn⟩ := exists_tally hfin
    refine ⟨n, hn, (hC.active i).add_le (hC.idle i) hn ?_ ?_ ?_⟩
    · intro w hw
      simp only [Bool.and_eq_true, decide_eq_true_eq] at hw
      simp [Worker.not_idling hw.2]
    · intro w hw
      simp only [Bool.and_eq_true, decide_eq_true_eq] at hw
      exact hR.inRun hw.1 (.inl hw.2)
    · intro w hw
      simp only [Bool.and_eq_true, decide_eq_true_eq] at hw
      exact hR.inRun hw.1 (.inr hw.2)
  · simp [hi, Worker.active_of_decrements hd]
  · simp [hi, Worker.idling_of_decrements hd]

/-- One worker is inside a function, the other one around its idle fiber. -/
def busyAndIdle : List Label :=
  [.start 0 [0, 1], .schedule 0 .func (-1)] ++ runWorker 0 3 ++ runWorker 1 3

theorem counters_exact_busy_and_idle :
    ∃ x, runs Noted.step (Noted.init (Setup.pool 2 (by decide))) busyAndIdle = some x ∧
      (x.state.scheds 0).activeThreadCount = 1 ∧ (x.state.scheds 0).idleThreadCount = 1 ∧
      Exact x 0 := by
  obtain ⟨x, hx, hc⟩ := exists_of_runs Noted.step (Noted.init (Setup.pool 2 (by decide))) busyAndIdle
    (fun x => (x.state.scheds 0).activeThreadCount == 1 && (x.state.scheds 0).idleThreadCount == 1)
    (by decide +kernel)
  simp only [Bool.and_eq_true, beq_iff_eq] at hc
  exact ⟨x, hx, hc.1, hc.2, counters_exact (.of_runs .refl (by simp) hx) 0⟩

end LioNet.Scheduler
