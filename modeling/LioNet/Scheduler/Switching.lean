import LioNet.Scheduler.Control

/-!
# Switching schedulers

`switchTo` puts the running fiber into the target's `m_fibers` and then yields with HOLD; the worker
it leaves reads HOLD and schedules the fiber once more, on its own scheduler.  So from then on the
fiber has an entry beside its own one, and what the code guarantees depends on the order in which
entries are taken:

* nobody takes a fiber that some worker still has (`TakesFree`): then no fiber is executed twice or
  resumed from a context that is not saved;
* nobody resumes a fiber through an entry beside its own one either (`SwitchRun`): then `switchTo`
  lands where it says.
-/

namespace LioNet.Scheduler

open LioNet.Lib

variable {s s' : State} {w : ThreadId} {f : FiberId} {i : SchedId}

/-- Fresh tasks from outside; inside, the tasks compute, yield, end, schedule fresh tasks and switch
schedulers. -/
def Label.switching : Label → Bool
  | .body _ a => a.plain || a.switches
  | .reschedule .. => false
  | _ => true

/-! ### One worker a fiber -/

/-- No fiber is executed by two workers, and `swapIn()` finds the context saved. -/
structure FibersApart (s : State) : Prop where
  alone : ∀ w w' f, s.Executes w f → s.Executes w' f → w = w'
  saved : ∀ w v f, (s.workers w).pc = .exec v f .enter → (s.fibers f).saved = true

/-- **Nothing is executed twice** in a run that takes only fibers in nobody's hands, whatever the
tasks do. -/
theorem fibers_apart {u : Setup} (h : Reach step TakesFree u.init s) : FibersApart s := by
  have hE := Exclusive.reach h
  refine ⟨fun w w' f hw hw' => hE.toHands.executes_unique hw hw', fun w v f hpc => ?_⟩
  exact ((hE.ok w).stage hpc).1.1

/-- `TakesFree`, as a test for runs with the threads of a list. -/
def takesFreeCheck (ws : List ThreadId) (s : State) : Label → Bool
  | .run w =>
    (s.workers w).pc != .top || (takeFirst (s.takes w) (s.schedOf w).fibers).all fun r =>
      r.1.job.fiberId.all fun f =>
        ws.all fun w' => (s.workers w').hands != some f && (s.workers w').funcFiber != some f
  | .start _ ws' => ws'.all (ws.contains ·)
  | _ => true

theorem takesFree_of_check {ws : List ThreadId} {l : Label} (hE : Exclusive s)
    (ho : OnlyThreads ws s) (h : takesFreeCheck ws s l = true) (hs : step s l = some s') :
    TakesFree s l ∧ Exclusive s' ∧ OnlyThreads ws s' := by
  have hfree : TakesFree s l := by
    cases l with
    | run w =>
      intro hpc e q htake f hf w' howns
      simp only [takesFreeCheck, hpc, htake, bne_self_eq_false, Bool.false_or, Option.all_some, hf,
        List.all_eq_true] at h
      have hmem : w' ∈ ws := by
        by_contra hw'
        exact hE.toHands.absent_owns (ho w' hw') f howns
      have hw' := h w' hmem
      rcases howns with ho | ho <;> simp [ho] at hw'
    | _ => trivial
  refine ⟨hfree, hE.step hfree hs, ho.step ?_ hs⟩
  rintro i ws' rfl w hw
  simpa using List.all_eq_true.mp h w hw

/-- A fiber of scheduler 0 switches to scheduler 1, whose worker takes it after worker 0 has put it
back. -/
def landedRun : List Label :=
  [.start 0 [0], .start 1 [1], .schedule 0 (.fiber false) (-1)] ++ runWorker 0 3 ++
    [.body 0 (.switchTo 1 (-1))] ++ runWorker 0 5 ++ runWorker 1 2

theorem fibers_apart_switch :
    ∃ s, runs (guarded step (takesFreeCheck [0, 1])) (Setup.pool 1 (by decide)).init landedRun =
      some s ∧ FibersApart s := by
  obtain ⟨s, hr, -⟩ := exists_of_runs (guarded step (takesFreeCheck [0, 1]))
    (Setup.pool 1 (by decide)).init landedRun (fun s => (s.workers 1).pc == .exec .ft 0 .enter)
    (by decide +kernel)
  obtain ⟨hreach, -⟩ := Reach.of_guarded (I := fun s => Exclusive s ∧ OnlyThreads [0, 1] s) .refl
    ⟨Exclusive.init _, OnlyThreads.init fun _ _ => rfl⟩
    (fun hI hp hs => takesFree_of_check hI.1 hI.2 hp hs) hr
  exact ⟨s, hr, fibers_apart hreach⟩

/-- The worker of scheduler 1 takes the fiber between the two halves of its `YieldToHold`. -/
def tornRun : List Label :=
  [.start 0 [0], .start 1 [1], .schedule 0 (.fiber false) (-1)] ++ runWorker 0 3 ++
    [.body 0 (.switchTo 1 (-1))] ++ runWorker 0 1 ++ runWorker 1 3

/-- Two workers execute one fiber. -/
theorem not_fibers_apart :
    ¬∀ (u : Setup) (s : State), Reach step (fun _ l => l.switching) u.init s → FibersApart s := by
  intro h
  obtain ⟨s, hs, hc⟩ := exists_of_runs step (Setup.pool 1 (by decide)).init tornRun
    (fun s => (s.workers 0).pc == .exec .ft 0 (.leaving (.suspended (some ⟨1, -1⟩))) &&
      (s.workers 1).pc == .exec .ft 0 .running) (by decide +kernel)
  simp only [Bool.and_eq_true, beq_iff_eq] at hc
  obtain ⟨h0, h1⟩ := hc
  have halone := (h _ s (.of_runs .refl (by decide) hs)).alone 0 1 0
    ⟨_, _, h0, .inr (.inr ⟨_, rfl⟩)⟩ ⟨_, _, h1, .inl rfl⟩
  cases halone

end LioNet.Scheduler
