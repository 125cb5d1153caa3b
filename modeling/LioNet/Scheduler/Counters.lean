import LioNet.Lib.Tally
import LioNet.Scheduler.Hands

/-!
# The two counters

`m_activeThreadCount` and `m_idleThreadCount` are updated outside the lock, one step at a time.  Each
is the tally of a test on the workers of its scheduler: which control points lie between the
increment and the decrement.  This holds in every run, whatever the tasks do.

The window that matters for `stopping()` is visible here: a worker at `after` or `requeue` has a
fiber in its hands and is not counted.
-/

namespace LioNet.Scheduler

open LioNet.Lib

/-- Between `++m_activeThreadCount` and `--m_activeThreadCount`. -/
def Stage.counted : Stage → Bool
  | .enter | .running | .switching _ | .leaving _ | .dec _ => true
  | .after _ | .requeue _ => false

def Worker.active (W : Worker) : Bool :=
  match W.pc with
  | .dispatch => W.ft.isSome
  | .drop => true
  | .exec _ _ st => st.counted
  | _ => false

/-- Between `++m_idleThreadCount` and `--m_idleThreadCount`. -/
def Worker.idling (W : Worker) : Bool :=
  match W.pc with
  | .idleIn | .idleRun | .idleDec => true
  | _ => false

/-- Counter `c` of each scheduler is the number of its workers that pass `p`. -/
def Tallied (p : Worker → Bool) (c : Sched → Nat) (s : State) : Prop :=
  ∀ i, Tally (fun w => decide ((s.workers w).sched = i) && p (s.workers w)) (c (s.scheds i))

structure Counters (s : State) : Prop where
  active : Tallied Worker.active Sched.activeThreadCount s
  idle : Tallied Worker.idling Sched.idleThreadCount s

variable {s s' : State} {w : ThreadId} {p : Worker → Bool} {c : Sched → Nat}

theorem Tallied.congr (h : Tallied p c s) (hw : s'.workers = s.workers)
    (hc : ∀ i, c (s'.scheds i) = c (s.scheds i)) : Tallied p c s' := by
  intro i
  rw [hw, hc]
  exact h i

/-- A move of one worker, with the counter's change to match. -/
theorem Tallied.move (h : Tallied p c s) {W : Worker}
    (hw : s'.workers = Function.update s.workers w W) (hsched : W.sched = (s.workers w).sched)
    (hself : c (s'.scheds W.sched) =
      c (s.scheds W.sched) + (p W).toNat - (p (s.workers w)).toNat)
    (hother : ∀ i, i ≠ W.sched → c (s'.scheds i) = c (s.scheds i)) : Tallied p c s' := by
  intro i
  refine (h i).move (i := w) (fun w' hw' => by simp [hw, hw']) ?_
  by_cases hi : i = W.sched
  · subst hi
    rw [hself]
    simp [hw, hsched]
  · have hi' : ¬(s.workers w).sched = i := fun he => hi (he.symm.trans hsched.symm)
    have hW : ¬W.sched = i := fun he => hi he.symm
    simp [hw, hother i hi, hi', hW]

/-- A move of one worker that the counter does not see. -/
theorem Tallied.still (h : Tallied p c s) {W : Worker}
    (hw : s'.workers = Function.update s.workers w W) (hsched : W.sched = (s.workers w).sched)
    (hp : p W = p (s.workers w)) (hc : ∀ i, c (s'.scheds i) = c (s.scheds i)) :
    Tallied p c s' := by
  refine h.move hw hsched ?_ fun i _ => hc i
  rw [hc, hp]
  omega

theorem Counters.still (h : Counters s) {W : Worker}
    (hw : s'.workers = Function.update s.workers w W) (hsched : W.sched = (s.workers w).sched)
    (ha : W.active = (s.workers w).active) (hi : W.idling = (s.workers w).idling)
    (hc : ∀ i, (s'.scheds i).activeThreadCount = (s.scheds i).activeThreadCount ∧
      (s'.scheds i).idleThreadCount = (s.scheds i).idleThreadCount) : Counters s' :=
  ⟨h.active.still hw hsched ha fun i => (hc i).1, h.idle.still hw hsched hi fun i => (hc i).2⟩

/-- What a write to scheduler `i` changes of the counters. -/
theorem setSched_count (i j : SchedId) (S : Sched) (hS : j = i → c S = c (s.scheds i)) :
    c ((s.setSched i S).scheds j) = c (s.scheds j) := by
  by_cases hj : j = i
  · subst hj
    simpa using hS rfl
  · simp [hj]

/-- `--m_activeThreadCount`. -/
theorem Counters.decActive (h : Counters s) {pc : Pc} (ha : (s.workers w).active = true)
    (hpc : ((s.workers w).goto pc).active = false)
    (hi : ((s.workers w).goto pc).idling = (s.workers w).idling) :
    Counters (s.decActive w pc) := by
  refine ⟨h.active.move rfl rfl ?_ ?_, h.idle.still rfl rfl hi ?_⟩
  · simp [State.decActive, State.schedOf, ha, hpc]
  · intro i hne
    have hne' : i ≠ (s.workers w).sched := hne
    simp [State.decActive, hne']
  · intro i
    exact setSched_count _ _ _ fun _ => rfl

/-- **A worker's move keeps the counters right.** -/
theorem Counters.runMove (h : Counters s) (hm : RunMove s w s') : Counters s' := by
  cases hm with
  | take hpc _ =>
    refine ⟨h.active.move rfl rfl ?_ ?_, h.idle.still rfl rfl ?_ ?_⟩
    · simp [Worker.active, State.schedOf, hpc]
    · intro i hne
      have hne' : i ≠ (s.workers w).sched := hne
      simp [hne']
    · simp [Worker.idling, hpc]
    · intro i
      exact setSched_count _ _ _ fun _ => rfl
  | noEntry hpc _ =>
    exact h.still rfl rfl (by simp [Worker.active, hpc]) (by simp [Worker.idling, hpc])
      fun _ => ⟨rfl, rfl⟩
  | dropEnded hpc hft _ =>
    exact h.still rfl rfl (by simp [Worker.active, Worker.goto, hpc, hft])
      (by simp [Worker.idling, Worker.goto, hpc]) fun _ => ⟨rfl, rfl⟩
  | enterFiber hpc hft _ =>
    exact h.still rfl rfl (by simp [Worker.active, Worker.goto, Stage.counted, hpc, hft])
      (by simp [Worker.idling, Worker.goto, hpc]) fun _ => ⟨rfl, rfl⟩
  | reuseFunc hpc hft _ _ =>
    exact h.still rfl rfl (by simp [Worker.active, Stage.counted, hpc, hft])
      (by simp [Worker.idling, hpc]) fun _ => ⟨rfl, rfl⟩
  | newFunc hpc hft _ =>
    exact h.still rfl rfl (by simp [Worker.active, Stage.counted, hpc, hft])
      (by simp [Worker.idling, hpc]) fun _ => ⟨rfl, rfl⟩
  | leave hpc hft _ =>
    refine h.still (State.leave_workers s w) rfl (by simp [Worker.active, Worker.goto, hpc, hft])
      (by simp [Worker.idling, Worker.goto, hpc]) fun i => ?_
    unfold State.leave
    dsimp only
    split
    · exact ⟨setSched_count _ _ _ fun _ => rfl, setSched_count _ _ _ fun _ => rfl⟩
    · exact ⟨rfl, rfl⟩
  | toIdle hpc hft _ =>
    exact h.still rfl rfl (by simp [Worker.active, Worker.goto, hpc, hft])
      (by simp [Worker.idling, Worker.goto, hpc]) fun _ => ⟨rfl, rfl⟩
  | drop hpc =>
    exact h.decActive (by simp [Worker.active, hpc]) (by simp [Worker.active, Worker.goto])
      (by simp [Worker.idling, Worker.goto, hpc])
  | begin hpc _ _ | resume hpc _ | save hpc _ | beginEmpty hpc _ _ | hold hpc _ =>
    exact h.still rfl rfl (by simp [Worker.active, Worker.goto, Stage.counted, hpc])
      (by simp [Worker.idling, Worker.goto, hpc]) fun _ => ⟨rfl, rfl⟩
  | saveBack hpc _ _ =>
    exact h.still rfl rfl (by simp [Worker.active, Worker.goto, Stage.counted, hpc])
      (by simp [Worker.idling, Worker.goto, hpc])
      fun i => ⟨setSched_count _ _ _ fun _ => rfl, setSched_count _ _ _ fun _ => rfl⟩
  | decr hpc =>
    exact h.decActive (by simp [Worker.active, Stage.counted, hpc])
      (by simp [Worker.active, Stage.counted, Worker.goto])
      (by simp [Worker.idling, Worker.goto, hpc])
  | keep hpc _ =>
    exact h.still rfl rfl (by simp [Worker.active, Worker.goto, Stage.counted, hpc])
      (by simp [Worker.idling, Worker.goto, hpc]) fun _ => ⟨rfl, rfl⟩
  | endFiber hpc _ | endFunc hpc _ | lostFiber hpc _ _ | lostFunc hpc _ _ =>
    exact h.still rfl rfl (by simp [Worker.active, Worker.goto, Stage.counted, hpc])
      (by simp [Worker.idling, Worker.goto, hpc]) fun _ => ⟨rfl, rfl⟩
  | requeueFiber hpc | requeueFunc hpc =>
    exact h.still rfl rfl (by simp [Worker.active, Stage.counted, hpc])
      (by simp [Worker.idling, hpc])
      fun i => ⟨setSched_count _ _ _ fun _ => rfl, setSched_count _ _ _ fun _ => rfl⟩
  | idleInc hpc =>
    refine ⟨h.active.still rfl rfl ?_ ?_, h.idle.move rfl rfl ?_ ?_⟩
    · simp [Worker.active, Worker.goto, hpc]
    · intro i
      exact setSched_count _ _ _ fun _ => rfl
    · simp [Worker.idling, Worker.goto, State.schedOf, hpc]
    · intro i hne
      have hne' : i ≠ (s.workers w).sched := hne
      simp [hne']
  | idleIn hpc =>
    exact h.still rfl rfl (by simp [Worker.active, hpc]) (by simp [Worker.idling, hpc])
      fun _ => ⟨rfl, rfl⟩
  | idleStop hpc _ | idleWait hpc _ =>
    exact h.still rfl rfl (by simp [Worker.active, hpc]) (by simp [Worker.idling, hpc])
      fun _ => ⟨rfl, rfl⟩
  | idleDec hpc =>
    refine ⟨h.active.still rfl rfl ?_ ?_, h.idle.move rfl rfl ?_ ?_⟩
    · simp [Worker.active, hpc]
    · intro i
      exact setSched_count _ _ _ fun _ => rfl
    · simp [Worker.idling, State.schedOf, hpc]
    · intro i hne
      have hne' : i ≠ (s.workers w).sched := hne
      simp [hne']

/-! ### The other moves -/

theorem Counters.congr (h : Counters s) (hw : s'.workers = s.workers)
    (hc : ∀ i, (s'.scheds i).activeThreadCount = (s.scheds i).activeThreadCount ∧
      (s'.scheds i).idleThreadCount = (s.scheds i).idleThreadCount) : Counters s' :=
  ⟨h.active.congr hw fun i => (hc i).1, h.idle.congr hw fun i => (hc i).2⟩

theorem Counters.push (h : Counters s) (i : SchedId) (e : Entry) : Counters (s.push i e) :=
  h.congr rfl fun j => by rw [State.push_scheds]; exact ⟨rfl, rfl⟩

theorem Counters.accept (h : Counters s) (i : SchedId) (sp : Spawn) (t : Int) :
    Counters (s.accept i sp t) :=
  h.congr (accept_workers s i sp t) fun j => by rw [accept_scheds]; exact ⟨rfl, rfl⟩

theorem Counters.acceptAll (h : Counters s) (i : SchedId) (sps : List Spawn) :
    Counters (s.acceptAll i sps) :=
  acceptAll_induction s i sps h fun _ sp h => h.accept i sp (-1)

@[simp] theorem rehome_scheds (s : State) (f : FiberId) (i : SchedId) :
    (s.rehome f i).scheds = s.scheds := by
  unfold State.rehome
  split <;> rfl

@[simp] theorem finishTask_scheds (s : State) (f : FiberId) :
    (s.finishTask f).scheds = s.scheds := by
  unfold State.finishTask
  split <;> rfl

/-- A worker's step from one counted stage to another. -/
theorem Counters.stage (h : Counters s) {v : Via} {f : FiberId} {st st' : Stage}
    (hpc : (s.workers w).pc = .exec v f st)
    (hw : s'.workers = Function.update s.workers w ((s.workers w).goto (.exec v f st')))
    (hst : st'.counted = st.counted)
    (hc : ∀ i, (s'.scheds i).activeThreadCount = (s.scheds i).activeThreadCount ∧
      (s'.scheds i).idleThreadCount = (s.scheds i).idleThreadCount) : Counters s' :=
  h.still hw rfl (by simp [Worker.active, hpc, hst]) (by simp [Worker.idling, hpc]) hc

theorem Counters.bodyMove (h : Counters s) {v : Via} {f : FiberId} {a : Action}
    (hpc : (s.workers w).pc = .exec v f .running) (hm : BodyMove s w v f a s') :
    Counters s' := by
  cases hm with
  | schedule => exact h.accept _ _ _
  | scheduleAll => exact h.acceptAll _ _
  | self => exact h.push _ _
  | stay => exact h.congr rfl fun _ => ⟨rfl, rfl⟩
  | @go _ l sw _ _ =>
    refine h.stage hpc (by simp) (show (Stage.switching sw).counted = true from rfl) fun j => ?_
    rw [State.setWorker_scheds, State.push_scheds, rehome_scheds]
    exact ⟨rfl, rfl⟩
  | yield => exact h.stage hpc rfl rfl fun _ => ⟨rfl, rfl⟩
  | ret | throw =>
    exact h.stage hpc (by simp [State.leaveBody])
      (show (Stage.leaving .finished).counted = true from rfl) fun _ => by simp [State.leaveBody]

theorem Counters.launch (h : Counters s) {i : SchedId} {ws : List ThreadId}
    (habsent : ∀ w ∈ ws, (s.workers w).pc = .absent)
    (hw : s'.workers = fun w => if w ∈ ws then Worker.fresh i false else s.workers w)
    (hc : ∀ i, (s'.scheds i).activeThreadCount = (s.scheds i).activeThreadCount ∧
      (s'.scheds i).idleThreadCount = (s.scheds i).idleThreadCount) : Counters s' := by
  refine ⟨fun j => ?_, fun j => ?_⟩
  · rw [(hc j).1]
    refine (h.active j).congr fun w => ?_
    by_cases hmem : w ∈ ws
    · simp [hw, hmem, Worker.active, Worker.fresh, habsent w hmem]
    · simp [hw, hmem]
  · rw [(hc j).2]
    refine (h.idle j).congr fun w => ?_
    by_cases hmem : w ∈ ws
    · simp [hw, hmem, Worker.idling, Worker.fresh, habsent w hmem]
    · simp [hw, hmem]

theorem OwnerMove.counts {i : SchedId} (hm : OwnerMove s i s') (j : SchedId) :
    (s'.scheds j).activeThreadCount = (s.scheds j).activeThreadCount ∧
      (s'.scheds j).idleThreadCount = (s.scheds j).idleThreadCount := by
  cases hm <;> exact ⟨setSched_count _ _ _ fun _ => rfl, setSched_count _ _ _ fun _ => rfl⟩

/-- **Every move keeps the counters right.** -/
theorem Counters.step {l : Label} (h : Counters s) (hs : step s l = some s') : Counters s' := by
  cases move_of_step hs with
  | run _ hm => exact h.runMove hm
  | body _ hpc hm => exact h.bodyMove hpc hm
  | schedule => exact h.accept _ _ _
  | scheduleAll => exact h.acceptAll _ _
  | reschedule => exact h.push _ _
  | startAgain => exact h
  | @launch i ws _ _ _ _ _ habs =>
    exact h.launch (i := i) habs rfl fun j =>
      ⟨setSched_count _ _ _ fun _ => rfl, setSched_count _ _ _ fun _ => rfl⟩
  | stop _ hm | owner _ hm =>
    have hc := hm.counts
    obtain ⟨S, rfl, -⟩ := hm.frame
    exact h.congr rfl hc

theorem Counters.init (u : Setup) : Counters u.init := by
  constructor <;> intro i <;> refine tally_none fun w => ?_
  · rcases init_workers u w with hw | ⟨j, hw⟩ <;>
      simp [hw, Worker.active, Worker.fresh, Worker.absent]
  · rcases init_workers u w with hw | ⟨j, hw⟩ <;>
      simp [hw, Worker.idling, Worker.fresh, Worker.absent]

/-- The counters are right in every run. -/
theorem Counters.reach {u : Setup} {P : State → Label → Prop}
    (h : Reach Scheduler.step P u.init s) : Counters s :=
  h.invariant (Counters.init u) fun hI _ hs => hI.step hs

/-- While `m_activeThreadCount` is zero, no worker of the scheduler is between the increment and the
decrement. -/
theorem Counters.not_active (h : Counters s) {i : SchedId}
    (h0 : (s.scheds i).activeThreadCount = 0) (hw : (s.workers w).sched = i) :
    (s.workers w).active = false := by
  have ht := (h.active i).eq_zero_iff.mp h0 w
  simpa [hw] using ht

end LioNet.Scheduler
