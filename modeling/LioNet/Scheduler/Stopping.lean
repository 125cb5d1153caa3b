import LioNet.Scheduler.Control
import LioNet.Scheduler.Counters
import LioNet.Scheduler.Cover

/-!
# What `stopping()` knows

`stopping()` looks at `m_fibers` and at `m_activeThreadCount`.  A worker whose fiber has yielded is
seen by neither between `--m_activeThreadCount` (lines 166 and 185) and the `schedule()` that puts the
fiber back (lines 170 and 188).  `NoWindow` says that no worker of a scheduler is there.  When
`stopping()` is true, that is exactly what makes its answer right, now and later.
-/

namespace LioNet.Scheduler

open LioNet.Lib

/-- No worker of scheduler `i` is between `--m_activeThreadCount` and the `schedule()` of a fiber
that has yielded. -/
def NoWindow (s : State) (i : SchedId) : Prop :=
  ∀ w v f c, (s.workers w).sched = i →
    (s.workers w).pc = .exec v f (.after c) ∨ (s.workers w).pc = .exec v f (.requeue c) →
    (s.fibers f).state.yielded = false

/-- Every task that scheduler `i` accepted and still has has returned or thrown. -/
def AllEnded (s : State) (i : SchedId) : Prop :=
  ∀ k, (s.tasks k).accepted = true → (s.tasks k).home = i → (s.tasks k).ended = true

/-- A `schedule()` on scheduler `i` from outside its own tasks, or a new `start()`. -/
def Feeds (s : State) (i : SchedId) : Label → Prop
  | .body w a => (s.workers w).sched ≠ i ∧
      ∃ s', step s (.body w a) = some s' ∧ s'.queue i ≠ s.queue i
  | .schedule j _ _ | .scheduleAll j _ | .reschedule j _ _ | .start j _ => j = i
  | .run _ | .stop _ | .owner _ => False

/-- The answer `true` of `stopping()` is right: nothing is left to do, and it stays `true` as long as
nothing is scheduled from outside. -/
def StoppingSound (s : State) (i : SchedId) : Prop :=
  AllEnded s i ∧
    ∀ s', Reach step (fun s l => TakesFree s l ∧ ¬Feeds s i l) s s' → s'.stopping i = true

/-- Scheduler `i` has nothing queued and nobody at work. -/
structure Quiet (s : State) (i : SchedId) : Prop where
  queue : s.queue i = []
  active : (s.scheds i).activeThreadCount = 0
  window : NoWindow s i

variable {s s' : State} {w : ThreadId} {i : SchedId}

/-- `stopping()`, field by field. -/
theorem stopping_iff : s.stopping i = true ↔
    (s.scheds i).autoStop = true ∧ (s.scheds i).stopping = true ∧ s.queue i = [] ∧
      (s.scheds i).activeThreadCount = 0 := by
  unfold State.stopping
  simp only [Bool.and_eq_true, List.isEmpty_iff, beq_iff_eq, and_assoc]

/-- **A quiet scheduler has finished all its tasks.** -/
theorem Quiet.allEnded (hq : Quiet s i) (h : Held s) (hC : Counters s) : AllEnded s i := by
  intro k ha hi
  by_contra hne
  have hopen : (s.tasks k).ended = false := by simpa using hne
  have hkept := h.cover.kept ha hopen
  rw [hi] at hkept
  have hidle : ∀ {w}, (s.workers w).sched = i → (s.workers w).active = false :=
    fun hw => hC.not_active hq.active hw
  cases hkept with
  | queuedFunc he _ =>
    rw [hq.queue] at he
    cases he
  | queued _ he _ =>
    rw [hq.queue] at he
    cases he
  | @takenFunc w e hw hd hft hj =>
    have hact := hidle hw
    simp [Worker.active, hd, hft] at hact
  | @held w f hf hw hh =>
    have hact := hidle hw
    unfold Worker.hands at hh
    split at hh
    · rename_i v g st hpc
      obtain rfl : g = f := Option.some.inj hh
      have hst := (h.excl.ok w).stage hpc
      -- only a fiber past the decrement is left, and it has not yielded
      have hended : ∀ {c}, (s.workers w).pc = .exec v g (.after c) ∨
          (s.workers w).pc = .exec v g (.requeue c) → EndState c (s.fibers g).state → False :=
        fun hwin he => endState_ne_other he (hq.window w v g _ hw hwin) hf.2
      cases st with
      | after c => exact hended (.inl hpc) hst.1
      | requeue c => exact hended (.inr hpc) hst.2.1
      | enter | running | switching | leaving | dec =>
        simp [Worker.active, hpc, Stage.counted] at hact
    · rename_i hd
      cases hft : (s.workers w).ft with
      | none => rw [hft] at hh; cases hh
      | some e => simp [Worker.active, hd, hft] at hact
    · cases hh

/-! ### A quiet scheduler stays quiet -/

/-- Where a worker is that has nothing in its hands. -/
def Worker.free (W : Worker) : Bool :=
  match W.pc with
  | .dispatch => W.ft.isNone
  | .drop | .exec _ _ _ => false
  | _ => true

theorem Quiet.worker (hq : Quiet s i) (h : Held s) (hC : Counters s)
    (hw : (s.workers w).sched = i) :
    (s.workers w).free = true ∨
      ∃ v f c, (s.workers w).pc = .exec v f (.after c) ∧ (s.fibers f).state.yielded = false := by
  have hact := hC.not_active hq.active hw
  cases hpc : (s.workers w).pc with
  | dispatch =>
    left
    simpa [Worker.active, Worker.free, hpc] using hact
  | exec v f st =>
    right
    cases st with
    | after c => exact ⟨v, f, c, rfl, hq.window w v f c hw (.inl hpc)⟩
    | requeue c =>
      have hst := (h.excl.ok w).stage hpc
      have hy := hq.window w v f c hw (.inr hpc)
      rw [hst.1] at hy
      cases hy
    | enter | running | switching | leaving | dec =>
      simp [Worker.active, hpc, Stage.counted] at hact
  | drop => simp [Worker.active, hpc] at hact
  | absent | top | idleInc | idleIn | idleRun | idleDec | left =>
    left
    simp [Worker.free, hpc]

/-- A worker of a quiet scheduler finds nothing to do. -/
theorem Quiet.runMove (hq : Quiet s i) (h : Held s) (hC : Counters s)
    (hw : (s.workers w).sched = i) (hm : RunMove s w s') :
    s'.queue = s.queue ∧ (s'.workers w).free = true := by
  have hfree := hq.worker h hC hw
  have hstuck : ∀ {v f st}, (s.workers w).pc = .exec v f st → (∀ c, st ≠ .after c) → False := by
    intro v f st hpc hne
    rcases hfree with hf | ⟨v', f', c, hpc', -⟩
    · simp [Worker.free, hpc] at hf
    · rw [hpc] at hpc'
      injection hpc' with _ _ hst
      exact hne c hst
  have hnone : (s.workers w).pc = .dispatch → ∀ e, (s.workers w).ft ≠ some e := by
    intro hpc e hft
    rcases hfree with hf | ⟨v', f', c, hpc', -⟩
    · simp [Worker.free, hpc, hft] at hf
    · rw [hpc] at hpc'
      cases hpc'
  cases hm with
  | take hpc htake =>
    have hnil : (s.schedOf w).fibers = [] := by
      rw [State.schedOf, hw]
      exact hq.queue
    rw [hnil] at htake
    cases htake
  | noEntry | toIdle => exact ⟨rfl, by simp [Worker.free]⟩
  | dropEnded hpc hft _ | enterFiber hpc hft _ | reuseFunc hpc hft _ _ | newFunc hpc hft _ =>
    exact (hnone hpc _ hft).elim
  | leave hpc hft hi =>
    exact ⟨State.leave_queue s w, by simp [Worker.free]⟩
  | drop hpc =>
    rcases hfree with hf | ⟨v', f', c, hpc', -⟩
    · simp [Worker.free, hpc] at hf
    · rw [hpc] at hpc'
      cases hpc'
  | begin hpc _ _ | beginEmpty hpc _ _ | resume hpc _ | hold hpc _ | save hpc _ | saveBack hpc _ _
    | decr hpc | requeueFiber hpc | requeueFunc hpc => exact (hstuck hpc (by simp)).elim
  | keep hpc hy =>
    have hy' := hq.window w _ _ _ hw (.inl hpc)
    rw [hy] at hy'
    cases hy'
  | endFiber | endFunc | lostFiber | lostFunc | idleIn | idleStop | idleWait =>
    exact ⟨rfl, by simp [Worker.free]⟩
  | idleInc | idleDec =>
    exact ⟨State.setSched_queue_eq s _ _ rfl, by simp [Worker.free]⟩

theorem Worker.free_not_exec {W : Worker} (h : W.free = true) (v : Via) (f : FiberId)
    (st : Stage) : W.pc ≠ .exec v f st := by
  intro hpc
  simp [Worker.free, hpc] at h

theorem Worker.free_not_active {W : Worker} (h : W.free = true) : W.active = false := by
  unfold Worker.free at h
  unfold Worker.active
  cases hpc : W.pc <;> rw [hpc] at h <;> simp_all

/-- A move that gives scheduler `i` no entry keeps it quiet, if its workers stay idle. -/
theorem Quiet.of_others {l : Label} (hq : Quiet s i) (h : Held s) (hC : Counters s)
    (hs : Scheduler.step s l = some s') (hqueue : s'.queue i = s.queue i)
    (hmoved : ∀ w, l.worker = some w → (s.workers w).sched = i →
      (s'.workers w).free = true) (hsched : ∀ w, l.worker = some w →
      (s'.workers w).sched = (s.workers w).sched) : Quiet s' i := by
  have hother : ∀ w, (s'.workers w).sched = i →
      (s'.workers w).free = true ∨ (s'.workers w = s.workers w ∧ l.worker ≠ some w) := by
    intro w hw
    by_cases hl : l.worker = some w
    · exact .inl (hmoved w hl ((hsched w hl).symm.trans hw))
    · rcases step_worker_other hs hl with hsame | ⟨j, ws, -, -, -, hfresh⟩
      · exact .inr ⟨hsame, hl⟩
      · rw [hfresh]
        exact .inl rfl
  refine ⟨hqueue.trans hq.queue, ?_, ?_⟩
  · rw [((hC.step hs).active i).eq_zero_iff]
    intro w
    by_cases hw : (s'.workers w).sched = i
    · have hact : (s'.workers w).active = false := by
        rcases hother w hw with hf | ⟨hsame, -⟩
        · exact Worker.free_not_active hf
        · rw [hsame] at hw ⊢
          exact hC.not_active hq.active hw
      simp [hact]
    · simp [hw]
  · intro w v f c hw hpc
    have hexec : ∃ st, (s'.workers w).pc = .exec v f st := by
      rcases hpc with hpc | hpc <;> exact ⟨_, hpc⟩
    obtain ⟨st, hst⟩ := hexec
    rcases hother w hw with hf | ⟨hsame, hl⟩
    · exact absurd hst (Worker.free_not_exec hf v f st)
    · rw [hsame] at hw hpc hst
      rw [(h.excl.step_other hs hl (owns_exec hst)).2]
      exact hq.window w v f c hw hpc

/-- `start()` keeps a quiet scheduler quiet: the new workers are at the head of the loop. -/
theorem Quiet.start {j : SchedId} {ws : List ThreadId} (hq : Quiet s i) (h : Held s)
    (hC : Counters s) (hs : Scheduler.step s (.start j ws) = some s') : Quiet s' i := by
  refine hq.of_others h hC hs ?_ (fun _ hw => by cases hw) (fun _ hw => by cases hw)
  rw [start_queue hs]

/-- **A quiet scheduler stays quiet** until somebody outside feeds it. -/
theorem Quiet.step {l : Label} (hq : Quiet s i) (h : Held s) (hC : Counters s)
    (hl : ¬Feeds s i l) (hs : Scheduler.step s l = some s') : Quiet s' i := by
  cases move_of_step hs with
  | @run w _ _ hm =>
    obtain ⟨W, hW, hsched, -, -⟩ := hm.worker
    refine hq.of_others h hC hs ?_ ?_ ?_
    · by_cases hw : (s.workers w).sched = i
      · rw [(hq.runMove h hC hw hm).1]
      · rcases hm.queue with he | ⟨e, q, -, -, -, he⟩ | ⟨v, f, c, -, he⟩
        · rw [he]
        · rw [he, if_neg (Ne.symm hw)]
        · rw [he, if_neg (Ne.symm hw)]
    · intro w' hw' hi
      obtain rfl : w = w' := Option.some.inj hw'
      exact (hq.runMove h hC hi hm).2
    · intro w' hw'
      obtain rfl : w = w' := Option.some.inj hw'
      rw [hW, Function.update_self, hsched]
  | @body w v f a _ _ hpc hm =>
    obtain ⟨-, st, hW⟩ := hm.control hpc
    have hne : (s.workers w).sched ≠ i := by
      intro hi
      have hact := hC.not_active hq.active hi
      simp [Worker.active, hpc, Stage.counted] at hact
    refine hq.of_others h hC hs ?_ ?_ ?_
    · by_contra hqueue
      exact hl ⟨hne, _, hs, hqueue⟩
    · intro w' hw' hi
      obtain rfl : w = w' := Option.some.inj hw'
      exact absurd hi hne
    · intro w' hw'
      obtain rfl : w = w' := Option.some.inj hw'
      rw [hW, Function.update_self]
      rfl
  | schedule =>
    refine hq.of_others h hC hs ?_ (fun _ hw => by cases hw) (fun _ hw => by cases hw)
    rw [accept_queue, if_neg fun he => hl he.symm]
  | @scheduleAll j sps =>
    refine hq.of_others h hC hs ?_ (fun _ hw => by cases hw) (fun _ hw => by cases hw)
    refine acceptAll_induction (I := fun t => t.queue i = s.queue i) s j sps rfl fun t sp ht => ?_
    rw [accept_queue, if_neg fun he => hl he.symm]
    exact ht
  | reschedule =>
    refine hq.of_others h hC hs ?_ (fun _ hw => by cases hw) (fun _ hw => by cases hw)
    rw [State.push_queue, if_neg fun he => hl he.symm]
  | startAgain | launch => exact hq.start h hC hs
  | stop _ hm | owner _ hm =>
    refine hq.of_others h hC hs ?_ (fun _ hw => by cases hw) (fun _ hw => by cases hw)
    rw [hm.queue]

/-- `NoWindow`, for the threads of a list. -/
def State.windowFree (s : State) (ws : List ThreadId) : Bool :=
  ws.all fun w =>
    match (s.workers w).pc with
    | .exec _ f (.after _) | .exec _ f (.requeue _) => !(s.fibers f).state.yielded
    | _ => true

theorem OnlyThreads.noWindow {ws : List ThreadId} (h : OnlyThreads ws s)
    (hf : s.windowFree ws = true) : NoWindow s i := by
  intro w v f c _ hpc
  have hmem : w ∈ ws := by
    by_contra hw
    rw [h w hw] at hpc
    rcases hpc with hpc | hpc <;> cases hpc
  have hw := List.all_eq_true.mp hf w hmem
  rcases hpc with hpc | hpc <;> rw [hpc] at hw <;> simpa using hw

/-! ### The answer of `stopping()` -/

theorem Quiet.sound (hq : Quiet s i) (h : Held s) (hC : Counters s)
    (hs : s.stopping i = true) : StoppingSound s i := by
  refine ⟨hq.allEnded h hC, fun s' hr => ?_⟩
  obtain ⟨ha, hst, -, -⟩ := stopping_iff.mp hs
  -- the invariant of the continuation: quiet, with both flags up
  have hI : (Held s' ∧ Counters s' ∧ Quiet s' i) ∧
      (s'.scheds i).autoStop = true ∧ (s'.scheds i).stopping = true := by
    refine hr.invariant (I := fun s' => (Held s' ∧ Counters s' ∧ Quiet s' i) ∧
      (s'.scheds i).autoStop = true ∧ (s'.scheds i).stopping = true) ⟨⟨h, hC, hq⟩, ha, hst⟩ ?_
    rintro t l t' ⟨⟨hH, hC, hQ⟩, ha, hst⟩ ⟨htake, hfeed⟩ hstep
    have hstart : ∀ ws, l ≠ .start i ws := by
      rintro ws rfl
      exact hfeed rfl
    obtain ⟨ha', hst'⟩ := step_flags hstep hstart
    exact ⟨⟨hH.step htake hstep, hC.step hstep, hQ.step hH hC hfeed hstep⟩, ha' ha, hst' hst⟩
  obtain ⟨⟨-, -, hQ⟩, ha', hst'⟩ := hI
  exact stopping_iff.mpr ⟨ha', hst', hQ.queue, hQ.active⟩

/-- A worker in the window puts its fiber back, whoever else moves. -/
theorem window_feeds {u : Setup} (hr : RootOk u s) {v : Via} {f : FiberId} {c : FCtx}
    (hi : (s.workers w).sched = i)
    (hpc : (s.workers w).pc = .exec v f (.after c) ∨ (s.workers w).pc = .exec v f (.requeue c))
    (hy : (s.fibers f).state.yielded = true) :
    ∃ s', Reach Scheduler.step (fun s l => TakesFree s l ∧ ¬Feeds s i l) s s' ∧
      s'.queue i ≠ [] := by
  have hcpu : s.onCpu w = true := by
    cases hroot : (s.workers w).root with
    | false => simp [State.onCpu, hroot]
    | true =>
      by_contra hn
      have hcall : (s.schedOf w).owner ≠ .called := by
        simpa [State.onCpu, hroot] using hn
      rcases hr.parked hroot hcall with hp | hp | ⟨v', f', hp⟩ <;>
        rcases hpc with hpc | hpc <;> rw [hpc] at hp <;> cases hp
  have hlast : ∀ t : State, (t.workers w).sched = i → t.onCpu w = true →
      (t.workers w).pc = .exec v f (.requeue c) →
      ∃ s', Reach Scheduler.step (fun s l => TakesFree s l ∧ ¬Feeds s i l) t s' ∧
        s'.queue i ≠ [] := by
    intro t hti htc htpc
    refine ⟨t.requeue w v f c, .move (l := .run w) .refl ⟨fun hc => ?_, id⟩ ?_, ?_⟩
    · rw [htpc] at hc
      cases hc
    · simp only [Scheduler.step, htc, if_true, State.runStep, htpc, State.handle]
    · unfold State.requeue
      rw [State.setWorker_queue, State.push_queue, hti, if_pos rfl]
      simp
  rcases hpc with hpc | hpc
  · have hcpu' : (s.setWorker w ((s.workers w).goto (.exec v f (.requeue c)))).onCpu w = true := by
      rw [onCpu_iff] at hcpu ⊢
      simpa [State.schedOf] using hcpu
    obtain ⟨s', hreach, hne⟩ := hlast (s.setWorker w ((s.workers w).goto (.exec v f (.requeue c))))
      (by simpa using hi) hcpu' (by simp)
    refine ⟨s', Reach.trans (.move (l := .run w) .refl ⟨fun hc => ?_, id⟩ ?_) hreach, hne⟩
    · rw [hpc] at hc
      cases hc
    · simp only [Scheduler.step, hcpu, if_true, State.runStep, hpc, State.handle, State.readState, hy]
  · exact hlast s hi hcpu hpc

/-- **`stopping()` is right exactly when no worker is in the window** between
`--m_activeThreadCount` and `schedule()`. -/
theorem stopping_sound_iff {u : Setup} (h : Reach Scheduler.step TakesFree u.init s)
    (hs : s.stopping i = true) : StoppingSound s i ↔ NoWindow s i := by
  have hH := Held.reach h
  have hC := Counters.reach h
  obtain ⟨-, -, hqueue, hactive⟩ := stopping_iff.mp hs
  constructor
  · rintro ⟨-, hstays⟩ w v f c hi hpc
    by_contra hy
    obtain ⟨s', hreach, hne⟩ := window_feeds (RootOk.reach h) hi hpc (by simpa using hy)
    exact hne (stopping_iff.mp (hstays s' hreach)).2.2.1
  · intro hwin
    exact Quiet.sound ⟨hqueue, hactive, hwin⟩ hH hC hs

/-- One worker, one function that has returned, and `stop()` is called. -/
def stoppedRun : List Label :=
  [.start 0 [0], .schedule 0 .func (-1)] ++ runWorker 0 3 ++ [.body 0 .ret] ++ runWorker 0 3 ++
    [.stop 0, .owner 0]

theorem stopping_sound_iff_one_worker :
    ∃ s, runs Scheduler.step (Setup.pool 1 (by decide)).init stoppedRun = some s ∧
      (StoppingSound s 0 ↔ NoWindow s 0) := by
  obtain ⟨s, hs, hc⟩ := exists_of_runs Scheduler.step (Setup.pool 1 (by decide)).init stoppedRun
    (fun s => s.stopping 0) (by decide +kernel)
  exact ⟨s, hs, stopping_sound_iff (takesFree_of_plain (.of_runs .refl (by decide) hs)) hc⟩

/-- One worker is in the window with a fiber that has yielded, and `stop()` is called. -/
def windowRun : List Label :=
  [.start 0 [0], .schedule 0 (.fiber false) (-1)] ++ runWorker 0 3 ++ [.body 0 .yieldToHold] ++
    runWorker 0 2 ++ [.stop 0, .owner 0]

/-- `stopping()` answers `true` while a task is about to be put back. -/
theorem stopping_unsound :
    ¬∀ (u : Setup) (s : State) (i : SchedId),
      Reach Scheduler.step (fun _ l => l.plain) u.init s → s.stopping i = true →
        StoppingSound s i := by
  intro h
  obtain ⟨s, hs, hc⟩ := exists_of_runs Scheduler.step (Setup.pool 1 (by decide)).init windowRun
    (fun s => s.stopping 0 && ((s.tasks 0).accepted && ((s.tasks 0).home == 0 &&
      !(s.tasks 0).ended))) (by decide +kernel)
  simp only [Bool.and_eq_true, beq_iff_eq, Bool.not_eq_true'] at hc
  obtain ⟨hstop, hacc, hhome, hopen⟩ := hc
  have hended := (h _ s 0 (.of_runs .refl (by decide) hs) hstop).1 0 hacc hhome
  rw [hopen] at hended
  cases hended

end LioNet.Scheduler
