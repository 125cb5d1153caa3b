import LioNet.Scheduler.Stopping

/-!
# `stop()` drains the scheduler

A worker leaves `run()` once its idle fiber has seen `stopping()` true; it never looks again.  So
`stop()` drains the scheduler when each `true` that is acted on is right for good, and by
`stopping_sound_iff` that is a matter of the window between `--m_activeThreadCount` and `schedule()`.

`Drain` is the invariant of such runs.  It names the workers that a running `stop()` waits for (its
`team`) and says that none of them has decided to leave unless the scheduler is quiet.
-/

namespace LioNet.Scheduler

open LioNet.Lib

/-- The move evaluates `stopping()` of scheduler `i`: in an idle fiber, or in `stop()`. -/
def EvalsStopping (s : State) (i : SchedId) : Label → Prop
  | .run w => (s.workers w).sched = i ∧ (s.workers w).pc = .idleRun
  | .owner j => j = i ∧ ((s.scheds i).owner = .check1 ∨ (s.scheds i).owner = .check2)
  | _ => False

/-- What `stop()` of scheduler `i` may expect of a move: plain tasks, nothing scheduled from outside
once it is called, and workers launched by `start()`. -/
structure StopRun (i : SchedId) (s : State) (l : Label) : Prop where
  plain : l.plain = true
  alone : (s.scheds i).owner ≠ .user → ¬Feeds s i l
  launched : l = .stop i → (s.scheds i).threads.length = (s.scheds i).threadCount

/-- The moves under which `stop()` drains: a `stopping()` that comes out true is evaluated while no
worker is in the window, and no fiber made with `use_caller` ends on the root fiber. -/
structure DrainRun (i : SchedId) (s : State) (l : Label) : Prop extends StopRun i s l where
  window : EvalsStopping s i l → s.stopping i = true → NoWindow s i
  mainFunc : ∀ w v f, l = .run w → (s.workers w).sched = i → (s.workers w).root = true →
    (s.workers w).pc = .exec v f (.leaving .finished) → (s.fibers f).entryFunc = .mainFunc

/-- `m_fibers` is empty and every accepted task has returned or thrown. -/
def Drained (s : State) (i : SchedId) : Prop := s.queue i = [] ∧ AllEnded s i

/-- The threads that the owner is joining. -/
def OwnerPc.joining : OwnerPc → List ThreadId
  | .join thrs => thrs
  | _ => []

/-- The threads that a `stop()` waits for. -/
def Sched.team (S : Sched) : List ThreadId := S.threads ++ S.owner.joining

theorem Sched.team_congr {S S' : Sched} (h : S'.threads = S.threads)
    (hj : S'.owner.joining = S.owner.joining) : S'.team = S.team := by
  rw [Sched.team, h, hj, Sched.team]

/-- `stop()` is past `m_rootFiber->call()`. -/
def OwnerPc.pastCall : OwnerPc → Bool
  | .swap | .join _ => true
  | _ => false

structure Drain (i : SchedId) (s : State) : Prop where
  team : ∀ {w}, w ∈ (s.scheds i).team → (s.workers w).sched = i ∧ (s.workers w).root = false ∧
    (s.workers w).pc ≠ .absent
  full : (s.scheds i).owner ≠ .user → (s.scheds i).team.length = (s.scheds i).threadCount
  calm : ∀ {w}, (s.scheds i).owner = .user → w ∈ (s.scheds i).team →
    (s.scheds i).stopping = false ∧ (s.workers w).idle ≠ .term
  gone : ∀ {w}, (s.scheds i).owner ≠ .user → w ∈ (s.scheds i).team →
    (s.workers w).idle = .term → Quiet s i
  rootGone : ∀ {w}, (s.scheds i).owner = .called → (s.workers w).sched = i →
    (s.workers w).root = true → (s.workers w).idle = .term → Quiet s i
  past : (s.scheds i).owner.pastCall = true → (s.scheds i).rootThread.isSome → Quiet s i
  fresh : (s.scheds i).owner ≠ .called → (s.scheds i).rootFiber ≠ .exec
  left : ∀ {w}, (s.workers w).pc = .left → (s.workers w).idle = .term
  alone : (s.scheds i).owner = .check1 → (s.scheds i).threadCount = 0
  swapped : ∀ {thrs}, (s.scheds i).owner = .join thrs → (s.scheds i).threads = []
  pool : (s.scheds i).rootThread = none → 0 < (s.scheds i).threadCount

/-- The invariants that the proof rests on. -/
structure Ground (u : Setup) (s : State) : Prop where
  held : Held s
  counters : Counters s
  root : RootOk u s

variable {s s' : State} {w : ThreadId} {i : SchedId} {u : Setup}

/-- An idle fiber ends only when `stopping()` was true. -/
theorem RunMove.idle_term (hm : RunMove s w s') (hi : (s'.workers w).idle = .term) :
    (s.workers w).idle = .term ∨
      ((s.workers w).pc = .idleRun ∧ s.stopping (s.workers w).sched = true) := by
  cases hm with
  | idleStop hpc hs => exact .inr ⟨hpc, hs⟩
  | idleWait | idleIn => simp at hi
  | idleDec =>
    left
    simp only [State.setWorker_workers, Function.update_self] at hi
    split at hi
    · exact hi
    · cases hi
  | leave => exact .inl (by simpa using hi)
  | take | noEntry | dropEnded | enterFiber | reuseFunc | newFunc | toIdle | drop | begin | beginEmpty
    | resume | hold | save | saveBack | decr | keep | endFiber | endFunc | lostFiber | lostFunc
    | requeueFiber | requeueFunc | idleInc =>
    left
    simpa [State.leaveBody, State.decActive] using hi

/-- The same for any worker and any move. -/
theorem step_idle_term {l : Label} (hs : step s l = some s') (hi : (s'.workers w).idle = .term) :
    (s.workers w).idle = .term ∨
      (l = .run w ∧ (s.workers w).pc = .idleRun ∧ s.stopping (s.workers w).sched = true) := by
  by_cases hl : l.worker = some w
  · cases move_of_step hs with
    | @run w' _ _ hm =>
      obtain rfl : w' = w := Option.some.inj hl
      rcases hm.idle_term hi with h | h
      · exact .inl h
      · exact .inr ⟨rfl, h⟩
    | @body w' v f a _ _ hpc hm =>
      obtain rfl : w' = w := Option.some.inj hl
      obtain ⟨-, st, hW⟩ := hm.control hpc
      rw [hW, Function.update_self] at hi
      exact .inl hi
    | _ => cases hl
  · rcases step_worker_other hs hl with hsame | ⟨j, ws, -, -, -, hfresh⟩
    · exact .inl (hsame ▸ hi)
    · rw [hfresh] at hi
      cases hi

/-- A worker that has left decided so when its idle fiber ended. -/
theorem step_left {l : Label} (hs : step s l = some s')
    (h : (s.workers w).pc = .left → (s.workers w).idle = .term)
    (hpc : (s'.workers w).pc = .left) : (s'.workers w).idle = .term := by
  by_cases hl : l.worker = some w
  · cases move_of_step hs with
    | @run w' _ _ hm =>
      obtain rfl : w' = w := Option.some.inj hl
      cases hm with
      | leave _ _ hi => simpa using hi
      | _ => simp [State.leaveBody, State.decActive] at hpc
    | @body w' v f a _ _ hrun hm =>
      obtain rfl : w' = w := Option.some.inj hl
      obtain ⟨-, st, hW⟩ := hm.control hrun
      simp [hW] at hpc
    | _ => cases hl
  · rcases step_worker_other hs hl with hsame | ⟨j, ws, -, -, -, hfresh⟩
    · rw [hsame] at hpc ⊢
      exact h hpc
    · rw [hfresh] at hpc
      cases hpc

/-! ### The moves of the team -/

theorem quiet_of_true (hr : NoWindow s i) (hs : s.stopping i = true) : Quiet s i := by
  obtain ⟨-, -, hqueue, hactive⟩ := stopping_iff.mp hs
  exact ⟨hqueue, hactive, hr⟩

/-- A worker of the scheduler decides to leave only when the scheduler is quiet. -/
theorem decides_quiet {l : Label} (hP : DrainRun i s l) (hs : step s l = some s')
    (hw : (s.workers w).sched = i) (hi : (s'.workers w).idle = .term)
    (hold : (s.workers w).idle = .term → Quiet s i) : Quiet s i := by
  rcases step_idle_term hs hi with h | ⟨rfl, hpc, hst⟩
  · exact hold h
  · rw [hw] at hst
    exact quiet_of_true (hP.window ⟨hw, hpc⟩ hst) hst

theorem Ground.step {l : Label} (h : Ground u s) (htake : TakesFree s l)
    (hs : Scheduler.step s l = some s') : Ground u s' :=
  ⟨h.held.step htake hs, h.counters.step hs, h.root.step hs⟩

/-- While `stop()` runs, a quiet scheduler stays quiet. -/
theorem Ground.quiet {l : Label} (h : Ground u s) (hP : StopRun i s l)
    (ho : (s.scheds i).owner ≠ .user) (hq : Quiet s i)
    (hs : Scheduler.step s l = some s') : Quiet s' i :=
  hq.step h.held h.counters (hP.alone ho) hs

theorem team_eq {S S' : Sched} (h : SameControl S S') : S'.team = S.team := by
  unfold Sched.team
  rw [h.threads, h.owner]

/-- A root worker of the scheduler was one before the move. -/
theorem Ground.root_before (hG : Ground u s) (hG' : Ground u s') (hw : (s'.workers w).sched = i)
    (hr : (s'.workers w).root = true) : (s.workers w).root = true ∧ (s.workers w).sched = i :=
  (hG.root.mark w i).mp ((hG'.root.mark w i).mpr ⟨hr, hw⟩)

/-- A move that leaves the control fields of the scheduler alone. -/
theorem Drain.same {l : Label} (h : Drain i s) (hG : Ground u s) (hG' : Ground u s')
    (hP : DrainRun i s l) (hs : step s l = some s')
    (hc : SameControl (s.scheds i) (s'.scheds i)) : Drain i s' := by
  have hquiet : (s.scheds i).owner ≠ .user → Quiet s i → Quiet s' i :=
    fun ho hq => hG.quiet hP.toStopRun ho hq hs
  refine ⟨?_, ?_, ?_, ?_, ?_, ?_, ?_, ?_, ?_, ?_, ?_⟩
  · intro w hw
    rw [team_eq hc] at hw
    obtain ⟨h1, h2, h3⟩ := h.team hw
    obtain ⟨g1, g2, g3⟩ := step_mark hs h3
    exact ⟨g1.trans h1, g2.trans h2, g3⟩
  · rw [hc.owner, team_eq hc, hc.threadCount]
    exact h.full
  · intro w ho hw
    rw [hc.owner] at ho
    rw [team_eq hc] at hw
    obtain ⟨hst, hi⟩ := h.calm ho hw
    rw [hc.stopping]
    refine ⟨hst, fun hi' => ?_⟩
    rcases step_idle_term hs hi' with hold | ⟨-, -, htrue⟩
    · exact hi hold
    · rw [(h.team hw).1] at htrue
      rw [(stopping_iff.mp htrue).2.1] at hst
      cases hst
  · intro w ho hw hi
    rw [hc.owner] at ho
    rw [team_eq hc] at hw
    exact hquiet ho (decides_quiet hP hs (h.team hw).1 hi (h.gone ho hw))
  · intro w ho hw hr hi
    rw [hc.owner] at ho
    obtain ⟨hr', hw'⟩ := hG.root_before hG' hw hr
    refine hquiet (by simp [ho]) (decides_quiet hP hs hw' hi (h.rootGone ho hw' hr'))
  · intro ho hroot
    rw [hc.owner] at ho
    rw [hc.rootThread] at hroot
    refine hquiet ?_ (h.past ho hroot)
    intro hu
    rw [hu] at ho
    cases ho
  · rw [hc.owner, hc.rootFiber]
    exact h.fresh
  · exact fun hpc => step_left hs h.left hpc
  · rw [hc.owner, hc.threadCount]
    exact h.alone
  · rw [hc.owner, hc.threads]
    exact h.swapped
  · rw [hc.rootThread, hc.threadCount]
    exact h.pool

/-- The root worker returns from `run()`, having seen `stopping()` true. -/
theorem Drain.leave {l : Label} (h : Drain i s) (hG : Ground u s) (hP : DrainRun i s l)
    (hs : step s l = some s') (hw : (s.workers w).sched = i) (hr : (s.workers w).root = true)
    (hc : s.onCpu w = true) (hi : (s.workers w).idle = .term) (hs' : s' = s.leave w) :
    Drain i s' := by
  have hcall : (s.scheds i).owner = .called := hw ▸ called_of_onCpu hc hr
  have hq : Quiet s i := h.rootGone hcall hw hr hi
  have hq' : Quiet s' i := hG.quiet hP.toStopRun (by simp [hcall]) hq hs
  have hS : s'.scheds i = { s.scheds i with rootFiber := .term, owner := .swap } := by
    rw [hs']
    simp [State.leave, hr, ← hw, State.schedOf]
  have hteam : (s'.scheds i).team = (s.scheds i).team := by
    rw [hS]
    simp [Sched.team, OwnerPc.joining, hcall]
  refine ⟨?_, ?_, ?_, fun _ _ _ => hq', ?_, fun _ _ => hq', ?_, ?_, ?_, ?_, ?_⟩
  · intro w' hw'
    rw [hteam] at hw'
    obtain ⟨h1, h2, h3⟩ := h.team hw'
    obtain ⟨g1, g2, g3⟩ := step_mark hs h3
    exact ⟨g1.trans h1, g2.trans h2, g3⟩
  · intro _
    rw [hteam, hS]
    exact h.full (by simp [hcall])
  · intro w' ho
    rw [hS] at ho
    cases ho
  · intro w' ho
    rw [hS] at ho
    cases ho
  · intro _
    rw [hS]
    simp
  · exact fun hpc => step_left hs h.left hpc
  · intro ho
    rw [hS] at ho
    cases ho
  · intro thrs ho
    rw [hS] at ho
    cases ho
  · rw [hS]
    exact h.pool

/-- `start()` launches the team. -/
theorem Drain.launch (h : Drain i s) {ws : List ThreadId} (hs : step s (.start i ws) = some s') :
    Drain i s' := by
  have hs₀ := hs
  obtain ⟨hu, ⟨rfl, -⟩ | ⟨-, -, -, -, -, rfl⟩⟩ := start_cases hs
  · exact h
  · refine ⟨?_, ?_, ?_, ?_, ?_, ?_, ?_, fun hpc => step_left hs₀ h.left hpc, ?_, ?_, ?_⟩
    · intro w hw
      have hw' : w ∈ ws := by simpa [Sched.team, hu, OwnerPc.joining] using hw
      simp [hw', Worker.fresh]
    · intro ho
      exact absurd (by simpa using hu) ho
    · intro w _ hw
      have hw' : w ∈ ws := by simpa [Sched.team, hu, OwnerPc.joining] using hw
      simp [hw', Worker.fresh]
    · intro w ho
      exact absurd (by simpa using hu) ho
    · intro w ho
      simp [hu] at ho
    · intro ho
      simp [hu, OwnerPc.pastCall] at ho
    · simpa using h.fresh
    · intro ho
      simp [hu] at ho
    · intro thrs ho
      simp [hu] at ho
    · simpa using h.pool

/-- The owner writes its scheduler. -/
theorem Drain.write (h : Drain i s) {S : Sched}
    (hteam : S.owner ≠ .user → S.team = (s.scheds i).team)
    (hcount : S.threadCount = (s.scheds i).threadCount)
    (hthread : S.rootThread = (s.scheds i).rootThread)
    (hquiet : Quiet s i → Quiet (s.setSched i S) i)
    (hfull : (s.scheds i).owner = .user → S.team.length = S.threadCount)
    (hcalm : S.owner = .user → S.team = [])
    (hroot : S.owner = .called → ∀ w, (s.workers w).sched = i → (s.workers w).root = true →
      (s.workers w).idle = .term → Quiet s i)
    (hpast : S.owner.pastCall = true → S.rootThread.isSome → Quiet s i)
    (hfresh : S.owner ≠ .called → S.rootFiber ≠ .exec)
    (halone : S.owner = .check1 → S.threadCount = 0)
    (hswapped : ∀ thrs, S.owner = .join thrs → S.threads = []) : Drain i (s.setSched i S) := by
  have hS : (s.setSched i S).scheds i = S := by simp
  refine ⟨?_, ?_, ?_, ?_, ?_, ?_, ?_, h.left, ?_, fun {thrs} ho => ?_, ?_⟩
  · intro w hw
    rw [hS] at hw
    by_cases hu : S.owner = .user
    · rw [hcalm hu] at hw
      cases hw
    · rw [hteam hu] at hw
      exact h.team hw
  · intro ho
    rw [hS] at ho ⊢
    by_cases hu : (s.scheds i).owner = .user
    · exact hfull hu
    · rw [hteam ho, hcount]
      exact h.full hu
  · intro w ho hw
    rw [hS] at ho hw
    rw [hcalm ho] at hw
    cases hw
  · intro w ho hw hi
    rw [hS] at ho hw
    rw [hteam ho] at hw
    by_cases hu : (s.scheds i).owner = .user
    · exact absurd hi (h.calm hu hw).2
    · exact hquiet (h.gone hu hw hi)
  · intro w ho hw hr hi
    rw [hS] at ho
    exact hquiet (hroot ho w hw hr hi)
  · intro ho hisSome
    rw [hS] at ho hisSome
    exact hquiet (hpast ho hisSome)
  · rw [hS]
    exact hfresh
  · rw [hS]
    exact halone
  · rw [hS] at ho ⊢
    exact hswapped thrs ho
  · rw [hS, hthread, hcount]
    exact h.pool

/-- The owner's progress through `stop()` keeps the invariant. -/
theorem Drain.ownerMove {l : Label} (h : Drain i s) (hG : Ground u s) (hP : DrainRun i s l)
    (hs : step s l = some s')
    (hl : l = .stop i ∧ (s.scheds i).owner = .user ∨ l = .owner i ∧ (s.scheds i).owner ≠ .user)
    (hm : OwnerMove s i s') : Drain i s' := by
  have hquiet : Quiet s i → Quiet s' i := by
    intro hq
    refine hq.step hG.held hG.counters ?_ hs
    rcases hl with ⟨rfl, -⟩ | ⟨rfl, -⟩ <;> exact id
  have hcalled : (s.scheds i).owner = .user → (s.scheds i).owner ≠ .called := fun hu => by simp [hu]
  have hstop : (s.scheds i).owner = .user →
      (s.scheds i).threads.length = (s.scheds i).threadCount :=
    fun hu => hP.launched (by simpa [hu] using hl)
  -- a `stopping()` that the owner finds true
  have htrue : (s.scheds i).owner = .check1 ∨ (s.scheds i).owner = .check2 →
      s.stopping i = true → Quiet s i := by
    intro ho hst
    have hl' : l = .owner i := by
      rcases hl with ⟨-, hu⟩ | ⟨hl', -⟩
      · rw [hu] at ho
        simp at ho
      · exact hl'
    subst hl'
    exact quiet_of_true (hP.window ⟨rfl, ho⟩ hst) hst
  cases hm with
  | stopAlone hu hroot hcount hfib =>
    refine h.write (fun _ => Sched.team_congr rfl (by simp [hu, OwnerPc.joining])) rfl rfl
      hquiet (fun _ => ?_)
      (fun ho => by cases ho) (fun ho => by cases ho) (fun ho => by cases ho)
      (fun _ => h.fresh (hcalled hu)) (fun _ => hcount) (fun _ hj => by cases hj)
    simpa [Sched.team, OwnerPc.joining] using hstop hu
  | stopPool hu hcond =>
    refine h.write (fun _ => Sched.team_congr rfl (by simp [hu, OwnerPc.joining])) rfl rfl
      hquiet (fun _ => ?_)
      (fun ho => by cases ho) (fun ho => by cases ho) (fun ho => by cases ho)
      (fun _ => h.fresh (hcalled hu)) (fun ho => by cases ho) (fun _ hj => by cases hj)
    simpa [Sched.team, OwnerPc.joining] using hstop hu
  | returnEarly ho hst =>
    have hnil : (s.scheds i).team = [] := by
      have hlen := h.full (by simp [ho])
      rw [h.alone ho] at hlen
      exact List.length_eq_zero_iff.mp hlen
    have hsame : ({ s.scheds i with owner := .user } : Sched).team = (s.scheds i).team :=
      Sched.team_congr rfl (by simp [ho, OwnerPc.joining])
    refine h.write (fun _ => hsame) rfl rfl hquiet (fun hu => ?_) (fun _ => hsame.trans hnil)
      (fun hc => by cases hc) (fun hc => by cases hc) (fun _ => h.fresh (by simp [ho]))
      (fun hc => by cases hc) (fun _ hj => by cases hj)
    rw [ho] at hu
    cases hu
  | goOn ho hst =>
    refine h.write (fun _ => Sched.team_congr rfl (by simp [ho, OwnerPc.joining])) rfl rfl
      hquiet (fun hu => ?_)
      (fun hc => by cases hc) (fun hc => by cases hc) (fun hc => by cases hc)
      (fun _ => h.fresh (by simp [ho])) (fun hc => by cases hc) (fun _ hj => by cases hj)
    rw [ho] at hu
    cases hu
  | setStopping ho =>
    have hnext : ∀ {o : OwnerPc}, (if (s.scheds i).rootThread.isSome then OwnerPc.check2 else .swap)
        = o → o = .check2 ∨ o = .swap ∧ (s.scheds i).rootThread.isSome = false := by
      rintro o rfl
      cases (s.scheds i).rootThread.isSome <;> simp
    refine h.write (fun _ => Sched.team_congr rfl ?_) rfl rfl hquiet (fun hu => ?_) (fun hc => ?_)
      (fun hc => ?_)
      (fun hc hsome => ?_) (fun _ => h.fresh (by simp [ho])) (fun hc => ?_) (fun _ hj => ?_)
    · rcases hnext rfl with he | ⟨he, -⟩ <;> simp only [he, ho] <;> rfl
    · rw [ho] at hu
      cases hu
    · rcases hnext hc with he | ⟨he, -⟩ <;> cases he
    · rcases hnext hc with he | ⟨he, -⟩ <;> cases he
    · rcases hnext rfl with he | ⟨-, hnone⟩
      · simp only [he] at hc
        cases hc
      · have hsome' : (s.scheds i).rootThread.isSome = true := hsome
        rw [hnone] at hsome'
        cases hsome'
    · rcases hnext hc with he | ⟨he, -⟩ <;> cases he
    · rcases hnext hj with he | ⟨he, -⟩ <;> cases he
  | skipCall ho hst =>
    refine h.write (fun _ => Sched.team_congr rfl (by simp [ho, OwnerPc.joining])) rfl rfl
      hquiet (fun hu => ?_)
      (fun hc => by cases hc) (fun hc => by cases hc) (fun _ _ => htrue (.inr ho) hst)
      (fun _ => h.fresh (by simp [ho])) (fun hc => by cases hc) (fun _ hj => by cases hj)
    rw [ho] at hu
    cases hu
  | toCall ho hst =>
    refine h.write (fun _ => Sched.team_congr rfl (by simp [ho, OwnerPc.joining])) rfl rfl
      hquiet (fun hu => ?_)
      (fun hc => by cases hc) (fun hc => by cases hc) (fun hc => by cases hc)
      (fun _ => h.fresh (by simp [ho])) (fun hc => by cases hc) (fun _ hj => by cases hj)
    rw [ho] at hu
    cases hu
  | call ho hfib =>
    refine h.write (fun _ => Sched.team_congr rfl (by simp [ho, OwnerPc.joining])) rfl rfl
      hquiet (fun hu => ?_)
      (fun hc => by cases hc) (fun _ w hw hr hi => ?_) (fun hc => by cases hc)
      (fun hc => (hc rfl).elim) (fun hc => by cases hc) (fun _ hj => by cases hj)
    · rw [ho] at hu
      cases hu
    · -- the root fiber is INIT here, and its idle fiber has not run
      have hat := hG.root.fiber hr
      have hne := h.fresh (by simp [ho])
      rw [State.schedOf, hw] at hat
      cases hF : (s.scheds i).rootFiber <;> rw [hF] at hat hfib hne
      case init =>
        rw [hat.2] at hi
        cases hi
      case exec => exact (hne rfl).elim
      case term => cases hfib
      case hold | ready | except => exact hat.elim
  | swap ho =>
    refine h.write (fun _ => ?_) rfl rfl hquiet (fun hu => ?_) (fun hc => by cases hc)
      (fun hc => by cases hc) (fun _ hsome => h.past (by simp [ho, OwnerPc.pastCall]) hsome)
      (fun _ => h.fresh (by simp [ho])) (fun hc => by cases hc) (fun _ _ => rfl)
    · simp [Sched.team, OwnerPc.joining, ho]
    · rw [ho] at hu
      cases hu
  | @join thrs ho hall =>
    refine h.write (fun hc => (hc rfl).elim) rfl rfl hquiet (fun hu => ?_) (fun _ => ?_)
      (fun hc => by cases hc) (fun hc => by cases hc) (fun _ => h.fresh (by simp [ho]))
      (fun hc => by cases hc) (fun _ hj => by cases hj)
    · rw [ho] at hu
      cases hu
    · simp [Sched.team, OwnerPc.joining, h.swapped ho]

/-! ### Runs -/

/-- **Every such move keeps the invariant.** -/
theorem Drain.step {l : Label} (h : Drain i s) (hG : Ground u s) (hG' : Ground u s')
    (hP : DrainRun i s l) (hs : Scheduler.step s l = some s') : Drain i s' := by
  rcases step_control hs i with hc | ⟨w, hl, hw, hr, hcpu, hctl, -⟩ | ⟨ws, rfl⟩ | ⟨hl, hm⟩
  · exact h.same hG hG' hP hs hc
  · cases hctl with
    | same hsame _ => exact h.same hG hG' hP hs (hsame i)
    | leave _ _ hi hs' => exact h.leave hG hP hs hw hr hcpu hi hs'
    | @back v f _ hpc hentry _ =>
      rw [hP.mainFunc w v f hl hw hr hpc] at hentry
      cases hentry
  · exact h.launch hs
  · exact h.ownerMove hG hP hs hl hm

theorem Ground.init (u : Setup) : Ground u u.init :=
  ⟨⟨Exclusive.init u, Cover.init u⟩, Counters.init u, RootOk.init u⟩

theorem Drain.init (u : Setup) (i : SchedId) : Drain i u.init where
  team hw := by simp [Sched.team, OwnerPc.joining, Setup.init, Sched.construct] at hw
  full ho := by simp [Setup.init, Sched.construct] at ho
  calm _ hw := by simp [Sched.team, OwnerPc.joining, Setup.init, Sched.construct] at hw
  gone ho := by simp [Setup.init, Sched.construct] at ho
  rootGone ho := by simp [Setup.init, Sched.construct] at ho
  past ho := by simp [OwnerPc.pastCall, Setup.init, Sched.construct] at ho
  fresh _ := by simp [Setup.init, Sched.construct]
  left {w} hpc := by
    rcases init_workers u w with hw | ⟨j, hw⟩ <;> rw [hw] at hpc <;> cases hpc
  alone ho := by simp [Setup.init, Sched.construct] at ho
  swapped ho := by simp [Setup.init, Sched.construct] at ho
  pool hr := by
    have hr' : (u.config i).rootThread = none := hr
    simpa [Setup.init, Sched.construct, hr'] using (u.config i).threads_pos

/-- The invariants of the runs in which `stop()` drains. -/
theorem Drain.reach (h : Reach Scheduler.step (DrainRun i) u.init s) :
    Books s ∧ Ground u s ∧ Drain i s := by
  refine h.invariant (I := fun s => Books s ∧ Ground u s ∧ Drain i s)
    ⟨⟨Exclusive.init u, Ledger.init u⟩, Ground.init u, Drain.init u i⟩ ?_
  rintro s l s' ⟨hB, hG, hD⟩ hP hs
  have hG' := hG.step (hB.ledger.takesFree l) hs
  exact ⟨hB.step hP.plain hs, hG', hD.step hG hG' hP hs⟩

/-- **`stop()` drains the scheduler**: when it returns, `m_fibers` is empty and every accepted task has
returned or thrown. -/
theorem stop_drains {l : Label} (h : Reach Scheduler.step (DrainRun i) u.init s)
    (hP : DrainRun i s l) (hs : Scheduler.step s l = some s')
    (hin : (s.scheds i).owner ≠ .user) (hout : (s'.scheds i).owner = .user) : Drained s' i := by
  obtain ⟨hB, hG, hD⟩ := Drain.reach h
  have hG' := hG.step (hB.ledger.takesFree l) hs
  have hquiet : Quiet s i → Drained s' i := by
    intro hq
    have hq' := hG.quiet hP.toStopRun hin hq hs
    exact ⟨hq'.queue, hq'.allEnded hG'.held hG'.counters⟩
  rcases step_control hs i with hc | ⟨w, -, -, -, -, -, ho, -⟩ | ⟨ws, rfl⟩ | ⟨hl, hm⟩
  · rw [hc.owner] at hout
    exact absurd hout hin
  · rw [ho] at hout
    cases hout
  · exact absurd (start_cases hs).1 hin
  · have hl' : l = .owner i := by
      rcases hl with ⟨-, hu⟩ | ⟨hl', -⟩
      · exact absurd hu hin
      · exact hl'
    subst hl'
    cases hm with
    | returnEarly ho hst => exact hquiet (quiet_of_true (hP.window ⟨rfl, .inl ho⟩ hst) hst)
    | @join thrs ho hall =>
      refine hquiet ?_
      cases hr : (s.scheds i).rootThread with
      | some r => exact hD.past (by simp [ho, OwnerPc.pastCall]) (by simp [hr])
      | none =>
        -- without a root fiber there is a thread to join, and it left a quiet scheduler
        have hlen := hD.full hin
        have hpos := hD.pool hr
        have hteam : (s.scheds i).team = thrs := by
          simp [Sched.team, ho, OwnerPc.joining, hD.swapped ho]
        rw [hteam] at hlen
        obtain ⟨w, hw⟩ := List.exists_mem_of_length_pos (show 0 < thrs.length by omega)
        exact hD.gone hin (hteam ▸ hw) (hD.left (hall w hw))
    | setStopping =>
      simp only [State.setSched_scheds, Function.update_self] at hout
      split at hout <;> cases hout
    | stopAlone hu | stopPool hu => exact absurd hu hin
    | goOn | skipCall | toCall | call | swap => simp at hout

/-! ### One run that drains, and one that does not -/

/-- `StopRun`, as a test. -/
def StopRun.check (i : SchedId) (s : State) : Label → Bool
  | .run _ | .owner _ => true
  | .body w a => a.plain && (s.workers w).sched == i
  | .schedule .. | .scheduleAll .. | .start .. => (s.scheds i).owner == .user
  | .stop j => j == i && (s.scheds i).threads.length == (s.scheds i).threadCount
  | .reschedule .. => false

theorem StopRun.of_check {l : Label} (h : StopRun.check i s l = true) : StopRun i s l := by
  cases l with
  | run | owner => exact ⟨rfl, fun _ => id, by simp⟩
  | body w a =>
    simp only [StopRun.check, Bool.and_eq_true, beq_iff_eq] at h
    exact ⟨h.1, fun _ hf => hf.1 h.2, by simp⟩
  | schedule | scheduleAll | start =>
    have hu : (s.scheds i).owner = .user := by simpa [StopRun.check] using h
    exact ⟨rfl, fun hne => absurd hu hne, by simp⟩
  | stop j =>
    simp only [StopRun.check, Bool.and_eq_true, beq_iff_eq] at h
    exact ⟨rfl, fun _ => id, fun _ => h.2⟩
  | reschedule => cases h

/-- `DrainRun`, as a test for runs with the threads of a list and no root fiber. -/
def DrainRun.check (i : SchedId) (ws : List ThreadId) (s : State) (l : Label) : Bool :=
  StopRun.check i s l &&
    match l with
    | .run w => (!s.stopping i || s.windowFree ws) && !(s.workers w).root
    | .owner _ => !s.stopping i || s.windowFree ws
    | .start _ ws' => ws'.all (ws.contains ·)
    | _ => true

theorem DrainRun.of_check {l : Label} {ws : List ThreadId} (ho : OnlyThreads ws s)
    (h : DrainRun.check i ws s l = true) (hs : step s l = some s') :
    DrainRun i s l ∧ OnlyThreads ws s' := by
  simp only [DrainRun.check, Bool.and_eq_true] at h
  obtain ⟨hstop, h⟩ := h
  have hwin : (!s.stopping i || s.windowFree ws) = true → s.stopping i = true → NoWindow s i := by
    intro hc hst
    rw [hst] at hc
    exact ho.noWindow (by simpa using hc)
  refine ⟨⟨StopRun.of_check hstop, ?_, ?_⟩, ho.step ?_ hs⟩
  · intro he
    cases l with
    | run w => exact hwin ((Bool.and_eq_true _ _).mp h).1
    | owner j => exact hwin h
    | _ => exact he.elim
  · rintro w v f rfl _ hr
    simp [hr] at h
  · rintro j ws' rfl w hw
    simpa using List.all_eq_true.mp h w hw

/-- One worker, one fiber that yields and returns. -/
def drainedRun : List Label :=
  [.start 0 [0], .schedule 0 (.fiber false) (-1)] ++ runWorker 0 3 ++ [.body 0 .yieldToHold] ++
    runWorker 0 4 ++ [.stop 0, .owner 0, .owner 0] ++ runWorker 0 3 ++ [.body 0 .ret] ++
    runWorker 0 11

theorem stop_drains_one_worker :
    ∃ s s', runs (guarded step (DrainRun.check 0 [0])) (Setup.pool 1 (by decide)).init drainedRun =
        some s ∧ step s (.owner 0) = some s' ∧ Drained s' 0 := by
  obtain ⟨s, hr, hc⟩ := exists_of_runs (guarded step (DrainRun.check 0 [0]))
    (Setup.pool 1 (by decide)).init drainedRun
    (fun s => DrainRun.check 0 [0] s (.owner 0) && ((s.scheds 0).owner != .user &&
      (step s (.owner 0)).any fun s' => (s'.scheds 0).owner == .user))
    (by decide +kernel)
  simp only [Bool.and_eq_true, bne_iff_ne, Option.any_eq_true, beq_iff_eq] at hc
  obtain ⟨hlast, hin, s', hs, hout⟩ := hc
  obtain ⟨hreach, honly⟩ := Reach.of_guarded (I := OnlyThreads [0]) .refl
    (OnlyThreads.init fun _ _ => rfl) (fun ho hp hs => DrainRun.of_check ho hp hs) hr
  exact ⟨s, s', hr, hs, stop_drains hreach (DrainRun.of_check honly hlast hs).1 hs hin hout⟩

/-- Two workers.  Worker 0 is in the window when worker 1 sees `stopping()` true; then worker 1 has
the fiber and is in the window when worker 0 sees it; worker 0 leaves; the fiber schedules a task for
thread 0. -/
def strandedRun : List Label :=
  [.start 0 [0, 1], .schedule 0 (.fiber false) (-1)] ++
    runWorker 0 3 ++ [.body 0 .yieldToHold] ++ runWorker 0 2 ++ [.stop 0, .owner 0] ++
    runWorker 1 6 ++ runWorker 0 2 ++ runWorker 1 3 ++ [.body 1 .yieldToHold] ++ runWorker 1 2 ++
    runWorker 0 8 ++ runWorker 1 5 ++ [.body 1 (.schedule 0 .func 0), .body 1 .ret] ++
    runWorker 1 5 ++ [.owner 0]

/-- `stop()` returns and leaves a task in `m_fibers`. -/
theorem stop_not_drained :
    ¬∀ (u : Setup) (i : SchedId) (s s' : State) (l : Label),
      Reach step (StopRun i) u.init s → StopRun i s l → step s l = some s' →
        (s.scheds i).owner ≠ .user → (s'.scheds i).owner = .user → Drained s' i := by
  intro h
  obtain ⟨s, hr, hc⟩ := exists_of_runs (guarded step (StopRun.check 0))
    (Setup.pool 2 (by decide)).init strandedRun
    (fun s => (s.scheds 0).owner != .user && (step s (.owner 0)).any fun s' =>
      (s'.scheds 0).owner == .user && !(s'.queue 0).isEmpty) (by decide +kernel)
  simp only [Bool.and_eq_true, bne_iff_ne, Option.any_eq_true, beq_iff_eq] at hc
  obtain ⟨hin, s', hs, hout, hqueue⟩ := hc
  obtain ⟨hreach, -⟩ := Reach.of_guarded (I := fun _ => True) .refl trivial
    (fun _ hp _ => ⟨StopRun.of_check hp, trivial⟩) hr
  have hdrained := h _ 0 s s' (.owner 0) hreach (StopRun.of_check rfl) hs hin hout
  simp [hdrained.1] at hqueue

end LioNet.Scheduler
