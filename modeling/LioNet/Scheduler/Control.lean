import LioNet.Scheduler.Hands

/-!
# Who has the owner's thread

A scheduler made with `use_caller` runs one of its workers in `m_rootFiber`, on the thread that owns
it.  That worker moves only while the owner is inside `m_rootFiber->call()`; it gives the thread back
when `run()` returns, or when a task fiber made with `use_caller` ends on it (`CallerMainFunc` ends
in `back`, which loads the owner's context and not the one of `run()`).

`RootOk` ties the state of `m_rootFiber` to the place where its worker stands.  It holds in every
run, whatever the tasks do.
-/

namespace LioNet.Scheduler

open LioNet.Lib

/-! ### What a move does to the control fields -/

/-- Two schedulers differ in `m_fibers` and the counters only. -/
structure SameControl (S S' : Sched) : Prop where
  stopping : S'.stopping = S.stopping
  autoStop : S'.autoStop = S.autoStop
  threadCount : S'.threadCount = S.threadCount
  rootThread : S'.rootThread = S.rootThread
  rootFiber : S'.rootFiber = S.rootFiber
  threads : S'.threads = S.threads
  owner : S'.owner = S.owner

theorem SameControl.refl (S : Sched) : SameControl S S := ⟨rfl, rfl, rfl, rfl, rfl, rfl, rfl⟩

variable {s s' : State} {w : ThreadId}

theorem sameControl_push (s : State) (i : SchedId) (e : Entry) (j : SchedId) :
    SameControl (s.scheds j) ((s.push i e).scheds j) := by
  rw [State.push_scheds]
  exact ⟨rfl, rfl, rfl, rfl, rfl, rfl, rfl⟩

theorem sameControl_accept (s : State) (i : SchedId) (sp : Spawn) (t : Int) (j : SchedId) :
    SameControl (s.scheds j) ((s.accept i sp t).scheds j) := by
  rw [accept_scheds]
  exact ⟨rfl, rfl, rfl, rfl, rfl, rfl, rfl⟩

/-- A write to one scheduler's fields, seen from any scheduler. -/
theorem sameControl_setSched {i : SchedId} {S : Sched} (hS : SameControl (s.scheds i) S)
    (j : SchedId) : SameControl (s.scheds j) ((s.setSched i S).scheds j) := by
  by_cases hj : j = i
  · subst hj
    simpa using hS
  · simpa [hj] using SameControl.refl (s.scheds j)

/-- What a worker's move does to the control fields, with what it says about the worker. -/
inductive RunControl (s : State) (w : ThreadId) (s' : State) : Prop
  /-- the schedulers are not touched; a worker that has left is on its own thread -/
  | same : (∀ i, SameControl (s.scheds i) (s'.scheds i)) →
      ((s'.workers w).pc = .left → (s.workers w).root = false ∧ (s.workers w).idle = .term) →
      RunControl s w s'
  /-- `run()` returns in the root fiber -/
  | leave : (s.workers w).root = true → (s.workers w).pc = .dispatch →
      (s.workers w).idle = .term → s' = s.leave w → RunControl s w s'
  /-- a `CallerMainFunc` ends on the root fiber -/
  | back {v : Via} {f : FiberId} : (s.workers w).root = true →
      (s.workers w).pc = .exec v f (.leaving .finished) →
      (s.fibers f).entryFunc = .callerMainFunc →
      s' = ((s.setFiber f ((s.fibers f).save .finished)).setWorker w
        ((s.workers w).goto (.exec v f (.dec .finished)))).setSched (s.workers w).sched
          { s.schedOf w with owner := .swap } → RunControl s w s'

theorem RunMove.control (hm : RunMove s w s') : RunControl s w s' := by
  cases hm with
  | leave hpc hft hi =>
    cases hr : (s.workers w).root with
    | true => exact .leave hr hpc hi rfl
    | false =>
      refine .same (fun i => ?_) fun _ => ⟨hr, hi⟩
      simp [State.leave, hr, SameControl.refl]
  | saveBack hpc hentry hr => exact .back hr hpc hentry rfl
  | take =>
    refine .same (fun i => sameControl_setSched (s := s) ?_ i) fun hl => ?_
    · exact ⟨rfl, rfl, rfl, rfl, rfl, rfl, rfl⟩
    simp at hl
  | drop | decr | idleInc | idleDec =>
    refine .same (fun i => sameControl_setSched (s := s) ?_ i) fun hl => ?_
    · exact ⟨rfl, rfl, rfl, rfl, rfl, rfl, rfl⟩
    simp [State.decActive] at hl
  | requeueFiber | requeueFunc =>
    refine .same (fun i => sameControl_push _ _ _ i) fun hl => ?_
    simp at hl
  | noEntry | dropEnded | enterFiber | reuseFunc | newFunc | toIdle | begin | beginEmpty | resume | hold
    | save | keep | endFiber | endFunc | lostFiber | lostFunc | idleIn | idleStop | idleWait =>
    refine .same (fun i => SameControl.refl _) fun hl => ?_
    simp [State.leaveBody] at hl

/-- A worker's move changes no other worker, and of its own record neither the scheduler nor the
mark of the root fiber. -/
theorem RunMove.worker (hm : RunMove s w s') :
    ∃ W, s'.workers = Function.update s.workers w W ∧ W.sched = (s.workers w).sched ∧
      W.root = (s.workers w).root ∧ W.pc ≠ .absent := by
  cases hm with
  | leave hpc hft hi =>
    exact ⟨(s.workers w).goto .left, by simp, rfl, rfl, by simp⟩
  | take | noEntry | dropEnded | enterFiber | reuseFunc | newFunc | toIdle | drop | begin | beginEmpty
    | resume | hold | save | saveBack | decr | keep | endFiber | endFunc | lostFiber | lostFunc
    | requeueFiber | requeueFunc | idleInc | idleIn | idleStop | idleWait | idleDec =>
    exact ⟨_, rfl, rfl, rfl, by simp⟩

theorem sameControl_acceptAll (s : State) (i : SchedId) (sps : List Spawn) (j : SchedId) :
    SameControl (s.scheds j) ((s.acceptAll i sps).scheds j) ∧
      (s.acceptAll i sps).workers = s.workers := by
  refine acceptAll_induction (I := fun t => SameControl (s.scheds j) (t.scheds j) ∧
    t.workers = s.workers) s i sps ⟨SameControl.refl _, rfl⟩ fun t sp ht => ?_
  obtain ⟨h1, h2, h3, h4, h5, h6, h7⟩ := sameControl_accept t i sp (-1) j
  obtain ⟨⟨g1, g2, g3, g4, g5, g6, g7⟩, hw⟩ := ht
  exact ⟨⟨h1.trans g1, h2.trans g2, h3.trans g3, h4.trans g4, h5.trans g5, h6.trans g6,
    h7.trans g7⟩, (accept_workers t i sp (-1)).trans hw⟩

/-- A body's move leaves the control fields alone, and its worker in its visit. -/
theorem BodyMove.control {v : Via} {f : FiberId} {a : Action}
    (hpc : (s.workers w).pc = .exec v f .running) (hm : BodyMove s w v f a s') :
    (∀ i, SameControl (s.scheds i) (s'.scheds i)) ∧
      ∃ st, s'.workers = Function.update s.workers w ((s.workers w).goto (.exec v f st)) := by
  have hself : s.workers = Function.update s.workers w ((s.workers w).goto (.exec v f .running)) := by
    rw [← hpc]
    exact (Function.update_eq_self w s.workers).symm
  cases hm with
  | schedule =>
    exact ⟨fun i => sameControl_accept _ _ _ _ i, _, (accept_workers _ _ _ _).trans hself⟩
  | scheduleAll =>
    exact ⟨fun i => (sameControl_acceptAll _ _ _ i).1, _,
      (sameControl_acceptAll _ _ _ 0).2.trans hself⟩
  | self => exact ⟨fun i => sameControl_push _ _ _ i, _, hself⟩
  | stay => exact ⟨fun i => SameControl.refl _, _, hself⟩
  | @go _ l sw _ _ =>
    refine ⟨fun i => ?_, .switching sw, by simp⟩
    have hp := sameControl_push ((s.setSwitchers f l).rehome f sw.target) sw.target
      ⟨.fiber f (s.fibers f).func, sw.thread, false⟩ i
    have hr : ((s.setSwitchers f l).rehome f sw.target).scheds = s.scheds := by
      unfold State.rehome
      split <;> rfl
    rw [hr] at hp
    exact hp
  | yield => exact ⟨fun i => SameControl.refl _, _, rfl⟩
  | ret | throw =>
    have hf : (s.finishTask f).scheds = s.scheds := by
      unfold State.finishTask
      split <;> rfl
    refine ⟨fun i => ?_, .leaving .finished, by simp [State.leaveBody]⟩
    show SameControl (s.scheds i) ((s.finishTask f).scheds i)
    rw [hf]
    exact SameControl.refl _

/-! ### The root fiber and its worker -/

/-- Where `run()` stands while the owner has the thread. -/
def Worker.Parked (W : Worker) : Prop :=
  W.pc = .top ∨ W.pc = .left ∨ ∃ v f, W.pc = .exec v f (.dec .finished)

/-- What the state of `m_rootFiber` says about its worker. -/
def RootAt (W : Worker) : FiberState → Prop
  | .init => W.pc = .top ∧ W.idle = .init
  | .exec => W.pc ≠ .left
  | .term => W.pc = .left
  | .hold | .ready | .except => False

structure RootOk (u : Setup) (s : State) : Prop where
  thread : ∀ i, (s.scheds i).rootThread = (u.config i).rootThread
  mark : ∀ w i, u.rootOf w = some i ↔ (s.workers w).root = true ∧ (s.workers w).sched = i
  present : ∀ {w}, (s.workers w).root = true → (s.workers w).pc ≠ .absent
  parked : ∀ {w}, (s.workers w).root = true → (s.schedOf w).owner ≠ .called →
    (s.workers w).Parked
  fiber : ∀ {w}, (s.workers w).root = true → RootAt (s.workers w) (s.schedOf w).rootFiber
  entered : ∀ {i}, (s.scheds i).owner = .check1 ∨ (s.scheds i).owner = .check2 ∨
    (s.scheds i).owner = .call ∨ (s.scheds i).owner = .called → (s.scheds i).rootThread.isSome
  running : ∀ {i}, (s.scheds i).owner = .called → (s.scheds i).rootFiber = .exec

variable {u : Setup}

/-- A scheduler has one root worker at most. -/
theorem RootOk.unique (h : RootOk u s) {w w' : ThreadId} (hw : (s.workers w).root = true)
    (hw' : (s.workers w').root = true) (hs : (s.workers w).sched = (s.workers w').sched) :
    w = w' := by
  have h1 := (u.rootOf_iff w _).mp ((h.mark w _).mpr ⟨hw, rfl⟩)
  have h2 := (u.rootOf_iff w' _).mp ((h.mark w' _).mpr ⟨hw', rfl⟩)
  rw [hs] at h1
  exact Option.some.inj (h1.symm.trans h2)

/-- A scheduler made with `use_caller` has its root worker. -/
theorem RootOk.root_of_thread (h : RootOk u s) {i : SchedId} {w : ThreadId}
    (ht : (s.scheds i).rootThread = some w) :
    (s.workers w).root = true ∧ (s.workers w).sched = i := by
  rw [h.thread] at ht
  exact (h.mark w i).mp ((u.rootOf_iff w i).mpr ht)

theorem onCpu_iff : s.onCpu w = true ↔
    (s.workers w).root = false ∨ (s.schedOf w).owner = .called := by
  simp [State.onCpu]

/-- A root worker that moves has the thread from `m_rootFiber->call()`. -/
theorem called_of_onCpu (hc : s.onCpu w = true) (hr : (s.workers w).root = true) :
    (s.schedOf w).owner = .called := by
  simpa [State.onCpu, hr] using hc

/-- The control fields of all schedulers are kept, and a worker moves within `run()`. -/
theorem RootOk.same (h : RootOk u s) {W : Worker} (hc : s.onCpu w = true)
    (hw : s'.workers = Function.update s.workers w W) (hsched : W.sched = (s.workers w).sched)
    (hroot : W.root = (s.workers w).root) (hpc : W.pc ≠ .absent)
    (hleft : W.pc = .left → (s.workers w).root = false)
    (hs : ∀ i, SameControl (s.scheds i) (s'.scheds i)) : RootOk u s' := by
  have hself : s'.workers w = W := by simp [hw]
  have hother : ∀ {w'}, w' ≠ w → s'.workers w' = s.workers w' := fun hne => by simp [hw, hne]
  refine ⟨?_, ?_, ?_, ?_, ?_, ?_, ?_⟩
  · intro i
    rw [(hs i).rootThread]
    exact h.thread i
  · intro w' i
    by_cases e : w' = w
    · rw [e, hself, hroot, hsched]
      exact h.mark w i
    · rw [hother e]
      exact h.mark w' i
  · intro w' hr
    by_cases e : w' = w
    · rw [e, hself]
      exact hpc
    · rw [hother e] at hr ⊢
      exact h.present hr
  · intro w' hr ho
    by_cases e : w' = w
    · subst e
      rw [hself, hroot] at hr
      have hcall := called_of_onCpu hc hr
      rw [State.schedOf, hself, hsched, (hs _).owner] at ho
      exact absurd hcall ho
    · rw [State.schedOf, hother e, (hs _).owner] at ho
      rw [hother e] at hr ⊢
      exact h.parked hr ho
  · intro w' hr
    by_cases e : w' = w
    · subst e
      rw [State.schedOf, hself, hsched, (hs _).rootFiber]
      rw [hself, hroot] at hr
      have hexec : (s.scheds (s.workers w').sched).rootFiber = .exec :=
        h.running (called_of_onCpu hc hr)
      rw [hexec]
      intro hl
      rw [hleft hl] at hr
      cases hr
    · rw [State.schedOf, hother e, (hs _).rootFiber]
      rw [hother e] at hr
      exact h.fiber hr
  · intro i ho
    rw [(hs i).owner] at ho
    rw [(hs i).rootThread]
    exact h.entered ho
  · intro i ho
    rw [(hs i).owner] at ho
    rw [(hs i).rootFiber]
    exact h.running ho

/-- The root worker gives the thread back to the owner. -/
theorem RootOk.yields (h : RootOk u s) {W : Worker} {S : Sched} (hr : (s.workers w).root = true)
    (hw : s'.workers = Function.update s.workers w W) (hsched : W.sched = (s.workers w).sched)
    (hroot : W.root = (s.workers w).root) (hpc : W.Parked)
    (hs : s'.scheds = Function.update s.scheds (s.workers w).sched S)
    (hthread : S.rootThread = (s.schedOf w).rootThread) (howner : S.owner = .swap)
    (hfiber : RootAt W S.rootFiber) : RootOk u s' := by
  have hself : s'.workers w = W := by simp [hw]
  have hother : ∀ {w'}, w' ≠ w → s'.workers w' = s.workers w' := fun hne => by simp [hw, hne]
  have hS : s'.scheds (s.workers w).sched = S := by simp [hs]
  have hj : ∀ {j}, j ≠ (s.workers w).sched → s'.scheds j = s.scheds j := fun hne => by
    simp [hs, hne]
  have hfar : ∀ {w'}, w' ≠ w → (s.workers w').root = true →
      (s.workers w').sched ≠ (s.workers w).sched :=
    fun hne hr' he => hne (h.unique hr' hr he)
  refine ⟨?_, ?_, ?_, ?_, ?_, ?_, ?_⟩
  · intro j
    by_cases e : j = (s.workers w).sched
    · rw [e, hS, hthread]
      exact h.thread _
    · rw [hj e]
      exact h.thread j
  · intro w' i
    by_cases e : w' = w
    · rw [e, hself, hroot, hsched]
      exact h.mark w i
    · rw [hother e]
      exact h.mark w' i
  · intro w' hr'
    by_cases e : w' = w
    · rw [e, hself]
      rcases hpc with hp | hp | ⟨v, f, hp⟩ <;> rw [hp] <;> simp
    · rw [hother e] at hr' ⊢
      exact h.present hr'
  · intro w' hr' ho
    by_cases e : w' = w
    · rw [e, hself]
      exact hpc
    · rw [hother e] at hr' ⊢
      rw [State.schedOf, hother e, hj (hfar e hr')] at ho
      exact h.parked hr' ho
  · intro w' hr'
    by_cases e : w' = w
    · rw [e, State.schedOf, hself, hsched, hS]
      exact hfiber
    · rw [hother e] at hr'
      rw [State.schedOf, hother e, hj (hfar e hr')]
      exact h.fiber hr'
  · intro j ho
    by_cases e : j = (s.workers w).sched
    · rw [e, hS, howner] at ho
      simp at ho
    · rw [hj e] at ho ⊢
      exact h.entered ho
  · intro j ho
    by_cases e : j = (s.workers w).sched
    · rw [e, hS, howner] at ho
      cases ho
    · rw [hj e] at ho ⊢
      exact h.running ho

theorem RootOk.runMove (h : RootOk u s) (hc : s.onCpu w = true) (hm : RunMove s w s') :
    RootOk u s' := by
  obtain ⟨W, hw, hsched, hroot, hpc⟩ := hm.worker
  cases hm.control with
  | same hs hleft =>
    refine h.same hc hw hsched hroot hpc (fun hl => (hleft ?_).1) hs
    rw [hw, Function.update_self]
    exact hl
  | leave hr hd hi hs' =>
    subst hs'
    have hS : (s.leave w).scheds = Function.update s.scheds (s.workers w).sched
        { s.schedOf w with rootFiber := .term, owner := .swap } := by
      simp [State.leave, hr]
    have hW : (s.leave w).workers = Function.update s.workers w ((s.workers w).goto .left) := by
      simp [State.leave, hr]
    exact h.yields hr hW rfl rfl (.inr (.inl rfl)) hS rfl rfl rfl
  | @back v f hr hl hentry hs' =>
    have hexec : (s.schedOf w).rootFiber = .exec := h.running (called_of_onCpu hc hr)
    subst hs'
    refine h.yields hr rfl rfl rfl (.inr (.inr ⟨v, f, rfl⟩)) rfl rfl rfl ?_
    show RootAt _ (s.schedOf w).rootFiber
    rw [hexec]
    simp [RootAt]

/-- The owner moves while it has the thread. -/
theorem RootOk.ownerMove (h : RootOk u s) {i : SchedId} (hm : OwnerMove s i s') :
    RootOk u s' := by
  -- one frame for all the moves; only `call` writes the root fiber
  have hframe : ∀ S : Sched, S.rootThread = (s.scheds i).rootThread →
      (s.scheds i).owner ≠ .called →
      ((S.rootFiber = (s.scheds i).rootFiber ∧ S.owner ≠ .called) ∨
        (S.rootFiber = .exec ∧ S.owner = .called ∧ (s.scheds i).rootFiber.ended = false)) →
      (S.owner = .check1 ∨ S.owner = .check2 ∨ S.owner = .call ∨ S.owner = .called →
        (s.scheds i).rootThread.isSome) → RootOk u (s.setSched i S) := by
    intro S hthread hne hfib hent
    have hself : (s.setSched i S).scheds i = S := by simp
    have hother : ∀ {j}, j ≠ i → (s.setSched i S).scheds j = s.scheds j := fun hj => by simp [hj]
    refine ⟨?_, h.mark, h.present, ?_, ?_, ?_, ?_⟩
    · intro j
      by_cases e : j = i
      · rw [e, hself, hthread]
        exact h.thread i
      · rw [hother e]
        exact h.thread j
    · intro w hr ho
      refine h.parked hr ?_
      by_cases e : (s.workers w).sched = i
      · rw [State.schedOf, e]
        exact hne
      · rw [State.schedOf, State.setSched_workers, hother e] at ho
        exact ho
    · intro w hr
      have hold := h.fiber hr
      by_cases e : (s.workers w).sched = i
      · rw [State.schedOf, e] at hold
        rw [State.schedOf, State.setSched_workers, e, hself]
        rcases hfib with ⟨hsame, -⟩ | ⟨hexec, -, hnot⟩
        · rw [hsame]
          exact hold
        · rw [hexec]
          intro hl
          cases hF : (s.scheds i).rootFiber <;> rw [hF] at hold hnot
          case init =>
            have hold' : (s.workers w).pc = .top := hold.1
            rw [hold'] at hl
            cases hl
          case exec => exact hold hl
          case term => cases hnot
          case hold | ready | except => exact hold
      · rw [State.schedOf, State.setSched_workers, hother e]
        exact hold
    · intro j ho
      by_cases e : j = i
      · rw [e, hself] at ho ⊢
        rw [hthread]
        exact hent ho
      · rw [hother e] at ho ⊢
        exact h.entered ho
    · intro j ho
      by_cases e : j = i
      · rw [e, hself] at ho ⊢
        rcases hfib with ⟨-, hn⟩ | ⟨hexec, -⟩
        · exact absurd ho hn
        · exact hexec
      · rw [hother e] at ho ⊢
        exact h.running ho
  cases hm with
  | stopAlone ho hroot _ _ =>
    exact hframe _ rfl (by simp [ho]) (.inl ⟨rfl, by simp⟩) fun _ => hroot
  | stopPool ho _ => exact hframe _ rfl (by simp [ho]) (.inl ⟨rfl, by simp⟩) fun hc => by simp at hc
  | returnEarly ho _ =>
    exact hframe _ rfl (by simp [ho]) (.inl ⟨rfl, by simp⟩) fun hc => by simp at hc
  | goOn ho _ => exact hframe _ rfl (by simp [ho]) (.inl ⟨rfl, by simp⟩) fun hc => by simp at hc
  | setStopping ho =>
    refine hframe _ rfl (by simp [ho]) (.inl ⟨rfl, ?_⟩) fun hc => ?_
    · dsimp only
      split <;> simp
    · by_contra hn
      simp [hn] at hc
  | skipCall ho _ => exact hframe _ rfl (by simp [ho]) (.inl ⟨rfl, by simp⟩) fun hc => by simp at hc
  | toCall ho _ =>
    exact hframe _ rfl (by simp [ho]) (.inl ⟨rfl, by simp⟩) fun _ => h.entered (by simp [ho])
  | call ho hf =>
    exact hframe _ rfl (by simp [ho]) (.inr ⟨rfl, rfl, hf⟩) fun _ => h.entered (by simp [ho])
  | swap ho => exact hframe _ rfl (by simp [ho]) (.inl ⟨rfl, by simp⟩) fun hc => by simp at hc
  | join ho _ => exact hframe _ rfl (by simp [ho]) (.inl ⟨rfl, by simp⟩) fun hc => by simp at hc

/-- The control fields and the workers are kept. -/
theorem RootOk.congr (h : RootOk u s) (hw : s'.workers = s.workers)
    (hs : ∀ i, SameControl (s.scheds i) (s'.scheds i)) : RootOk u s' where
  thread i := by
    rw [(hs i).rootThread]
    exact h.thread i
  mark := by rw [hw]; exact h.mark
  present := by rw [hw]; exact h.present
  parked hr ho := by
    rw [State.schedOf, hw, (hs _).owner] at ho
    rw [hw] at hr ⊢
    exact h.parked hr ho
  fiber hr := by
    rw [State.schedOf, hw, (hs _).rootFiber]
    rw [hw] at hr
    exact h.fiber hr
  entered {i} ho := by
    rw [(hs i).owner] at ho
    rw [(hs i).rootThread]
    exact h.entered ho
  running {i} ho := by
    rw [(hs i).owner] at ho
    rw [(hs i).rootFiber]
    exact h.running ho

theorem RootOk.launch (h : RootOk u s) {i : SchedId} {ws : List ThreadId}
    (habsent : ∀ w ∈ ws, (s.workers w).pc = .absent)
    (hw : s'.workers = fun w => if w ∈ ws then Worker.fresh i false else s.workers w)
    (hs : ∀ j, (s'.scheds j).rootThread = (s.scheds j).rootThread ∧
      (s'.scheds j).rootFiber = (s.scheds j).rootFiber ∧
      (s'.scheds j).owner = (s.scheds j).owner) : RootOk u s' := by
  have hnot : ∀ {w}, (s.workers w).root = true → w ∉ ws :=
    fun hr hmem => h.present hr (habsent _ hmem)
  have hkeep : ∀ {w}, (s'.workers w).root = true →
      (s.workers w).root = true ∧ s'.workers w = s.workers w := by
    intro w hr
    by_cases hmem : w ∈ ws
    · simp [hw, hmem, Worker.fresh] at hr
    · simp only [hw, hmem, if_false] at hr ⊢
      exact ⟨hr, trivial⟩
  refine ⟨?_, ?_, ?_, ?_, ?_, ?_, ?_⟩
  · intro j
    rw [(hs j).1]
    exact h.thread j
  · intro w j
    rw [h.mark]
    constructor
    · rintro ⟨hr, hj⟩
      simp [hw, hnot hr, hr, hj]
    · rintro ⟨hr, hj⟩
      obtain ⟨hr', hsame⟩ := hkeep hr
      exact ⟨hr', by rw [← hsame]; exact hj⟩
  · intro w hr
    obtain ⟨hr', hsame⟩ := hkeep hr
    rw [hsame]
    exact h.present hr'
  · intro w hr ho
    obtain ⟨hr', hsame⟩ := hkeep hr
    rw [State.schedOf, hsame, (hs _).2.2] at ho
    rw [hsame]
    exact h.parked hr' ho
  · intro w hr
    obtain ⟨hr', hsame⟩ := hkeep hr
    rw [State.schedOf, hsame, (hs _).2.1]
    exact h.fiber hr'
  · intro j ho
    rw [(hs j).2.2] at ho
    rw [(hs j).1]
    exact h.entered ho
  · intro j ho
    rw [(hs j).2.2] at ho
    rw [(hs j).2.1]
    exact h.running ho

/-- **Every move keeps the root fiber and its worker in agreement.** -/
theorem RootOk.step {l : Label} (h : RootOk u s) (hs : step s l = some s') : RootOk u s' := by
  cases move_of_step hs with
  | run hc hm => exact h.runMove hc hm
  | body hc hpc hm =>
    obtain ⟨hsame, st, hw⟩ := hm.control hpc
    exact h.same hc hw rfl rfl (by simp) (by simp) hsame
  | schedule => exact h.congr (accept_workers _ _ _ _) fun j => sameControl_accept _ _ _ _ j
  | scheduleAll =>
    exact h.congr (sameControl_acceptAll _ _ _ 0).2 fun j => (sameControl_acceptAll _ _ _ j).1
  | reschedule => exact h.congr rfl fun j => sameControl_push _ _ _ j
  | startAgain => exact h
  | @launch i ws _ _ _ _ _ habs =>
    refine h.launch (i := i) habs rfl fun j => ?_
    by_cases hj : j = i
    · subst hj
      simp
    · simp [hj]
  | stop _ hm | owner _ hm => exact h.ownerMove hm

theorem RootOk.init (u : Setup) : RootOk u u.init where
  thread i := rfl
  mark w i := by
    cases hr : u.rootOf w <;> simp [Setup.init, hr, Worker.fresh, Worker.absent]
  present {w} hr := by
    rcases init_workers u w with hw | ⟨i, hw⟩ <;> rw [hw] at hr ⊢
    · cases hr
    · simp [Worker.fresh]
  parked {w} hr _ := by
    rcases init_workers u w with hw | ⟨i, hw⟩ <;> rw [hw] at hr ⊢
    · cases hr
    · exact .inl rfl
  fiber {w} hr := by
    rcases init_workers u w with hw | ⟨i, hw⟩ <;> rw [hw] at hr
    · cases hr
    · rw [hw]
      exact ⟨rfl, rfl⟩
  entered ho := by simp [Setup.init, Sched.construct] at ho
  running ho := by simp [Setup.init, Sched.construct] at ho

/-- The root fiber and its worker agree in every run. -/
theorem RootOk.reach {P : State → Label → Prop} (h : Reach Scheduler.step P u.init s) :
    RootOk u s :=
  h.invariant (RootOk.init u) fun hI _ hs => hI.step hs

/-! ### What all moves keep -/

/-- A worker that does not move is as it was, or was just launched. -/
theorem step_worker_other {l : Label} (hs : Scheduler.step s l = some s') {w' : ThreadId}
    (hl : l.worker ≠ some w') :
    s'.workers w' = s.workers w' ∨
      ∃ i ws, l = .start i ws ∧ w' ∈ ws ∧ (s.workers w').pc = .absent ∧
        s'.workers w' = Worker.fresh i false := by
  cases move_of_step hs with
  | @run w _ _ hm =>
    have hw : w' ≠ w := fun e => hl (e ▸ rfl)
    obtain ⟨W, hW, -⟩ := hm.worker
    exact .inl (by simp [hW, hw])
  | @body w v f a _ _ hpc hm =>
    have hw : w' ≠ w := fun e => hl (e ▸ rfl)
    obtain ⟨-, st, hW⟩ := hm.control hpc
    exact .inl (by simp [hW, hw])
  | schedule => exact .inl (by rw [accept_workers])
  | @scheduleAll i sps => exact .inl (by rw [(acceptAll_frame s i sps).1])
  | reschedule => exact .inl rfl
  | startAgain => exact .inl rfl
  | @launch i ws _ _ _ _ _ habs =>
    by_cases hmem : w' ∈ ws
    · exact .inr ⟨i, ws, rfl, hmem, habs w' hmem, by simp [hmem]⟩
    · exact .inl (by simp [hmem])
  | stop _ hm | owner _ hm =>
    obtain ⟨S, rfl, -⟩ := hm.frame
    exact .inl rfl

/-- A worker keeps its scheduler and its mark once it is there. -/
theorem step_mark {l : Label} (hs : Scheduler.step s l = some s')
    (hp : (s.workers w).pc ≠ .absent) :
    (s'.workers w).sched = (s.workers w).sched ∧ (s'.workers w).root = (s.workers w).root ∧
      (s'.workers w).pc ≠ .absent := by
  by_cases hl : l.worker = some w
  · cases move_of_step hs with
    | @run w' _ _ hm =>
      obtain rfl : w' = w := Option.some.inj hl
      obtain ⟨W, hW, hsched, hroot, habs⟩ := hm.worker
      rw [hW, Function.update_self]
      exact ⟨hsched, hroot, habs⟩
    | @body w' v f a _ _ hpc hm =>
      obtain rfl : w' = w := Option.some.inj hl
      obtain ⟨-, st, hW⟩ := hm.control hpc
      rw [hW, Function.update_self]
      exact ⟨rfl, rfl, by simp⟩
    | _ => cases hl
  · rcases step_worker_other hs hl with hsame | ⟨i, ws, -, -, habs, -⟩
    · rw [hsame]
      exact ⟨rfl, rfl, hp⟩
    · exact absurd habs hp

/-- A thread that is not in `run()` does not move. -/
theorem worker_ne_of_out {l : Label}
    (hout : (s.workers w).pc = .absent ∨ (s.workers w).pc = .left)
    (hs : Scheduler.step s l = some s') : l.worker ≠ some w := by
  intro hlw
  cases l with
  | run w' =>
    obtain rfl : w' = w := Option.some.inj hlw
    rcases hout with hpc | hpc <;> simp [Scheduler.step, State.runStep, hpc] at hs
  | body w' a =>
    obtain rfl : w' = w := Option.some.inj hlw
    rcases hout with hpc | hpc <;> simp [Scheduler.step, State.bodyStep, hpc] at hs
  | _ => cases hlw

/-- A thread that is still not launched after a move is as it was. -/
theorem step_absent {l : Label} (hs : Scheduler.step s l = some s')
    (h : (s'.workers w).pc = .absent) : s'.workers w = s.workers w := by
  have habs : (s.workers w).pc = .absent := by
    by_contra hp
    exact (step_mark hs hp).2.2 h
  rcases step_worker_other hs (worker_ne_of_out (.inl habs) hs) with hsame | ⟨i, ws, -, -, -, hfresh⟩
  · exact hsame
  · rw [hfresh] at h
    cases h

/-- Only the owner and `start()` write the control fields, and the root worker when it gives the
thread back. -/
theorem step_control {l : Label} (hs : Scheduler.step s l = some s') (i : SchedId) :
    SameControl (s.scheds i) (s'.scheds i) ∨
      (∃ w, l = .run w ∧ (s.workers w).sched = i ∧ (s.workers w).root = true ∧
        s.onCpu w = true ∧ RunControl s w s' ∧ (s'.scheds i).owner = .swap ∧
        (s'.scheds i).stopping = (s.scheds i).stopping ∧
        (s'.scheds i).autoStop = (s.scheds i).autoStop ∧
        (s'.scheds i).threads = (s.scheds i).threads ∧
        (s'.scheds i).threadCount = (s.scheds i).threadCount) ∨
      (∃ ws, l = .start i ws) ∨
      ((l = .stop i ∧ (s.scheds i).owner = .user ∨
        l = .owner i ∧ (s.scheds i).owner ≠ .user) ∧ OwnerMove s i s') := by
  cases move_of_step hs with
  | @run w _ hc hm =>
    cases hm.control with
    | same hsame _ => exact .inl (hsame i)
    | leave hr hpc hi hs' =>
      by_cases e : (s.workers w).sched = i
      · refine .inr (.inl ⟨w, rfl, e, hr, hc, .leave hr hpc hi hs', ?_⟩)
        subst hs'
        simp [State.leave, hr, ← e, State.schedOf]
      · left
        subst hs'
        simp [State.leave, hr, Ne.symm e, SameControl.refl]
    | back hr hpc hentry hs' =>
      by_cases e : (s.workers w).sched = i
      · refine .inr (.inl ⟨w, rfl, e, hr, hc, .back hr hpc hentry hs', ?_⟩)
        subst hs'
        simp [← e, State.schedOf]
      · left
        subst hs'
        simp [Ne.symm e, SameControl.refl]
  | body _ hpc hm => exact .inl ((hm.control hpc).1 i)
  | schedule => exact .inl (sameControl_accept _ _ _ _ i)
  | scheduleAll => exact .inl (sameControl_acceptAll _ _ _ i).1
  | reschedule => exact .inl (sameControl_push _ _ _ i)
  | startAgain => exact .inl (SameControl.refl _)
  | @launch j ws =>
    by_cases e : j = i
    · exact .inr (.inr (.inl ⟨ws, by rw [e]⟩))
    · exact .inl (by simp [Ne.symm e, SameControl.refl])
  | @stop j _ hu hm =>
    by_cases e : j = i
    · subst e
      exact .inr (.inr (.inr ⟨.inl ⟨rfl, hu⟩, hm⟩))
    · obtain ⟨S, rfl, -⟩ := hm.frame
      exact .inl (by simp [Ne.symm e, SameControl.refl])
  | @owner j _ hu hm =>
    by_cases e : j = i
    · subst e
      exact .inr (.inr (.inr ⟨.inr ⟨rfl, hu⟩, hm⟩))
    · obtain ⟨S, rfl, -⟩ := hm.frame
      exact .inl (by simp [Ne.symm e, SameControl.refl])

/-- `m_autoStop` is never taken back, and `m_stopping` only by `start()`. -/
theorem step_flags {l : Label} (hs : Scheduler.step s l = some s') {i : SchedId}
    (hl : ∀ ws, l ≠ .start i ws) :
    ((s.scheds i).autoStop = true → (s'.scheds i).autoStop = true) ∧
      ((s.scheds i).stopping = true → (s'.scheds i).stopping = true) := by
  rcases step_control hs i with hsame | ⟨w, -, -, -, -, -, -, hst, ha, -⟩ | ⟨ws, h⟩ | ⟨-, hm⟩
  · rw [hsame.autoStop, hsame.stopping]
    exact ⟨id, id⟩
  · rw [ha, hst]
    exact ⟨id, id⟩
  · exact (hl ws h).elim
  · cases hm <;> simp

/-- Only the threads of the list have been launched. -/
def OnlyThreads (ws : List ThreadId) (s : State) : Prop :=
  ∀ w, w ∉ ws → (s.workers w).pc = .absent

theorem OnlyThreads.step {ws : List ThreadId} {l : Label} (h : OnlyThreads ws s)
    (hl : ∀ i ws', l = .start i ws' → ∀ w ∈ ws', w ∈ ws) (hs : Scheduler.step s l = some s') :
    OnlyThreads ws s' := by
  intro w hw
  have habs := h w hw
  rcases step_worker_other hs (worker_ne_of_out (.inl habs) hs) with hsame | ⟨i, ws', rfl, hmem, -, -⟩
  · rw [hsame]
    exact habs
  · exact absurd (hl i ws' rfl w hmem) hw

theorem OnlyThreads.init {ws : List ThreadId} {u : Setup} (h : ∀ w, w ∉ ws → u.rootOf w = none) :
    OnlyThreads ws u.init := by
  intro w hw
  simp [Setup.init, h w hw, Worker.absent]

end LioNet.Scheduler
