import LioNet.Scheduler.Step

/-!
# What a worker's move can be

`RunMove s w s'` lists the moves of `run()` one by one, each with the guard under which the code
takes it and the state it leaves.  `runMove_of_runStep` says that `runStep` makes no other move, so
an invariant is a case analysis over this list and no proof unfolds `run()` again.  `BodyMove` and
`OwnerMove` do the same for a task body and for the owner, and `Move` for the whole process.
-/

namespace LioNet.Scheduler

open LioNet.Lib

variable {s s' : State} {w : ThreadId}

inductive RunMove (s : State) (w : ThreadId) : State → Prop
  /-- an entry is taken out of `m_fibers` -/
  | take {e : Entry} {q : List Entry} :
      (s.workers w).pc = .top →
      takeFirst (s.takes w) (s.schedOf w).fibers = some (e, q) →
      RunMove s w ((s.setSched (s.workers w).sched
        { s.schedOf w with
          fibers := q, activeThreadCount := (s.schedOf w).activeThreadCount + 1 }).setWorker w
        { s.workers w with ft := some e, pc := .dispatch })
  /-- no entry is for this worker -/
  | noEntry :
      (s.workers w).pc = .top →
      takeFirst (s.takes w) (s.schedOf w).fibers = none →
      RunMove s w (s.setWorker w { s.workers w with ft := none, pc := .dispatch })
  /-- the entry's fiber has ended -/
  | dropEnded {f : FiberId} {k : Option TaskId} {t : Int} {b : Bool} :
      (s.workers w).pc = .dispatch → (s.workers w).ft = some ⟨.fiber f k, t, b⟩ →
      (s.fibers f).state.ended = true →
      RunMove s w (s.setWorker w ((s.workers w).goto .drop))
  /-- the entry's fiber will be resumed -/
  | enterFiber {f : FiberId} {k : Option TaskId} {t : Int} {b : Bool} :
      (s.workers w).pc = .dispatch → (s.workers w).ft = some ⟨.fiber f k, t, b⟩ →
      (s.fibers f).state.ended = false →
      RunMove s w (s.setWorker w ((s.workers w).goto (.exec .ft f .enter)))
  /-- `func_fiber->reset(ft.func)` -/
  | reuseFunc {k : TaskId} {t : Int} {b : Bool} {f : FiberId} {F : SFiber} :
      (s.workers w).pc = .dispatch → (s.workers w).ft = some ⟨.func k, t, b⟩ →
      (s.workers w).funcFiber = some f → (s.fibers f).reset (some k) = some F →
      RunMove s w ((s.setFiber f F).setWorker w
        { s.workers w with ft := none, pc := .exec .func f .enter })
  /-- `func_fiber.reset(new Fiber(ft.func))` -/
  | newFunc {k : TaskId} {t : Int} {b : Bool} :
      (s.workers w).pc = .dispatch → (s.workers w).ft = some ⟨.func k, t, b⟩ →
      (s.workers w).funcFiber = none →
      RunMove s w (({ s.setFiber s.nextFiber (Fiber.construct (some k) false) with
          nextFiber := s.nextFiber + 1 }).setWorker w
        { s.workers w with
          ft := none, funcFiber := some s.nextFiber, pc := .exec .func s.nextFiber .enter })
  /-- `run()` returns -/
  | leave :
      (s.workers w).pc = .dispatch → (s.workers w).ft = none → (s.workers w).idle = .term →
      RunMove s w (s.leave w)
  /-- on to the idle fiber -/
  | toIdle :
      (s.workers w).pc = .dispatch → (s.workers w).ft = none → (s.workers w).idle ≠ .term →
      RunMove s w (s.setWorker w ((s.workers w).goto .idleInc))
  | drop :
      (s.workers w).pc = .drop → RunMove s w (s.decActive w .top)
  /-- `swapIn()` of a fresh fiber: the body begins -/
  | begin {v : Via} {f : FiberId} {k : TaskId} :
      (s.workers w).pc = .exec v f .enter → (s.fibers f).ctx = .entry →
      (s.fibers f).func = some k →
      RunMove s w (((s.setTask k { s.tasks k with started := (s.tasks k).started + 1 }).setFiber f
        (s.fibers f).resume).setWorker w ((s.workers w).goto (.exec v f .running)))
  /-- `swapIn()` of a fresh fiber without a function -/
  | beginEmpty {v : Via} {f : FiberId} :
      (s.workers w).pc = .exec v f .enter → (s.fibers f).ctx = .entry →
      (s.fibers f).func = none →
      RunMove s w (s.leaveBody w v f (s.fibers f).resume.threw .finished)
  /-- `swapIn()` of a suspended fiber -/
  | resume {v : Via} {f : FiberId} {sw : Option Switch} :
      (s.workers w).pc = .exec v f .enter → (s.fibers f).ctx = .suspended sw →
      RunMove s w ((s.setFiber f (s.fibers f).resume).setWorker w
        ((s.workers w).goto (.exec v f .running)))
  /-- the `YieldToHold` of `switchTo` -/
  | hold {v : Via} {f : FiberId} {sw : Switch} :
      (s.workers w).pc = .exec v f (.switching sw) → (s.fibers f).state = .exec →
      RunMove s w (s.leaveBody w v f { s.fibers f with state := .hold } (.suspended (some sw)))
  /-- the `swapcontext` back to `run()` -/
  | save {v : Via} {f : FiberId} {c : FCtx} :
      (s.workers w).pc = .exec v f (.leaving c) →
      ¬(c = .finished ∧ (s.fibers f).entryFunc = .callerMainFunc ∧ (s.workers w).root) →
      RunMove s w ((s.setFiber f ((s.fibers f).save c)).setWorker w
        ((s.workers w).goto (.exec v f (.dec c))))
  /-- the `swapcontext` of `back` on the root thread, to the owner's `stop()` -/
  | saveBack {v : Via} {f : FiberId} :
      (s.workers w).pc = .exec v f (.leaving .finished) →
      (s.fibers f).entryFunc = .callerMainFunc → (s.workers w).root = true →
      RunMove s w (((s.setFiber f ((s.fibers f).save .finished)).setWorker w
        ((s.workers w).goto (.exec v f (.dec .finished)))).setSched (s.workers w).sched
          { s.schedOf w with owner := .swap })
  | decr {v : Via} {f : FiberId} {c : FCtx} :
      (s.workers w).pc = .exec v f (.dec c) →
      RunMove s w (s.decActive w (.exec v f (.after c)))
  /-- READY or HOLD is read -/
  | keep {v : Via} {f : FiberId} {c : FCtx} :
      (s.workers w).pc = .exec v f (.after c) → (s.fibers f).state.yielded = true →
      RunMove s w (s.setWorker w ((s.workers w).goto (.exec v f (.requeue c))))
  /-- TERM or EXCEPT is read on `ft.fiber` -/
  | endFiber {f : FiberId} {c : FCtx} :
      (s.workers w).pc = .exec .ft f (.after c) → (s.fibers f).state.ended = true →
      RunMove s w (s.setWorker w { s.workers w with ft := none, pc := .top })
  /-- TERM or EXCEPT is read on `func_fiber` -/
  | endFunc {f : FiberId} {c : FCtx} :
      (s.workers w).pc = .exec .func f (.after c) → (s.fibers f).state.ended = true →
      RunMove s w ((s.setFiber f (Fiber.construct none false)).setWorker w
        ((s.workers w).goto .top))
  /-- INIT or EXEC is read on `ft.fiber` -/
  | lostFiber {f : FiberId} {c : FCtx} :
      (s.workers w).pc = .exec .ft f (.after c) → (s.fibers f).state.yielded = false →
      (s.fibers f).state.ended = false →
      RunMove s w ((s.setFiber f { s.fibers f with state := .hold }).setWorker w
        { s.workers w with ft := none, pc := .top })
  /-- INIT or EXEC is read on `func_fiber` -/
  | lostFunc {f : FiberId} {c : FCtx} :
      (s.workers w).pc = .exec .func f (.after c) → (s.fibers f).state.yielded = false →
      (s.fibers f).state.ended = false →
      RunMove s w ((s.setFiber f { s.fibers f with state := .hold }).setWorker w
        { s.workers w with funcFiber := none, pc := .top })
  | requeueFiber {f : FiberId} {c : FCtx} :
      (s.workers w).pc = .exec .ft f (.requeue c) →
      RunMove s w ((s.push (s.workers w).sched
        ⟨.fiber f (s.fibers f).func, -1, c != .suspended none⟩).setWorker w
        { s.workers w with ft := none, pc := .top })
  | requeueFunc {f : FiberId} {c : FCtx} :
      (s.workers w).pc = .exec .func f (.requeue c) →
      RunMove s w ((s.push (s.workers w).sched
        ⟨.fiber f (s.fibers f).func, -1, c != .suspended none⟩).setWorker w
        { s.workers w with funcFiber := none, pc := .top })
  | idleInc :
      (s.workers w).pc = .idleInc →
      RunMove s w ((s.setSched (s.workers w).sched
        { s.schedOf w with idleThreadCount := (s.schedOf w).idleThreadCount + 1 }).setWorker w
        ((s.workers w).goto .idleIn))
  | idleIn :
      (s.workers w).pc = .idleIn →
      RunMove s w (s.setWorker w { s.workers w with idle := .exec, pc := .idleRun })
  /-- `stopping()` is true: the idle fiber ends -/
  | idleStop :
      (s.workers w).pc = .idleRun → s.stopping (s.workers w).sched = true →
      RunMove s w (s.setWorker w { s.workers w with idle := .term, pc := .idleDec })
  | idleWait :
      (s.workers w).pc = .idleRun → s.stopping (s.workers w).sched = false →
      RunMove s w (s.setWorker w { s.workers w with idle := .hold, pc := .idleDec })
  | idleDec :
      (s.workers w).pc = .idleDec →
      RunMove s w ((s.setSched (s.workers w).sched
        { s.schedOf w with idleThreadCount := (s.schedOf w).idleThreadCount - 1 }).setWorker w
        { s.workers w with
          idle := if (s.workers w).idle.ended then (s.workers w).idle else .hold, pc := .top })

theorem runMove_of_dequeue (hpc : (s.workers w).pc = .top) : RunMove s w (s.dequeue w) := by
  unfold State.dequeue
  split
  · rename_i e q htake
    exact .take hpc htake
  · rename_i htake
    exact .noEntry hpc htake

theorem runMove_of_dispatch (hpc : (s.workers w).pc = .dispatch) (h : s.dispatch w = some s') :
    RunMove s w s' := by
  unfold State.dispatch at h
  dsimp only at h
  split at h
  · rename_i f k t b hft
    split at h
    · rename_i he
      obtain rfl := Option.some.inj h
      exact .dropEnded hpc hft he
    · rename_i he
      obtain rfl := Option.some.inj h
      exact .enterFiber hpc hft (by simpa using he)
  · rename_i k t b hft
    split at h
    · rename_i f hf
      obtain ⟨F, hF, rfl⟩ := Option.map_eq_some_iff.mp h
      exact .reuseFunc hpc hft hf hF
    · rename_i hf
      obtain rfl := Option.some.inj h
      exact .newFunc hpc hft hf
  · rename_i hft
    split at h
    · rename_i hi
      obtain rfl := Option.some.inj h
      exact .leave hpc hft hi
    · rename_i hi
      obtain rfl := Option.some.inj h
      exact .toIdle hpc hft hi

theorem runMove_of_swapIn {v : Via} {f : FiberId} (hpc : (s.workers w).pc = .exec v f .enter)
    (h : s.swapIn w v f = some s') : RunMove s w s' := by
  unfold State.swapIn at h
  dsimp only at h
  split at h
  · rename_i hctx
    split at h
    · rename_i k hk
      obtain rfl := Option.some.inj h
      exact .begin hpc hctx hk
    · rename_i hk
      obtain rfl := Option.some.inj h
      exact .beginEmpty hpc hctx hk
  · rename_i sw hctx
    obtain rfl := Option.some.inj h
    exact .resume hpc hctx
  · cases h

theorem runMove_of_swapOut {v : Via} {f : FiberId} {c : FCtx}
    (hpc : (s.workers w).pc = .exec v f (.leaving c)) : RunMove s w (s.swapOut w v f c) := by
  unfold State.swapOut
  dsimp only
  split
  · rename_i hc
    obtain ⟨rfl, hentry, hroot⟩ := hc
    exact .saveBack hpc hentry hroot
  · rename_i hc
    exact .save hpc hc

theorem runMove_of_readState {v : Via} {f : FiberId} {c : FCtx}
    (hpc : (s.workers w).pc = .exec v f (.after c)) (h : s.readState w v f c = some s') :
    RunMove s w s' := by
  unfold State.readState at h
  dsimp only at h
  split at h
  · rename_i hy
    obtain rfl := Option.some.inj h
    exact .keep hpc hy
  · rename_i hy
    have hy' : (s.fibers f).state.yielded = false := by simpa using hy
    split at h
    · rename_i he
      obtain rfl := Option.some.inj h
      exact .endFiber hpc he
    · rename_i he
      obtain rfl := Option.some.inj h
      exact .lostFiber hpc hy' he
    · rename_i he
      obtain ⟨F, hF, rfl⟩ := Option.map_eq_some_iff.mp h
      obtain ⟨-, rfl⟩ := Fiber.reset_eq_some_iff.mp hF
      exact .endFunc hpc he
    · rename_i he
      obtain rfl := Option.some.inj h
      exact .lostFunc hpc hy' he

theorem runMove_of_handle {v : Via} {f : FiberId} {st : Stage}
    (hpc : (s.workers w).pc = .exec v f st) (h : s.handle w v f st = some s') :
    RunMove s w s' := by
  cases st with
  | enter => exact runMove_of_swapIn hpc h
  | running => cases h
  | switching sw =>
    obtain ⟨F, hF, rfl⟩ := Option.map_eq_some_iff.mp h
    unfold Fiber.yieldTo at hF
    split at hF
    · rename_i he
      obtain rfl := Option.some.inj hF
      exact .hold hpc he
    · cases hF
  | leaving c =>
    obtain rfl := Option.some.inj h
    exact runMove_of_swapOut hpc
  | dec c =>
    obtain rfl := Option.some.inj h
    exact .decr hpc
  | after c => exact runMove_of_readState hpc h
  | requeue c =>
    obtain rfl := Option.some.inj h
    cases v with
    | ft => exact .requeueFiber hpc
    | func => exact .requeueFunc hpc

/-- **A worker makes no other move.** -/
theorem runMove_of_runStep (h : s.runStep w = some s') : RunMove s w s' := by
  unfold State.runStep at h
  dsimp only at h
  split at h
  · cases h
  · rename_i hpc
    obtain rfl := Option.some.inj h
    exact runMove_of_dequeue hpc
  · rename_i hpc
    exact runMove_of_dispatch hpc h
  · rename_i hpc
    obtain rfl := Option.some.inj h
    exact .drop hpc
  · rename_i v f st hpc
    exact runMove_of_handle hpc h
  · rename_i hpc
    obtain rfl := Option.some.inj h
    exact .idleInc hpc
  · rename_i hpc
    obtain rfl := Option.some.inj h
    exact .idleIn hpc
  · rename_i hpc
    obtain rfl := Option.some.inj h
    by_cases hs : s.stopping (s.workers w).sched = true
    · rw [if_pos hs]
      exact .idleStop hpc hs
    · rw [if_neg hs]
      exact .idleWait hpc (by simpa using hs)
  · rename_i hpc
    obtain rfl := Option.some.inj h
    exact .idleDec hpc
  · cases h

/-- What a move does to the queues: nothing, or it takes an entry, or it puts one back. -/
theorem RunMove.queue (hm : RunMove s w s') :
    (s'.queue = s.queue) ∨
    (∃ e q, (s.workers w).pc = .top ∧
      takeFirst (s.takes w) (s.schedOf w).fibers = some (e, q) ∧
      s'.workers w = { s.workers w with ft := some e, pc := .dispatch } ∧
      ∀ i, s'.queue i = if i = (s.workers w).sched then q else s.queue i) ∨
    (∃ v f c, (s.workers w).pc = .exec v f (.requeue c) ∧
      ∀ i, s'.queue i = if i = (s.workers w).sched then
        s.queue i ++ [⟨.fiber f (s.fibers f).func, -1, c != .suspended none⟩] else s.queue i) := by
  cases hm with
  | take hpc htake =>
    refine .inr (.inl ⟨_, _, hpc, htake, by simp, fun i => ?_⟩)
    rw [State.setWorker_queue, State.setSched_queue]
  | @requeueFiber f c hpc =>
    refine .inr (.inr ⟨_, f, c, hpc, fun i => ?_⟩)
    rw [State.setWorker_queue, State.push_queue]
    split
    · rename_i hi
      rw [hi]
    · rfl
  | @requeueFunc f c hpc =>
    refine .inr (.inr ⟨_, f, c, hpc, fun i => ?_⟩)
    rw [State.setWorker_queue, State.push_queue]
    split
    · rename_i hi
      rw [hi]
    · rfl
  | leave hpc hft hi => exact .inl (State.leave_queue s w)
  | drop hpc => exact .inl (State.setSched_queue_eq s _ _ rfl)
  | decr hpc => exact .inl (State.setSched_queue_eq s _ _ rfl)
  | saveBack hpc _ _ => exact .inl (State.setSched_queue_eq _ _ _ rfl)
  | idleInc hpc => exact .inl (State.setSched_queue_eq s _ _ rfl)
  | idleDec hpc => exact .inl (State.setSched_queue_eq s _ _ rfl)
  | noEntry | dropEnded | enterFiber | reuseFunc | newFunc | toIdle | begin | beginEmpty | resume | hold
    | save | keep | endFiber | endFunc | lostFiber | lostFunc | idleIn | idleStop | idleWait =>
    exact .inl rfl

/-- What is in a queue after an entry has been taken from one of them was there before. -/
theorem mem_queue_of_take {i j : SchedId} {e e' : Entry} {q : List Entry}
    (htake : takeFirst (s.takes w) (s.queue i) = some (e, q))
    (hqueue : ∀ j, s'.queue j = if j = i then q else s.queue j) (he : e' ∈ s'.queue j) :
    e' ∈ s.queue j := by
  rw [hqueue] at he
  split at he
  · rename_i hj
    exact hj ▸ mem_of_mem_takeFirst htake he
  · exact he

/-- An entry in a queue after a worker's move was there before, or is the one put back. -/
theorem RunMove.mem_queue (hm : RunMove s w s') {i : SchedId} {e : Entry} (he : e ∈ s'.queue i) :
    e ∈ s.queue i ∨ ∃ v f c, (s.workers w).pc = .exec v f (.requeue c) ∧ i = (s.workers w).sched ∧
      e = ⟨.fiber f (s.fibers f).func, -1, c != .suspended none⟩ := by
  rcases hm.queue with hq | ⟨e', q, -, htake, -, hq⟩ | ⟨v, f, c, hpc, hq⟩
  · rw [hq] at he
    exact .inl he
  · exact .inl (mem_queue_of_take htake hq he)
  · rw [hq] at he
    split at he
    · rename_i hi
      rcases List.mem_append.mp he with he | he
      · exact .inl he
      · exact .inr ⟨v, f, c, hpc, hi, List.mem_singleton.mp he⟩
    · exact .inl he

/-! ### What `schedule()` of a fresh task does -/

section Accept

variable (s : State) (i : SchedId) (sp : Spawn) (t : Int)

/-- The entry that `schedule()` makes for a fresh task. -/
def acceptEntry : Entry :=
  match sp with
  | .func => ⟨.func s.nextTask, t, false⟩
  | .fiber _ => ⟨.fiber s.nextFiber (some s.nextTask), t, false⟩

theorem accept_queue (j : SchedId) :
    (s.accept i sp t).queue j = if j = i then s.queue i ++ [acceptEntry s sp t] else s.queue j := by
  cases sp with
  | func => exact State.push_queue _ _ _ _
  | fiber uc => exact State.push_queue _ _ _ _

theorem mem_of_mem_accept {e : Entry} {j : SchedId} (h : e ∈ (s.accept i sp t).queue j) :
    e ∈ s.queue j ∨ (j = i ∧ e = acceptEntry s sp t) := by
  cases sp with
  | func => exact State.mem_of_mem_push _ _ _ _ h
  | fiber uc => exact State.mem_of_mem_push _ _ _ _ h

@[simp] theorem accept_workers : (s.accept i sp t).workers = s.workers := by
  cases sp <;> rfl

@[simp] theorem accept_tasks :
    (s.accept i sp t).tasks = Function.update s.tasks s.nextTask ⟨true, i, t, 0, false⟩ := by
  cases sp <;> rfl

@[simp] theorem accept_nextTask : (s.accept i sp t).nextTask = s.nextTask + 1 := by
  cases sp <;> rfl

@[simp] theorem accept_switchers : (s.accept i sp t).switchers = s.switchers := by
  cases sp <;> rfl

theorem accept_nextFiber : s.nextFiber ≤ (s.accept i sp t).nextFiber := by
  cases sp with
  | func => exact Nat.le_refl _
  | fiber uc => exact Nat.le_succ _

theorem accept_fibers {g : FiberId} (hg : g ≠ s.nextFiber) :
    (s.accept i sp t).fibers g = s.fibers g := by
  cases sp with
  | func => rfl
  | fiber uc => simp [State.accept, hg]

/-- Only the queue of a scheduler changes. -/
theorem accept_scheds (j : SchedId) :
    (s.accept i sp t).scheds j = { s.scheds j with fibers := (s.accept i sp t).queue j } := by
  cases sp with
  | func => exact State.push_scheds _ _ _ _
  | fiber uc => exact State.push_scheds _ _ _ _

theorem accept_fiber_new {uc : Bool} :
    (s.accept i (.fiber uc) t).fibers s.nextFiber = Fiber.construct (some s.nextTask) uc := by
  simp [State.accept]

/-- What every single acceptance keeps, a batch keeps. -/
theorem acceptAll_induction {I : State → Prop} (sps : List Spawn) (h : I s)
    (hstep : ∀ s sp, I s → I (s.accept i sp (-1))) : I (s.acceptAll i sps) := by
  unfold State.acceptAll
  induction sps generalizing s with
  | nil => exact h
  | cons sp sps ih => exact ih _ (hstep s sp h)

end Accept

/-! ### The moves of a task body -/

/-- What the body of the task in fiber `f` can do on worker `w`. -/
inductive BodyMove (s : State) (w : ThreadId) (v : Via) (f : FiberId) : Action → State → Prop
  | schedule {i : SchedId} {sp : Spawn} {t : Int} :
      BodyMove s w v f (.schedule i sp t) (s.accept i sp t)
  | scheduleAll {i : SchedId} {sps : List Spawn} :
      BodyMove s w v f (.scheduleAll i sps) (s.acceptAll i sps)
  | self {i : SchedId} {t : Int} :
      BodyMove s w v f (.scheduleSelf i t) (s.push i ⟨.fiber f (s.fibers f).func, t, true⟩)
  /-- a `switchTo` that returns at once, or a `SchedulerSwitcher` without a target -/
  | stay {a : Action} {l : List SchedId} :
      a.switches = true → BodyMove s w v f a (s.setSwitchers f l)
  /-- a `switchTo` past its early return -/
  | go {a : Action} {l : List SchedId} {sw : Switch} :
      a.switches = true →
      ¬((s.workers w).sched = sw.target ∧ (sw.thread = -1 ∨ sw.thread = (w : Int))) →
      BodyMove s w v f a
        ((((s.setSwitchers f l).rehome f sw.target).push sw.target
          ⟨.fiber f (s.fibers f).func, sw.thread, false⟩).setWorker w
          ((s.workers w).goto (.exec v f (.switching sw))))
  | yield {a : Action} {st : FiberState} :
      st.yielded = true → (s.fibers f).state = .exec →
      BodyMove s w v f a (s.leaveBody w v f { s.fibers f with state := st } (.suspended none))
  | ret :
      s.switchers f = [] →
      BodyMove s w v f .ret ((s.finishTask f).leaveBody w v f (s.fibers f).returned .finished)
  | throw :
      s.switchers f = [] →
      BodyMove s w v f .throw ((s.finishTask f).leaveBody w v f (s.fibers f).threw .finished)

theorem bodyMove_of_switchTo {v : Via} {f : FiberId} {a : Action} {l : List SchedId}
    {i : SchedId} {t : Int} (ha : a.switches = true) :
    BodyMove s w v f a ((s.setSwitchers f l).switchTo w v f i t) := by
  unfold State.switchTo
  split
  · exact .stay ha
  · rename_i hne
    exact @BodyMove.go s w v f a l ⟨i, t⟩ ha hne

theorem setSwitchers_self (s : State) (f : FiberId) : s.setSwitchers f (s.switchers f) = s := by
  simp [State.setSwitchers]

theorem bodyMove_of_yield {v : Via} {f : FiberId} {a : Action} {st : FiberState}
    (hst : st.yielded = true)
    (h : (((s.fibers f).yieldTo st).map fun F => s.leaveBody w v f F (.suspended none))
      = some s') : BodyMove s w v f a s' := by
  obtain ⟨F, hF, rfl⟩ := Option.map_eq_some_iff.mp h
  unfold Fiber.yieldTo at hF
  split at hF
  · rename_i he
    obtain rfl := Option.some.inj hF
    exact .yield hst he
  · cases hF

theorem bodyMove_of_bodyMove {v : Via} {f : FiberId} {a : Action}
    (h : s.bodyMove w v f a = some s') : BodyMove s w v f a s' := by
  cases a with
  | schedule i sp t =>
    obtain rfl := Option.some.inj h
    exact .schedule
  | scheduleAll i sps =>
    obtain rfl := Option.some.inj h
    exact .scheduleAll
  | scheduleSelf i t =>
    obtain rfl := Option.some.inj h
    exact .self
  | switchTo i t =>
    obtain rfl := Option.some.inj h
    have hm := bodyMove_of_switchTo (s := s) (w := w) (v := v) (f := f) (l := s.switchers f)
      (i := i) (t := t) (a := .switchTo i t) rfl
    rwa [setSwitchers_self] at hm
  | switcher target =>
    cases target with
    | none =>
      obtain rfl := Option.some.inj h
      exact .stay rfl
    | some i =>
      obtain rfl := Option.some.inj h
      exact bodyMove_of_switchTo rfl
  | unswitch =>
    simp only [State.bodyMove] at h
    split at h
    · cases h
    · obtain rfl := Option.some.inj h
      exact bodyMove_of_switchTo rfl
  | yieldToReady => exact bodyMove_of_yield rfl h
  | yieldToHold => exact bodyMove_of_yield rfl h
  | ret =>
    simp only [State.bodyMove] at h
    split at h
    · rename_i hl
      obtain rfl := Option.some.inj h
      exact .ret hl
    · cases h
  | throw =>
    simp only [State.bodyMove] at h
    split at h
    · rename_i hl
      obtain rfl := Option.some.inj h
      exact .throw hl
    · cases h

/-- **A body moves only while its worker is in it.** -/
theorem bodyMove_of_bodyStep {a : Action} (h : s.bodyStep w a = some s') :
    ∃ v f, (s.workers w).pc = .exec v f .running ∧ BodyMove s w v f a s' := by
  unfold State.bodyStep at h
  split at h
  · rename_i v f hpc
    exact ⟨v, f, hpc, bodyMove_of_bodyMove h⟩
  · cases h

/-! ### The moves of an owner -/

/-- The ways through `stop()`, with the caller's move into it. -/
inductive OwnerMove (s : State) (i : SchedId) : State → Prop
  /-- lines 70 to 74 -/
  | stopAlone :
      (s.scheds i).owner = .user → (s.scheds i).rootThread.isSome → (s.scheds i).threadCount = 0 →
      (s.scheds i).rootFiber = .term ∨ (s.scheds i).rootFiber = .init →
      OwnerMove s i (s.setSched i
        { s.scheds i with autoStop := true, stopping := true, owner := .check1 })
  | stopPool :
      (s.scheds i).owner = .user →
      ¬((s.scheds i).rootThread.isSome ∧ (s.scheds i).threadCount = 0 ∧
        ((s.scheds i).rootFiber = .term ∨ (s.scheds i).rootFiber = .init)) →
      OwnerMove s i (s.setSched i { s.scheds i with autoStop := true, owner := .setStopping })
  /-- line 77: `stop()` returns at once -/
  | returnEarly :
      (s.scheds i).owner = .check1 → s.stopping i = true →
      OwnerMove s i (s.setSched i { s.scheds i with owner := .user })
  | goOn :
      (s.scheds i).owner = .check1 → s.stopping i = false →
      OwnerMove s i (s.setSched i { s.scheds i with owner := .setStopping })
  | setStopping :
      (s.scheds i).owner = .setStopping →
      OwnerMove s i (s.setSched i
        { s.scheds i with
          stopping := true, owner := if (s.scheds i).rootThread.isSome then .check2 else .swap })
  | skipCall :
      (s.scheds i).owner = .check2 → s.stopping i = true →
      OwnerMove s i (s.setSched i { s.scheds i with owner := .swap })
  | toCall :
      (s.scheds i).owner = .check2 → s.stopping i = false →
      OwnerMove s i (s.setSched i { s.scheds i with owner := .call })
  | call :
      (s.scheds i).owner = .call → (s.scheds i).rootFiber.ended = false →
      OwnerMove s i (s.setSched i { s.scheds i with rootFiber := .exec, owner := .called })
  | swap :
      (s.scheds i).owner = .swap →
      OwnerMove s i (s.setSched i
        { s.scheds i with threads := [], owner := .join (s.scheds i).threads })
  | join {thrs : List ThreadId} :
      (s.scheds i).owner = .join thrs → (∀ w ∈ thrs, (s.workers w).pc = .left) →
      OwnerMove s i (s.setSched i { s.scheds i with owner := .user })

theorem ownerMove_of_stop {i : SchedId} (h : s.stop i = some s') : OwnerMove s i s' := by
  unfold State.stop at h
  dsimp only at h
  split at h
  · cases h
  · rename_i hu
    have hu' : (s.scheds i).owner = .user := by simpa using hu
    split at h
    · rename_i hc
      obtain rfl := Option.some.inj h
      exact .stopAlone hu' hc.1 hc.2.1 hc.2.2
    · rename_i hc
      obtain rfl := Option.some.inj h
      exact .stopPool hu' hc

theorem stop_user {i : SchedId} (h : s.stop i = some s') : (s.scheds i).owner = .user := by
  unfold State.stop at h
  dsimp only at h
  split at h
  · cases h
  · rename_i hu
    simpa using hu

theorem ownerMove_of_ownerStep {i : SchedId} (h : s.ownerStep i = some s') :
    OwnerMove s i s' := by
  unfold State.ownerStep at h
  dsimp only at h
  split at h
  · cases h
  · rename_i ho
    obtain rfl := Option.some.inj h
    cases hs : s.stopping i with
    | true => exact .returnEarly ho hs
    | false => exact .goOn ho hs
  · rename_i ho
    obtain rfl := Option.some.inj h
    exact .setStopping ho
  · rename_i ho
    obtain rfl := Option.some.inj h
    cases hs : s.stopping i with
    | true => exact .skipCall ho hs
    | false => exact .toCall ho hs
  · rename_i ho
    split at h
    · cases h
    · rename_i hr
      obtain rfl := Option.some.inj h
      exact .call ho (by simpa using hr)
  · cases h
  · rename_i ho
    obtain rfl := Option.some.inj h
    exact .swap ho
  · rename_i thrs ho
    split at h
    · rename_i hl
      obtain rfl := Option.some.inj h
      exact .join ho hl
    · cases h

theorem owner_busy {i : SchedId} (h : s.ownerStep i = some s') :
    (s.scheds i).owner ≠ .user := by
  intro hu
  simp [State.ownerStep, hu] at h

/-- An owner's move writes the flags and control fields of its scheduler only. -/
theorem OwnerMove.frame {i : SchedId} (hm : OwnerMove s i s') :
    ∃ S, s' = s.setSched i S ∧ S.fibers = s.queue i ∧
      S.activeThreadCount = (s.scheds i).activeThreadCount ∧
      S.threadCount = (s.scheds i).threadCount ∧ S.rootThread = (s.scheds i).rootThread := by
  cases hm <;> exact ⟨_, rfl, rfl, rfl, rfl, rfl⟩

theorem OwnerMove.queue {i : SchedId} (hm : OwnerMove s i s') : s'.queue = s.queue := by
  obtain ⟨S, rfl, hS, -⟩ := hm.frame
  exact State.setSched_queue_eq s i S hS

/-- The two outcomes of `start()`. -/
theorem start_cases {i : SchedId} {ws : List ThreadId} (h : s.start i ws = some s') :
    (s.scheds i).owner = .user ∧
      ((s' = s ∧ (s.scheds i).stopping = false) ∨
        ((s.scheds i).stopping = true ∧ (s.scheds i).threads = [] ∧
          ws.length = (s.scheds i).threadCount ∧ ws.Nodup ∧
          (∀ w ∈ ws, (s.workers w).pc = .absent) ∧
          s' = { s.setSched i
              { s.scheds i with
                stopping := false, threads := ws, threadIds := (s.scheds i).threadIds ++ ws } with
            workers := fun w => if w ∈ ws then Worker.fresh i false else s.workers w })) := by
  unfold State.start at h
  dsimp only at h
  split at h
  · cases h
  · rename_i hu
    refine ⟨by simpa using hu, ?_⟩
    split at h
    · rename_i hs
      exact .inl ⟨(Option.some.inj h).symm, hs⟩
    · rename_i hs
      split at h
      · rename_i hc
        exact .inr ⟨by simpa using hs, hc.1, hc.2.1, hc.2.2.1, hc.2.2.2, (Option.some.inj h).symm⟩
      · cases h

theorem start_queue {i : SchedId} {ws : List ThreadId} (h : s.start i ws = some s') :
    s'.queue = s.queue := by
  obtain ⟨-, ⟨rfl, -⟩ | ⟨-, -, -, -, -, rfl⟩⟩ := start_cases h
  · rfl
  · exact State.setSched_queue_eq s i _ rfl

/-! ### The moves of the whole process -/

/-- **What a step can do**, guards included. -/
inductive Move (s : State) : Label → State → Prop
  | run {w : ThreadId} {s' : State} : s.onCpu w = true → RunMove s w s' → Move s (.run w) s'
  | body {w : ThreadId} {v : Via} {f : FiberId} {a : Action} {s' : State} :
      s.onCpu w = true → (s.workers w).pc = .exec v f .running → BodyMove s w v f a s' →
      Move s (.body w a) s'
  | schedule {i : SchedId} {sp : Spawn} {t : Int} : Move s (.schedule i sp t) (s.accept i sp t)
  | scheduleAll {i : SchedId} {sps : List Spawn} : Move s (.scheduleAll i sps) (s.acceptAll i sps)
  | reschedule {i : SchedId} {f : FiberId} {t : Int} : f < s.nextFiber →
      Move s (.reschedule i f t) (s.push i ⟨.fiber f (s.fibers f).func, t, true⟩)
  /-- `start()` of a scheduler that is not stopping -/
  | startAgain {i : SchedId} {ws : List ThreadId} :
      (s.scheds i).owner = .user → (s.scheds i).stopping = false → Move s (.start i ws) s
  | launch {i : SchedId} {ws : List ThreadId} :
      (s.scheds i).owner = .user → (s.scheds i).stopping = true → (s.scheds i).threads = [] →
      ws.length = (s.scheds i).threadCount → ws.Nodup → (∀ w ∈ ws, (s.workers w).pc = .absent) →
      Move s (.start i ws)
        { s.setSched i
            { s.scheds i with
              stopping := false, threads := ws, threadIds := (s.scheds i).threadIds ++ ws } with
          workers := fun w => if w ∈ ws then Worker.fresh i false else s.workers w }
  | stop {i : SchedId} {s' : State} :
      (s.scheds i).owner = .user → OwnerMove s i s' → Move s (.stop i) s'
  | owner {i : SchedId} {s' : State} :
      (s.scheds i).owner ≠ .user → OwnerMove s i s' → Move s (.owner i) s'

theorem move_of_step {l : Label} (h : step s l = some s') : Move s l s' := by
  cases l with
  | run w =>
    simp only [step] at h
    split at h
    · rename_i hc
      exact .run hc (runMove_of_runStep h)
    · cases h
  | body w a =>
    simp only [step] at h
    split at h
    · rename_i hc
      obtain ⟨v, f, hpc, hm⟩ := bodyMove_of_bodyStep h
      exact .body hc hpc hm
    · cases h
  | schedule i sp t =>
    obtain rfl := Option.some.inj h
    exact .schedule
  | scheduleAll i sps =>
    obtain rfl := Option.some.inj h
    exact .scheduleAll
  | reschedule i f t =>
    simp only [step] at h
    split at h
    · rename_i hf
      obtain rfl := Option.some.inj h
      exact .reschedule hf
    · cases h
  | start i ws =>
    obtain ⟨hu, ⟨rfl, hst⟩ | ⟨hst, hthreads, hlen, hnodup, habs, rfl⟩⟩ := start_cases h
    · exact .startAgain hu hst
    · exact .launch hu hst hthreads hlen hnodup habs
  | stop i => exact .stop (stop_user h) (ownerMove_of_stop h)
  | owner i => exact .owner (owner_busy h) (ownerMove_of_ownerStep h)

end LioNet.Scheduler
