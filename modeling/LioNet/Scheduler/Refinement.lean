import Mathlib.Data.List.Forall2
import LioNet.Scheduler.Accounting
import LioNet.Scheduler.Control
import LioNet.Scheduler.Cover
import LioNet.Scheduler.RoundRobin

/-!
# A scheduler with one thread is a round-robin queue

`round_robin`: when the thread that constructed `Scheduler(1, true)` hands over tasks and calls
`stop()`, the segments it executes are those of the queue machine, in order, and `run()` and `stop()`
return with nothing left over.  This needs that no fiber among the tasks is built with `use_caller`:
the end of such a fiber is a `back()`, which leaves `run()` for `stop()`.

`Alone` relates the scheduler to the machine while one thread is at work: the entries of `m_fibers`
stand for the machine's tasks one by one.  At the head of the loop the two agree; one turn of the
loop runs one segment and restores the agreement (`Alone.turn`), and the machine's size bounds the turns.
What the relation does not say (whose hands a fiber is in, what an entry's fiber looks like) is read
off the books that every plain run keeps.
-/

namespace LioNet.Scheduler

open LioNet.Lib

variable {u : Setup} {i : SchedId} {w : ThreadId} {s s' : State} {code : TaskId → Body}

/-! ### What a worker's move is and keeps -/

theorem runStep_top (hpc : (s.workers w).pc = .top) : s.runStep w = some (s.dequeue w) := by
  simp only [State.runStep, hpc]

theorem runStep_dispatch (hpc : (s.workers w).pc = .dispatch) : s.runStep w = s.dispatch w := by
  simp only [State.runStep, hpc]

theorem runStep_exec {v : Via} {f : FiberId} {st : Stage} (hpc : (s.workers w).pc = .exec v f st) :
    s.runStep w = s.handle w v f st := by
  simp only [State.runStep, hpc]

/-- A worker's move begins tasks, and changes nothing else of the ledger. -/
theorem RunMove.tasks (hm : RunMove s w s') :
    s'.nextTask = s.nextTask ∧ s'.switchers = s.switchers ∧ SameTasks s s' := by
  cases hm with
  | @begin v f k hpc hctx hfunc =>
    refine ⟨rfl, rfl, fun k' => ?_⟩
    by_cases hk : k' = k
    · subst hk
      simp
    · simp [hk]
  | leave => exact ⟨by simp, by simp, SameTasks.of_eq (by simp)⟩
  | _ => exact ⟨rfl, rfl, SameTasks.of_eq rfl⟩

theorem forall₂_imp_of_mem {α β : Type*} {R Q : α → β → Prop} {l : List α} {m : List β}
    (h : List.Forall₂ R l m) (hRQ : ∀ a ∈ l, ∀ b, R a b → Q a b) : List.Forall₂ Q l m := by
  induction h with
  | nil => exact .nil
  | cons hab _ ih =>
    exact .cons (hRQ _ List.mem_cons_self _ hab)
      (ih fun a ha => hRQ a (List.mem_cons_of_mem _ ha))

/-! ### The relation -/

/-- The entry stands for a task of the machine, with what is left of its body. -/
structure Stands (s : State) (w : ThreadId) (code : TaskId → Body) (e : Entry) (kb : Segment) :
    Prop where
  task : e.task = some kb.1
  code : code kb.1 = kb.2
  thread : e.thread = -1 ∨ e.thread = (w : Int)
  mainOnly : kb.2.mainOnly = true
  entryFunc : ∀ f, e.job.fiberId = some f → (s.fibers f).entryFunc = .mainFunc

/-- Fiber `f` runs task `k`, with `b` left of its body. -/
structure Carrying (s : State) (code : TaskId → Body) (f : FiberId) (k : TaskId) (b : Body) :
    Prop where
  func : (s.fibers f).func = some k
  code : code k = b
  mainOnly : b.mainOnly = true
  entryFunc : (s.fibers f).entryFunc = .mainFunc

/-- Thread `w` alone is at work, as `W`, and its scheduler `S` holds the machine's tasks. -/
structure Alone (u : Setup) (i : SchedId) (w : ThreadId) (s : State) (code : TaskId → Body)
    (q : RoundRobin) (W : Worker) (S : Sched) : Prop where
  reach : Reach step (fun _ l => l.plain) u.init s
  others : ∀ w', w' ≠ w → s.workers w' = u.init.workers w'
  switchers : ∀ f, s.switchers f = []
  tasks : ∀ k < s.nextTask, (s.tasks k).accepted = true ∧ (s.tasks k).home = i
  next : s.nextTask = q.next
  queue : List.Forall₂ (Stands s w code) S.fibers q.tasks
  worker : s.workers w = W
  sched : s.scheds i = S
  here : W.sched = i ∧ W.root = true

namespace Alone

variable {q q' : RoundRobin} {W W' : Worker} {S S' : Sched}

theorem books (h : Alone u i w s code q W S) : Books s := Books.reach h.reach

theorem schedOf (h : Alone u i w s code q W S) : s.schedOf w = S := by
  unfold State.schedOf
  rw [h.worker, h.here.1, h.sched]

theorem onCpu (h : Alone u i w s code q W S) (ho : S.owner = .called) : s.onCpu w = true := by
  simp [State.onCpu, h.schedOf, ho]

theorem step_run (h : Alone u i w s code q W S) (ho : S.owner = .called)
    (hs : s.runStep w = some s') : step s (.run w) = some s' := by
  show (if s.onCpu w then s.runStep w else none) = some s'
  rw [if_pos (h.onCpu ho)]
  exact hs

theorem queue_eq (h : Alone u i w s code q W S) : s.queue i = S.fibers := by
  unfold State.queue
  rw [h.sched]

theorem mem_queue (h : Alone u i w s code q W S) {e : Entry} (he : e ∈ S.fibers) : e ∈ s.queue i := by
  rw [h.queue_eq]
  exact he

/-- The fiber of an entry is in nobody's hands. -/
theorem not_owns (h : Alone u i w s code q W S) {e : Entry} (he : e ∈ S.fibers) {f : FiberId}
    (hf : e.job.fiberId = some f) (w' : ThreadId) : ¬(s.workers w').Owns f := by
  obtain ⟨k, hk⟩ := h.books.ledger.queued (h.mem_queue he)
  exact hk.unowned f hf w'

/-- A worker's move leaves the waiting entries standing. -/
theorem stands (h : Alone u i w s code q W S) (hs : s.runStep w = some s') {e : Entry} {kb : Segment}
    (he : e ∈ S.fibers) (hst : Stands s w code e kb) : Stands s' w code e kb := by
  refine ⟨hst.task, hst.code, hst.thread, hst.mainOnly, fun f hf => ?_⟩
  have hlt : f < s.nextFiber := h.books.excl.queued i e (h.mem_queue he) f hf
  rcases (runMove_of_runStep hs).fiber_frame f with heq | ho | hnew
  · rw [heq]
    exact hst.entryFunc f hf
  · exact absurd ho (h.not_owns he hf w)
  · exact absurd hnew (Nat.ne_of_lt hlt)

/-- **A move of `run()`** keeps the relation when the new queue stands for the machine's. -/
theorem run (h : Alone u i w s code q W S) (ho : S.owner = .called) (hs : s.runStep w = some s')
    (hW : s'.workers w = W') (hS : s'.scheds i = S') (hn : q'.next = q.next)
    (hq : List.Forall₂ (Stands s' w code) S'.fibers q'.tasks) : Alone u i w s' code q' W' S' := by
  have hm := runMove_of_runStep hs
  obtain ⟨hnext, hsw, htasks⟩ := hm.tasks
  obtain ⟨W₁, hW₁, hsched, hroot, -⟩ := hm.worker
  have hW' : W' = W₁ := by
    rw [← hW, hW₁, Function.update_self]
  refine ⟨.move h.reach rfl (h.step_run ho hs), ?_, ?_, ?_, ?_, hq, hW, hS, ?_⟩
  · intro w' hw'
    rw [hW₁, Function.update_of_ne hw']
    exact h.others w' hw'
  · intro f
    rw [hsw]
    exact h.switchers f
  · intro k hk
    rw [hnext] at hk
    rw [(htasks k).1, (htasks k).2.1]
    exact h.tasks k hk
  · rw [hnext, hn]
    exact h.next
  · rw [hW', hsched, hroot, h.worker]
    exact h.here

/-- A move of `run()` that does not touch the queue. -/
theorem run_same (h : Alone u i w s code q W S) (ho : S.owner = .called) (hs : s.runStep w = some s')
    (hW : s'.workers w = W') (hS : s'.scheds i = S') (hf : S'.fibers = S.fibers) :
    Alone u i w s' code q W' S' := by
  refine h.run ho hs hW hS rfl ?_
  rw [hf]
  exact forall₂_imp_of_mem h.queue fun e he kb hst => h.stands hs he hst

/-! ### One access of `run()` -/

variable {d : Driven} {e : Entry} {es : List Entry} {k : TaskId} {b : Body} {v : Via} {f : FiberId}
  {c : FCtx}

theorem drive_run (h : Alone u i w d.state d.code q W S) (ho : S.owner = .called)
    (hpc : ∀ v f, W.pc ≠ .exec v f .running) (hs : d.state.runStep w = some s') :
    d.drive i w = some (d.note w s' (.run w)) := by
  have hnext : d.next i w = some (.run w) := by
    unfold Driven.next
    rw [h.sched, ho, h.worker]
    dsimp only
    split
    · rename_i v f hrun
      exact absurd hrun (hpc v f)
    · rfl
  unfold Driven.drive
  rw [hnext, Option.bind_some, h.step_run ho hs]
  rfl

/-- An access that begins no segment. -/
theorem drive_silent (h : Alone u i w d.state d.code q W S) (ho : S.owner = .called)
    (hpc : ∀ v f, W.pc ≠ .exec v f .running ∧ W.pc ≠ .exec v f .enter)
    (hs : d.state.runStep w = some s') : d.drive i w = some { d with state := s' } := by
  rw [h.drive_run ho (fun v f => (hpc v f).1) hs]
  unfold Driven.note
  rw [h.worker]
  dsimp only
  split
  · rename_i v f henter
    exact absurd henter (hpc v f).2
  · rfl

/-- The head of the queue is for this thread, and it is taken. -/
theorem take (h : Alone u i w s code q W S) (ho : S.owner = .called) (hpc : W.pc = .top)
    {kb : Segment} {rest : List Segment} (hes : S.fibers = e :: es) (hq : q.tasks = kb :: rest) :
    ∃ s', s.runStep w = some s' ∧ Stands s' w code e kb ∧
      Alone u i w s' code ⟨rest, q.next⟩ { W with ft := some e, pc := .dispatch }
        { S with fibers := es, activeThreadCount := S.activeThreadCount + 1 } := by
  have hqueue := h.queue
  rw [hes, hq] at hqueue
  obtain ⟨hhead, htail⟩ := List.forall₂_cons.mp hqueue
  have htakes : s.takes w e = true := by
    have hthread : (e.thread == -1 || e.thread == (w : Int)) = true := by
      rcases hhead.thread with ht | ht <;> simp [ht]
    have hmem : e ∈ S.fibers := by
      rw [hes]
      exact List.mem_cons_self
    unfold State.takes
    rw [hthread, Bool.true_and]
    split
    · rename_i f t hjob
      have hf : e.job.fiberId = some f := by
        rw [hjob]
        rfl
      have hrest := h.books.excl.rest (h.not_owns hmem hf)
      simpa using hrest.state_ne_exec
    · rfl
  have htake : takeFirst (s.takes w) S.fibers = some (e, es) := by
    rw [hes, takeFirst, if_pos htakes]
  have hrun : s.runStep w = some ((s.setSched i
      { S with fibers := es, activeThreadCount := S.activeThreadCount + 1 }).setWorker w
        { W with ft := some e, pc := .dispatch }) := by
    have hpc' : (s.workers w).pc = .top := by rw [h.worker, hpc]
    rw [runStep_top hpc']
    simp only [State.dequeue, h.schedOf, htake, h.worker, h.here.1]
  have hstands : ∀ a kb', Stands s w code a kb' → Stands ((s.setSched i
      { S with fibers := es, activeThreadCount := S.activeThreadCount + 1 }).setWorker w
        { W with ft := some e, pc := .dispatch }) w code a kb' :=
    fun a kb' hst => ⟨hst.task, hst.code, hst.thread, hst.mainOnly, hst.entryFunc⟩
  refine ⟨_, hrun, hstands e kb hhead, h.run ho hrun ?_ ?_ rfl ?_⟩
  · simp
  · simp
  · exact htail.imp hstands

/-- The taken entry's task is entered, in its fiber or in `func_fiber`. -/
theorem enter (h : Alone u i w s code q W S) (ho : S.owner = .called) (hpc : W.pc = .dispatch)
    (hft : W.ft = some e) (hst : Stands s w code e (k, b)) :
    ∃ s' W' v f, s.runStep w = some s' ∧ Alone u i w s' code q W' S ∧
      W'.pc = .exec v f .enter ∧ W'.idle = W.idle ∧ Carrying s' code f k b := by
  have hpc' : (s.workers w).pc = .dispatch := by rw [h.worker, hpc]
  have hft' : (s.workers w).ft = some e := by rw [h.worker, hft]
  obtain ⟨job, t, stray⟩ := e
  cases job with
  | fiber f kt =>
    obtain ⟨k', rfl, hfunc, hended, -⟩ := (h.books.ledger.visit w).dispatch hpc' hft'
    obtain rfl : k' = k := Option.some.inj hst.task
    have hrun : s.runStep w = some (s.setWorker w (W.goto (.exec .ft f .enter))) := by
      rw [runStep_dispatch hpc']
      simp only [State.dispatch, h.worker, hft, hended]
      rfl
    refine ⟨_, W.goto (.exec .ft f .enter), .ft, f, hrun, h.run_same ho hrun (by simp) h.sched rfl,
      rfl, rfl, hfunc, hst.code, hst.mainOnly, hst.entryFunc f rfl⟩
  | func k' =>
    obtain rfl : k' = k := Option.some.inj hst.task
    cases hff : W.funcFiber with
    | some f =>
      have hspare : (s.fibers f).state = .init := by
        have hok := h.books.excl.ok w
        unfold WorkerOk at hok
        rw [hpc'] at hok
        have hf : (s.workers w).funcFiber = some f := by rw [h.worker, hff]
        exact (hok.1 f hf).1
      have hreset : (s.fibers f).reset (some k') = some (Fiber.construct (some k') false) :=
        Fiber.reset_eq_some_iff.mpr ⟨.inr (.inr hspare), rfl⟩
      have hrun : s.runStep w = some ((s.setFiber f (Fiber.construct (some k') false)).setWorker w
          { W with ft := none, pc := .exec .func f .enter }) := by
        rw [runStep_dispatch hpc']
        simp only [State.dispatch, h.worker, hft, hff, hreset]
        rfl
      refine ⟨_, { W with ft := none, pc := .exec .func f .enter }, .func, f, hrun,
        h.run_same ho hrun (by simp) h.sched rfl, rfl, rfl, ?_, hst.code, hst.mainOnly, ?_⟩
      · simp [Fiber.construct]
      · simp [Fiber.construct]
    | none =>
      have hrun : s.runStep w = some (({ s.setFiber s.nextFiber (Fiber.construct (some k') false) with
          nextFiber := s.nextFiber + 1 }).setWorker w
        { W with
          ft := none, funcFiber := some s.nextFiber, pc := .exec .func s.nextFiber .enter }) := by
        rw [runStep_dispatch hpc']
        simp only [State.dispatch, h.worker, hft, hff]
      refine ⟨_, { W with
          ft := none, funcFiber := some s.nextFiber, pc := .exec .func s.nextFiber .enter },
        .func, s.nextFiber, hrun, h.run_same ho hrun (by simp) h.sched rfl, rfl, rfl, ?_, hst.code,
        hst.mainOnly, ?_⟩
      · simp [Fiber.construct]
      · simp [Fiber.construct]

/-- The first `swapIn()` or a later one: the task's next segment begins. -/
theorem begin (h : Alone u i w d.state d.code q W S) (ho : S.owner = .called)
    (hpc : W.pc = .exec v f .enter) (hc : Carrying d.state d.code f k b) :
    ∃ d', d.drive i w = some d' ∧ d'.trace = d.trace ++ [(k, b)] ∧
      Alone u i w d'.state d'.code q (W.goto (.exec v f .running)) S ∧
      Carrying d'.state d'.code f k b := by
  have hpc' : (d.state.workers w).pc = .exec v f .enter := by rw [h.worker, hpc]
  obtain ⟨hrest, hended⟩ := (h.books.excl.ok w).stage hpc'
  have hfin := hrest.ctx_ne_finished hended
  -- the ledger notes the first segment only
  have hgo : ∃ s', d.state.runStep w = some s' ∧ s'.workers w = W.goto (.exec v f .running) ∧
      s'.scheds i = S ∧ s'.fibers f = (d.state.fibers f).resume := by
    rw [runStep_exec hpc']
    cases hctx : (d.state.fibers f).ctx with
    | finished => exact absurd hctx hfin
    | suspended sw =>
      refine ⟨_, by simp only [State.handle, State.swapIn, hctx]; rfl, ?_, ?_, ?_⟩
      · simp [h.worker]
      · exact h.sched
      · simp
    | entry =>
      refine ⟨_, by simp only [State.handle, State.swapIn, hctx, hc.func]; rfl, ?_, ?_, ?_⟩
      · simp [h.worker]
      · exact h.sched
      · simp
  obtain ⟨s', hrun, hW, hS, hF⟩ := hgo
  have hnote : d.note w s' (.run w) =
      { d with state := s', trace := d.trace ++ [(k, b)] } := by
    have htask : d.state.taskOn w = some k := by
      unfold State.taskOn
      rw [hpc']
      exact hc.func
    unfold Driven.note
    simp only [hpc', htask, hc.code, Option.map_some, Option.toList_some]
  have hrunning : ∀ v' f', W.pc ≠ .exec v' f' .running := by
    intro v' f'
    rw [hpc]
    simp
  refine ⟨_, (h.drive_run ho hrunning hrun).trans (congrArg some hnote), rfl,
    h.run_same ho hrun hW hS rfl, ?_⟩
  refine ⟨?_, hc.code, hc.mainOnly, ?_⟩
  · show (s'.fibers f).func = some k
    rw [hF]
    exact hc.func
  · show (s'.fibers f).entryFunc = .mainFunc
    rw [hF]
    exact hc.entryFunc

/-! ### The body of the running task -/

theorem drive_body (h : Alone u i w d.state d.code q W S) (ho : S.owner = .called)
    (hpc : W.pc = .exec v f .running) (hc : Carrying d.state d.code f k b)
    (hs : step d.state (.body w (b.action i w)) = some s') :
    d.drive i w = some { d with state := s', code := d.after k } := by
  have hpc' : (d.state.workers w).pc = .exec v f .running := by rw [h.worker, hpc]
  have htask : d.state.taskOn w = some k := by
    unfold State.taskOn
    rw [hpc']
    exact hc.func
  have hnext : d.next i w = some (.body w (b.action i w)) := by
    unfold Driven.next
    simp only [h.sched, ho, hpc', htask, hc.code, Option.map_some]
  unfold Driven.drive
  rw [hnext, Option.bind_some, hs]
  simp only [Option.map_some, Driven.note, htask]

theorem step_body (h : Alone u i w s code q W S) (ho : S.owner = .called)
    (hpc : W.pc = .exec v f .running) (a : Action) : step s (.body w a) = s.bodyMove w v f a := by
  have hpc' : (s.workers w).pc = .exec v f .running := by rw [h.worker, hpc]
  show (if s.onCpu w then s.bodyStep w a else none) = _
  rw [if_pos (h.onCpu ho)]
  simp only [State.bodyStep, hpc']

/-- A waiting entry's task is accepted, and nobody has it. -/
theorem task_waits (h : Alone u i w s code q W S) (he : e ∈ S.fibers) (hk : e.task = some k) :
    k < s.nextTask ∧ ∀ w', s.holdsTask w' ≠ some k := by
  obtain ⟨k', hk'⟩ := h.books.ledger.queued (h.mem_queue he)
  obtain rfl : k' = k := Option.some.inj (hk'.task.symm.trans hk)
  exact ⟨h.books.ledger.fresh hk'.isOpen.1, hk'.unheld⟩

/-- What is left of the running task's body concerns no entry. -/
theorem recode (h : Alone u i w s code q W S) (hk : s.holdsTask w = some k) (b : Body) :
    Alone u i w s (Function.update code k b) q W S := by
  refine ⟨h.reach, h.others, h.switchers, h.tasks, h.next, ?_, h.worker, h.sched, h.here⟩
  refine forall₂_imp_of_mem h.queue fun e he kb hst => ?_
  have hne : kb.1 ≠ k := by
    rintro rfl
    exact (h.task_waits he hst.task).2 w hk
  refine ⟨hst.task, ?_, hst.thread, hst.mainOnly, hst.entryFunc⟩
  rw [Function.update_of_ne hne]
  exact hst.code

/-- `schedule()` of a fresh task appends it to both queues. -/
theorem accept (h : Alone u i w s code q W S) {sp : Spawn} {t : Int}
    (hr : Reach step (fun _ l => l.plain) u.init (s.accept i sp t)) (hsp : sp ≠ .fiber true)
    (ht : t = -1 ∨ t = (w : Int)) (hb : b.mainOnly = true) :
    Alone u i w (s.accept i sp t) (Function.update code s.nextTask b) (q.append b) W
      { S with fibers := S.fibers ++ [acceptEntry s sp t] } := by
  have hbooks : Books (s.accept i sp t) := Books.reach hr
  refine ⟨hr, ?_, ?_, ?_, ?_, ?_, ?_, ?_, h.here⟩
  · intro w' hw'
    rw [accept_workers]
    exact h.others w' hw'
  · intro f
    rw [accept_switchers]
    exact h.switchers f
  · intro k hk
    rw [accept_nextTask] at hk
    rw [accept_tasks]
    by_cases hkn : k = s.nextTask
    · subst hkn
      rw [Function.update_self]
      exact ⟨rfl, rfl⟩
    · rw [Function.update_of_ne hkn]
      exact h.tasks k (by omega)
  · rw [accept_nextTask, h.next]
    rfl
  · refine List.rel_append ?_ (.cons ?_ .nil)
    · refine forall₂_imp_of_mem h.queue fun e he kb hst => ?_
      have hlt := (h.task_waits he hst.task).1
      refine ⟨hst.task, ?_, hst.thread, hst.mainOnly, fun f hf => ?_⟩
      · rw [Function.update_of_ne (Nat.ne_of_lt hlt)]
        exact hst.code
      · have hflt : f < s.nextFiber := h.books.excl.queued i e (h.mem_queue he) f hf
        rw [accept_fibers _ _ _ _ (Nat.ne_of_lt hflt)]
        exact hst.entryFunc f hf
    · have hcode : Function.update code s.nextTask b q.next = b := by
        rw [← h.next, Function.update_self]
      cases sp with
      | func =>
        exact ⟨congrArg some h.next, hcode, ht, hb, fun f hf => by cases hf⟩
      | fiber uc =>
        have huc : uc = false := by
          cases uc with
          | false => rfl
          | true => exact absurd rfl hsp
        refine ⟨congrArg some h.next, hcode, ht, hb, fun f hf => ?_⟩
        obtain rfl : s.nextFiber = f := Option.some.inj hf
        rw [accept_fiber_new, huc]
        rfl
  · rw [accept_workers]
    exact h.worker
  · rw [accept_scheds, accept_queue, if_pos rfl, h.queue_eq, h.sched]

/-- The running body yields, returns or throws. -/
theorem leaveBody (h : Alone u i w s code q W S) (ho : S.owner = .called)
    (hpc : W.pc = .exec v f .running) {s₀ : State} {F : SFiber} {a : Action} (ha : a.plain = true)
    (hs : s.bodyMove w v f a = some (s₀.leaveBody w v f F c)) (hfib : s₀.fibers = s.fibers)
    (hw : s₀.workers = s.workers) (hsched : s₀.scheds = s.scheds)
    (hsw : s₀.switchers = s.switchers) (hn : s₀.nextTask = s.nextTask)
    (ht : ∀ k, (s₀.tasks k).accepted = (s.tasks k).accepted ∧ (s₀.tasks k).home = (s.tasks k).home) :
    Alone u i w (s₀.leaveBody w v f F c) code q (W.goto (.exec v f (.leaving c))) S := by
  have howns : (s.workers w).Owns f := by
    rw [h.worker]
    exact owns_exec hpc
  refine ⟨.move h.reach (l := .body w a) ha ((h.step_body ho hpc a).trans hs), ?_, ?_, ?_, ?_, ?_, ?_,
    ?_, h.here⟩
  · intro w' hw'
    simp only [State.leaveBody, State.setWorker_workers, State.setFiber_workers, hw,
      Function.update_of_ne hw']
    exact h.others w' hw'
  · intro g
    show s₀.switchers g = []
    rw [hsw]
    exact h.switchers g
  · intro k hk
    have hk' : k < s₀.nextTask := hk
    rw [hn] at hk'
    show (s₀.tasks k).accepted = true ∧ (s₀.tasks k).home = i
    rw [(ht k).1, (ht k).2]
    exact h.tasks k hk'
  · show s₀.nextTask = q.next
    rw [hn]
    exact h.next
  · refine forall₂_imp_of_mem h.queue fun e he kb hst => ?_
    refine ⟨hst.task, hst.code, hst.thread, hst.mainOnly, fun g hg => ?_⟩
    have hgf : g ≠ f := by
      rintro rfl
      exact h.not_owns he hg w howns
    show (Function.update s₀.fibers f F g).entryFunc = .mainFunc
    rw [Function.update_of_ne hgf, hfib]
    exact hst.entryFunc g hg
  · simp [State.leaveBody, hw, h.worker]
  · show s₀.scheds i = S
    rw [hsched]
    exact h.sched

end Alone

/-- How a segment ends: the fiber's context `c` will continue in the rest of the body, and the task
comes behind the queue `q` again; or the body has ended. -/
inductive Leaves (s : State) (code : TaskId → Body) (f : FiberId) (k : TaskId) (q q' : RoundRobin) :
    FCtx → Prop
  | yielded {rest : Body} :
      Carrying s code f k rest → q' = ⟨q.tasks ++ [(k, rest)], q.next⟩ →
      Leaves s code f k q q' (.suspended none)
  | ended : (s.fibers f).entryFunc = .mainFunc → q' = q → Leaves s code f k q q' .finished

theorem Leaves.congr {f : FiberId} {k : TaskId} {q q' : RoundRobin} {c : FCtx}
    (h : Leaves s code f k q q' c) (hfunc : (s'.fibers f).func = (s.fibers f).func)
    (hentry : (s'.fibers f).entryFunc = (s.fibers f).entryFunc) : Leaves s' code f k q q' c := by
  cases h with
  | yielded hc hq =>
    exact .yielded ⟨hfunc.trans hc.func, hc.code, hc.mainOnly, hentry.trans hc.entryFunc⟩ hq
  | ended he hq => exact .ended (hentry.trans he) hq

theorem Leaves.entryFunc {f : FiberId} {k : TaskId} {q q' : RoundRobin} {c : FCtx}
    (h : Leaves s code f k q q' c) : (s.fibers f).entryFunc = .mainFunc := by
  cases h with
  | yielded hc _ => exact hc.entryFunc
  | ended he _ => exact he

namespace Alone

variable {q q' : RoundRobin} {W W' : Worker} {S S' : Sched} {d : Driven} {k : TaskId} {b : Body}
  {v : Via} {f : FiberId} {c : FCtx}

/-! ### The end of a segment -/

theorem yield (h : Alone u i w d.state d.code q W S) (ho : S.owner = .called)
    (hpc : W.pc = .exec v f .running) {rest : Body} {st : FiberState}
    (hc : Carrying d.state d.code f k b) (hb : b.action i w = .yieldToReady ∧ st = .ready ∨
      b.action i w = .yieldToHold ∧ st = .hold)
    (hafter : d.after k = Function.update d.code k rest) (hrest : rest.mainOnly = true) :
    ∃ d', d.drive i w = some d' ∧ d'.trace = d.trace ∧
      Alone u i w d'.state d'.code q (W.goto (.exec v f (.leaving (.suspended none)))) S ∧
      Carrying d'.state d'.code f k rest := by
  have hpc' : (d.state.workers w).pc = .exec v f .running := by rw [h.worker, hpc]
  have hx : (d.state.fibers f).state = .exec := ((h.books.excl.ok w).stage hpc').1
  have hyield : (d.state.fibers f).yieldTo st = some { d.state.fibers f with state := st } := by
    unfold Fiber.yieldTo
    rw [if_pos hx]
  have hmove : d.state.bodyMove w v f (b.action i w) = some
      (d.state.leaveBody w v f { d.state.fibers f with state := st } (.suspended none)) := by
    rcases hb with ⟨ha, rfl⟩ | ⟨ha, rfl⟩ <;> rw [ha] <;> simp only [State.bodyMove, hyield] <;> rfl
  have hplain : (b.action i w).plain = true := by
    rcases hb with ⟨ha, -⟩ | ⟨ha, -⟩ <;> rw [ha] <;> rfl
  have hholds : d.state.holdsTask w = some k := by
    rw [holdsTask_exec hpc']
    exact hc.func
  have hcode := h.recode hholds rest
  refine ⟨_, h.drive_body ho hpc hc ((h.step_body ho hpc _).trans hmove), rfl, ?_, ?_⟩
  · rw [hafter]
    exact hcode.leaveBody ho hpc hplain hmove rfl rfl rfl rfl rfl fun _ => ⟨rfl, rfl⟩
  · rw [hafter]
    refine ⟨?_, Function.update_self _ _ _, hrest, ?_⟩
    · simpa [State.leaveBody] using hc.func
    · simpa [State.leaveBody] using hc.entryFunc

theorem finish (h : Alone u i w d.state d.code q W S) (ho : S.owner = .called)
    (hpc : W.pc = .exec v f .running) (hc : Carrying d.state d.code f k b) {F : SFiber}
    (hplain : (b.action i w).plain = true) (hafter : d.after k = d.code)
    (hmove : d.state.bodyMove w v f (b.action i w) =
      some ((d.state.finishTask f).leaveBody w v f F .finished))
    (hF : F.entryFunc = (d.state.fibers f).entryFunc) :
    ∃ d', d.drive i w = some d' ∧ d'.trace = d.trace ∧
      Alone u i w d'.state d'.code q (W.goto (.exec v f (.leaving .finished))) S ∧
      (d'.state.fibers f).entryFunc = .mainFunc := by
  have hsched : (d.state.finishTask f).scheds = d.state.scheds := by
    unfold State.finishTask
    split <;> rfl
  have hsw : (d.state.finishTask f).switchers = d.state.switchers := by
    unfold State.finishTask
    split <;> rfl
  refine ⟨_, h.drive_body ho hpc hc ((h.step_body ho hpc _).trans hmove), rfl, ?_, ?_⟩
  · rw [hafter]
    refine h.leaveBody ho hpc hplain hmove (finishTask_fibers _ _) (finishTask_workers _ _) hsched hsw
      (finishTask_nextTask _ _) fun k' => ?_
    obtain ⟨hacc, hhome, -⟩ := finishTask_task d.state f k'
    exact ⟨hacc, hhome⟩
  · simp [State.leaveBody, hF, hc.entryFunc]

/-- **The body runs to the end of its segment**: what it schedules goes behind the queue. -/
theorem body (h : Alone u i w d.state d.code q W S) (ho : S.owner = .called)
    (hpc : W.pc = .exec v f .running) (hc : Carrying d.state d.code f k b) :
    ∃ d' q' es c, Driven.Drives i w d d' ∧ d'.trace = d.trace ∧
      Alone u i w d'.state d'.code q' (W.goto (.exec v f (.leaving c))) { S with fibers := es } ∧
      Leaves d'.state d'.code f k q' (q.segment k b) c := by
  have hpc' : (d.state.workers w).pc = .exec v f .running := by rw [h.worker, hpc]
  have hcode : d.code k = b := hc.code
  induction b generalizing d q S with
  | schedule sp here task rest _ ih =>
    have honly : sp ≠ .fiber true ∧ task.mainOnly = true ∧ rest.mainOnly = true := by
      have hm := hc.mainOnly
      simpa [Body.mainOnly] using hm
    have hlt : f < d.state.nextFiber := h.books.excl.bound (owns_exec hpc')
    have hholds : d.state.holdsTask w = some k := by
      rw [holdsTask_exec hpc']
      exact hc.func
    have hstep : step d.state (.body w (Body.action i w (.schedule sp here task rest))) =
        some (d.state.accept i sp (if here then (w : Int) else -1)) := h.step_body ho hpc _
    have ht : (if here then (w : Int) else -1) = -1 ∨ (if here then (w : Int) else -1) = (w : Int) := by
      cases here <;> simp
    have hd := h.drive_body ho hpc hc hstep
    have hafter : d.after k =
        Function.update (Function.update d.code k rest) d.state.nextTask task := by
      unfold Driven.after
      rw [hcode]
    have hk : k ≠ d.state.nextTask :=
      Nat.ne_of_lt (h.books.ledger.fresh (h.books.ledger.held hholds).1)
    have h' := (h.recode hholds rest).accept (.move h.reach rfl hstep) honly.1 ht honly.2.1
    rw [← hafter] at h'
    have hfib : (d.state.accept i sp (if here then (w : Int) else -1)).fibers f = d.state.fibers f :=
      accept_fibers _ _ _ _ (Nat.ne_of_lt hlt)
    have hrest : (d.after k) k = rest := by
      rw [hafter, Function.update_of_ne hk, Function.update_self]
    have hc' : Carrying (d.state.accept i sp (if here then (w : Int) else -1)) (d.after k) f k rest := by
      refine ⟨?_, hrest, honly.2.2, ?_⟩
      · rw [hfib]
        exact hc.func
      · rw [hfib]
        exact hc.entryFunc
    obtain ⟨d', q', es, c, hdr, htr, hA, hL⟩ := ih
      (d := { d with state := d.state.accept i sp _, code := d.after k }) h' ho hc'
      (h'.worker ▸ hpc) hrest
    refine ⟨d', q', es, c, .head hd hdr, htr, hA, ?_⟩
    rw [RoundRobin.segment_schedule]
    exact hL
  | yieldToReady rest =>
    have hafter : d.after k = Function.update d.code k rest := by
      unfold Driven.after
      rw [hcode]
    obtain ⟨d', hd, htr, hA, hC⟩ := h.yield ho hpc hc (.inl ⟨rfl, rfl⟩) hafter hc.mainOnly
    refine ⟨d', q, S.fibers, _, .single hd, htr, hA, .yielded hC ?_⟩
    rw [RoundRobin.segment_yieldToReady]
  | yieldToHold rest =>
    have hafter : d.after k = Function.update d.code k rest := by
      unfold Driven.after
      rw [hcode]
    obtain ⟨d', hd, htr, hA, hC⟩ := h.yield ho hpc hc (.inr ⟨rfl, rfl⟩) hafter hc.mainOnly
    refine ⟨d', q, S.fibers, _, .single hd, htr, hA, .yielded hC ?_⟩
    rw [RoundRobin.segment_yieldToHold]
  | ret =>
    have hafter : d.after k = d.code := by
      unfold Driven.after
      rw [hcode]
    have hmove : d.state.bodyMove w v f .ret =
        some ((d.state.finishTask f).leaveBody w v f (d.state.fibers f).returned .finished) := by
      simp only [State.bodyMove, h.switchers f, if_true]
    obtain ⟨d', hd, htr, hA, he⟩ := h.finish ho hpc hc rfl hafter hmove rfl
    refine ⟨d', q, S.fibers, _, .single hd, htr, hA, .ended he ?_⟩
    rw [RoundRobin.segment_ret]
  | throw =>
    have hafter : d.after k = d.code := by
      unfold Driven.after
      rw [hcode]
    have hmove : d.state.bodyMove w v f .throw =
        some ((d.state.finishTask f).leaveBody w v f (d.state.fibers f).threw .finished) := by
      simp only [State.bodyMove, h.switchers f, if_true]
    obtain ⟨d', hd, htr, hA, he⟩ := h.finish ho hpc hc rfl hafter hmove rfl
    refine ⟨d', q, S.fibers, _, .single hd, htr, hA, .ended he ?_⟩
    rw [RoundRobin.segment_throw]

/-! ### Back in `run()` -/

/-- An access that begins no segment and leaves the queue alone. -/
theorem silent (h : Alone u i w d.state d.code q W S) (W' : Worker) (S' : Sched)
    (ho : S.owner = .called)
    (hpc : ∀ v f, W.pc ≠ .exec v f .running ∧ W.pc ≠ .exec v f .enter)
    (hs : d.state.runStep w = some s') (hW : s'.workers w = W') (hS : s'.scheds i = S')
    (hf : S'.fibers = S.fibers) :
    ∃ d', d.drive i w = some d' ∧ d'.trace = d.trace ∧ d'.state = s' ∧ d'.code = d.code ∧
      Alone u i w d'.state d'.code q W' S' :=
  ⟨_, h.drive_silent ho hpc hs, rfl, rfl, rfl, h.run_same ho hs hW hS hf⟩

theorem silent_exec {W : Worker} {st : Stage} (hpc : W.pc = .exec v f st) (hr : st ≠ .running)
    (hn : st ≠ .enter) : ∀ v f, W.pc ≠ .exec v f .running ∧ W.pc ≠ .exec v f .enter := by
  intro v' f'
  rw [hpc]
  constructor
  · intro heq
    cases heq
    exact hr rfl
  · intro heq
    cases heq
    exact hn rfl

/-- `swapcontext` saves the fiber and comes back to `run()`. -/
theorem save (h : Alone u i w d.state d.code q W S) (ho : S.owner = .called)
    (hpc : W.pc = .exec v f (.leaving c)) (hL : Leaves d.state d.code f k q q' c) :
    ∃ d', d.drive i w = some d' ∧ d'.trace = d.trace ∧
      Alone u i w d'.state d'.code q (W.goto (.exec v f (.dec c))) S ∧
      Leaves d'.state d'.code f k q q' c := by
  have hpc' : (d.state.workers w).pc = .exec v f (.leaving c) := by rw [h.worker, hpc]
  have hback : ¬(c = .finished ∧ (d.state.fibers f).entryFunc = .callerMainFunc ∧
      (d.state.workers w).root) := by
    rintro ⟨-, he, -⟩
    rw [hL.entryFunc] at he
    cases he
  have hrun : d.state.runStep w = some ((d.state.setFiber f ((d.state.fibers f).save c)).setWorker w
      ((d.state.workers w).goto (.exec v f (.dec c)))) := by
    rw [runStep_exec hpc']
    show some (d.state.swapOut w v f c) = _
    unfold State.swapOut
    rw [if_neg hback]
  obtain ⟨d', hd, htr, hst, hcode, h'⟩ := h.silent (W.goto (.exec v f (.dec c))) S ho
    (silent_exec hpc (by simp) (by simp)) hrun (by simp [h.worker]) h.sched rfl
  refine ⟨d', hd, htr, h', ?_⟩
  rw [hst, hcode]
  refine hL.congr ?_ ?_
  · simp [Fiber.save]
  · simp [Fiber.save]

/-- `--m_activeThreadCount`. -/
theorem decr (h : Alone u i w d.state d.code q W S) (ho : S.owner = .called)
    (hpc : W.pc = .exec v f (.dec c)) (hL : Leaves d.state d.code f k q q' c) :
    ∃ d', d.drive i w = some d' ∧ d'.trace = d.trace ∧
      Alone u i w d'.state d'.code q (W.goto (.exec v f (.after c)))
        { S with activeThreadCount := S.activeThreadCount - 1 } ∧
      Leaves d'.state d'.code f k q q' c := by
  have hpc' : (d.state.workers w).pc = .exec v f (.dec c) := by rw [h.worker, hpc]
  have hrun : d.state.runStep w = some (d.state.decActive w (.exec v f (.after c))) :=
    runStep_exec hpc'
  obtain ⟨d', hd, htr, hst, hcode, h'⟩ := h.silent (W.goto (.exec v f (.after c)))
    { S with activeThreadCount := S.activeThreadCount - 1 } ho
    (silent_exec hpc (by simp) (by simp)) hrun (by simp [State.decActive, h.worker])
    (by simp [State.decActive, h.schedOf, h.worker, h.here.1]) rfl
  refine ⟨d', hd, htr, h', ?_⟩
  rw [hst, hcode]
  exact hL.congr rfl rfl

/-- A yielded fiber goes behind the queue. -/
theorem requeue (h : Alone u i w d.state d.code q W S) (ho : S.owner = .called)
    (hpc : W.pc = .exec v f (.requeue (.suspended none))) {rest : Body}
    (hc : Carrying d.state d.code f k rest) :
    ∃ d' W', d.drive i w = some d' ∧ d'.trace = d.trace ∧
      Alone u i w d'.state d'.code ⟨q.tasks ++ [(k, rest)], q.next⟩ W'
        { S with fibers := S.fibers ++ [⟨.fiber f (some k), -1, false⟩] } ∧
      W'.pc = .top ∧ W'.idle = W.idle := by
  have hpc' : (d.state.workers w).pc = .exec v f (.requeue (.suspended none)) := by
    rw [h.worker, hpc]
  have hrun : d.state.runStep w = some (d.state.requeue w v f (.suspended none)) :=
    runStep_exec hpc'
  obtain ⟨W', hW', hpcW, hidle⟩ : ∃ W', (d.state.requeue w v f (.suspended none)).workers w = W' ∧
      W'.pc = .top ∧ W'.idle = W.idle := by
    refine ⟨_, rfl, ?_, ?_⟩
    · cases v <;> simp [State.requeue]
    · cases v <;> simp [State.requeue, h.worker]
  have hS : (d.state.requeue w v f (.suspended none)).scheds i =
      { S with fibers := S.fibers ++ [⟨.fiber f (some k), -1, false⟩] } := by
    have hpush : (d.state.requeue w v f (.suspended none)).scheds i = (d.state.push W.sched
        ⟨.fiber f (d.state.fibers f).func, -1, false⟩).scheds i := by
      unfold State.requeue
      rw [h.worker]
      rfl
    rw [hpush, h.here.1, State.push_scheds_self, h.sched, hc.func]
  refine ⟨_, W', h.drive_silent ho (silent_exec hpc (by simp) (by simp)) hrun, rfl,
    h.run ho hrun hW' hS rfl ?_, hpcW, hidle⟩
  refine List.rel_append ?_ (.cons ?_ .nil)
  · exact forall₂_imp_of_mem h.queue fun e he kb hst => h.stands hrun he hst
  · refine ⟨rfl, hc.code, .inl rfl, hc.mainOnly, fun g hg => ?_⟩
    obtain rfl : f = g := Option.some.inj hg
    exact hc.entryFunc

/-- What `run()` reads of the fiber sends it back to the head of the loop. -/
theorem settle (h : Alone u i w d.state d.code q W S) (ho : S.owner = .called)
    (hpc : W.pc = .exec v f (.after c)) (hL : Leaves d.state d.code f k q q' c) :
    ∃ d' W' es, Driven.Drives i w d d' ∧ d'.trace = d.trace ∧
      Alone u i w d'.state d'.code q' W' { S with fibers := es } ∧ W'.pc = .top ∧
      W'.idle = W.idle := by
  have hpc' : (d.state.workers w).pc = .exec v f (.after c) := by rw [h.worker, hpc]
  obtain ⟨hend, -, -⟩ := (h.books.excl.ok w).stage hpc'
  have hsil := silent_exec hpc (by simp) (by simp)
  cases hL with
  | @yielded rest hc hq =>
    have hyielded : (d.state.fibers f).state.yielded = true := hend
    have hrun : d.state.runStep w = some (d.state.setWorker w
        (W.goto (.exec v f (.requeue (.suspended none))))) := by
      rw [runStep_exec hpc']
      simp only [State.handle, State.readState, hyielded, if_true, h.worker]
    obtain ⟨d₁, hd₁, htr₁, hst, hcode, h₁⟩ := h.silent
      (W.goto (.exec v f (.requeue (.suspended none)))) S ho hsil hrun (by simp) h.sched rfl
    have hc₁ : Carrying d₁.state d₁.code f k rest := by
      rw [hst, hcode]
      exact ⟨hc.func, hc.code, hc.mainOnly, hc.entryFunc⟩
    obtain ⟨d₂, W₂, hd₂, htr₂, h₂, hpc₂, hidle₂⟩ := h₁.requeue ho rfl hc₁
    rw [hq]
    exact ⟨d₂, W₂, _, .head hd₁ (.single hd₂), htr₂.trans htr₁, h₂, hpc₂, hidle₂⟩
  | ended he hq =>
    subst hq
    have hended : (d.state.fibers f).state.ended = true := hend
    have hyielded : (d.state.fibers f).state.yielded = false := by
      cases hst : (d.state.fibers f).state <;> rw [hst] at hended <;> first | rfl | cases hended
    cases v with
    | ft =>
      have hrun : d.state.runStep w = some (d.state.setWorker w { W with ft := none, pc := .top }) := by
        rw [runStep_exec hpc']
        simp [State.handle, State.readState, hyielded, hended, h.worker]
      obtain ⟨d', hd, htr, -, -, h'⟩ := h.silent { W with ft := none, pc := .top } S ho hsil hrun
        (by simp) h.sched rfl
      exact ⟨d', _, S.fibers, .single hd, htr, h', rfl, rfl⟩
    | func =>
      have hreset : (d.state.fibers f).reset none = some (Fiber.construct none false) := by
        rw [Fiber.reset_eq_some_iff]
        rcases FiberState.ended_iff.mp hended with ht | hx
        · exact ⟨.inl ht, rfl⟩
        · exact ⟨.inr (.inl hx), rfl⟩
      have hrun : d.state.runStep w = some ((d.state.setFiber f (Fiber.construct none false)).setWorker
          w (W.goto .top)) := by
        rw [runStep_exec hpc']
        simp [State.handle, State.readState, hyielded, hended, hreset, h.worker]
      obtain ⟨d', hd, htr, -, -, h'⟩ := h.silent (W.goto .top) S ho hsil hrun (by simp) h.sched rfl
      exact ⟨d', _, S.fibers, .single hd, htr, h', rfl, rfl⟩

/-! ### One turn of the loop -/

/-- **One turn of the loop is one step of the machine**: the head's segment, and nothing else. -/
theorem turn (h : Alone u i w d.state d.code q W S) (ho : S.owner = .called) (hpc : W.pc = .top)
    {rest : List Segment} (hq : q.tasks = (k, b) :: rest) :
    ∃ d' W' es, Driven.Drives i w d d' ∧ d'.trace = d.trace ++ [(k, b)] ∧
      Alone u i w d'.state d'.code (RoundRobin.segment ⟨rest, q.next⟩ k b) W'
        { S with fibers := es } ∧ W'.pc = .top ∧ W'.idle = W.idle := by
  obtain ⟨e, es, hes⟩ : ∃ e es, S.fibers = e :: es := by
    have hqueue := h.queue
    rw [hq] at hqueue
    obtain ⟨e, es, -, -, hes⟩ := List.forall₂_cons_right_iff.mp hqueue
    exact ⟨e, es, hes⟩
  -- the entry is taken, and its fiber entered
  obtain ⟨s₁, hrun₁, hst₁, h₁⟩ := h.take ho hpc hes hq
  have hd₁ := h.drive_silent ho (by simp [hpc]) hrun₁
  obtain ⟨s₂, W₂, v, f, hrun₂, h₂, hpc₂, hidle₂, hc₂⟩ := h₁.enter ho rfl rfl hst₁
  have hd₂ := Alone.drive_silent (d := { d with state := s₁ }) h₁ ho (by simp) hrun₂
  -- the segment
  obtain ⟨d₃, hd₃, htr₃, h₃, hc₃⟩ := Alone.begin (d := { d with state := s₂ }) h₂ ho hpc₂ hc₂
  obtain ⟨d₄, q₄, es₄, c, hd₄, htr₄, h₄, hL₄⟩ := h₃.body ho rfl hc₃
  -- and what `run()` does after it
  obtain ⟨d₅, hd₅, htr₅, h₅, hL₅⟩ := h₄.save ho rfl hL₄
  obtain ⟨d₆, hd₆, htr₆, h₆, hL₆⟩ := h₅.decr ho rfl hL₅
  obtain ⟨d₇, W₇, es₇, hd₇, htr₇, h₇, hpc₇, hidle₇⟩ := h₆.settle ho rfl hL₆
  refine ⟨d₇, W₇, es₇, .head hd₁ (.head hd₂ (.head hd₃ (hd₄.trans (.head hd₅ (.head hd₆ hd₇))))), ?_,
    h₇, hpc₇, ?_⟩
  · rw [htr₇, htr₆, htr₅, htr₄, htr₃]
  · rw [hidle₇]
    exact hidle₂

/-- **The loop runs the machine's segments**, until the queue is empty. -/
theorem turns (h : Alone u i w d.state d.code q W S) (ho : S.owner = .called) (hpc : W.pc = .top) :
    ∃ d' q' W' S', Driven.Drives i w d d' ∧ d'.trace = d.trace ++ q.trace ∧
      Alone u i w d'.state d'.code q' W' S' ∧ S' = { S with fibers := [] } ∧ W'.pc = .top ∧
      W'.idle = W.idle := by
  induction hn : q.size using Nat.strongRecOn generalizing d q W S with
  | ind n ih =>
    cases hq : q.tasks with
    | nil =>
      have hes : S.fibers = [] := by
        have hqueue := h.queue
        rw [hq] at hqueue
        exact List.forall₂_nil_right_iff.mp hqueue
      refine ⟨d, q, W, S, .refl, ?_, h, ?_, hpc, rfl⟩
      · rw [RoundRobin.trace_nil hq, List.append_nil]
      · rw [← hes]
    | cons kb rest =>
      obtain ⟨k, b⟩ := kb
      obtain ⟨d₁, W₁, es₁, hd₁, htr₁, h₁, hpc₁, hidle₁⟩ := h.turn ho hpc hq
      have hlt : (RoundRobin.segment ⟨rest, q.next⟩ k b).size < n := by
        have hseg := RoundRobin.size_segment ⟨rest, q.next⟩ k b
        have hsize : q.size = b.size + RoundRobin.size ⟨rest, q.next⟩ := by
          simp [RoundRobin.size, hq]
        omega
      obtain ⟨d₂, q₂, W₂, S₂, hd₂, htr₂, h₂, hS₂, hpc₂, hidle₂⟩ := ih _ hlt h₁ ho hpc₁ rfl
      refine ⟨d₂, q₂, W₂, S₂, hd₁.trans hd₂, ?_, h₂, hS₂, hpc₂, hidle₂.trans hidle₁⟩
      rw [htr₂, htr₁, RoundRobin.trace_cons hq, List.append_assoc]
      rfl

/-! ### The idle fiber, and the end of `run()` -/

/-- Nothing is in the queue. -/
theorem noEntry (h : Alone u i w d.state d.code q W S) (ho : S.owner = .called) (hpc : W.pc = .top)
    (hes : S.fibers = []) :
    ∃ d', d.drive i w = some d' ∧ d'.trace = d.trace ∧
      Alone u i w d'.state d'.code q { W with ft := none, pc := .dispatch } S := by
  have hpc' : (d.state.workers w).pc = .top := by rw [h.worker, hpc]
  have hrun : d.state.runStep w =
      some (d.state.setWorker w { W with ft := none, pc := .dispatch }) := by
    rw [runStep_top hpc']
    simp only [State.dequeue, h.schedOf, hes, takeFirst, h.worker]
  obtain ⟨d', hd, htr, -, -, h'⟩ := h.silent { W with ft := none, pc := .dispatch } S ho
    (by simp [hpc]) hrun (by simp) h.sched rfl
  exact ⟨d', hd, htr, h'⟩

/-- **The idle fiber finds the scheduler stopping**, and ends. -/
theorem idle (h : Alone u i w d.state d.code q W S) (ho : S.owner = .called)
    (hpc : W.pc = .dispatch) (hft : W.ft = none) (hidle : W.idle ≠ .term) (hes : S.fibers = [])
    (hstop : S.autoStop = true ∧ S.stopping = true) (hact : S.activeThreadCount = 0) :
    ∃ d', Driven.Drives i w d d' ∧ d'.trace = d.trace ∧
      Alone u i w d'.state d'.code q { W with idle := .term, pc := .top } S := by
  have hpc₀ : (d.state.workers w).pc = .dispatch := by rw [h.worker, hpc]
  have hrun₁ : d.state.runStep w = some (d.state.setWorker w (W.goto .idleInc)) := by
    rw [runStep_dispatch hpc₀]
    simp only [State.dispatch, h.worker, hft, if_neg hidle]
  obtain ⟨d₁, hd₁, htr₁, -, -, h₁⟩ := h.silent (W.goto .idleInc) S ho (by simp [hpc]) hrun₁
    (by simp) h.sched rfl
  -- `++m_idleThreadCount`
  have hrun₂ : d₁.state.runStep w = some ((d₁.state.setSched i
      { S with idleThreadCount := S.idleThreadCount + 1 }).setWorker w (W.goto .idleIn)) := by
    simp only [State.runStep, h₁.schedOf, h₁.worker, Worker.goto_sched, h.here.1]
    rfl
  obtain ⟨d₂, hd₂, htr₂, -, -, h₂⟩ := h₁.silent (W.goto .idleIn)
    { S with idleThreadCount := S.idleThreadCount + 1 } ho (by simp) hrun₂ (by simp)
    (by simp) rfl
  -- `swapIn()`
  have hrun₃ : d₂.state.runStep w =
      some (d₂.state.setWorker w { W with idle := .exec, pc := .idleRun }) := by
    simp only [State.runStep, h₂.worker]
    rfl
  obtain ⟨d₃, hd₃, htr₃, -, -, h₃⟩ := h₂.silent { W with idle := .exec, pc := .idleRun }
    { S with idleThreadCount := S.idleThreadCount + 1 } ho
    (by simp) hrun₃ (by simp) h₂.sched rfl
  -- `stopping()`
  have hstopping : d₃.state.stopping i = true := by
    simp [State.stopping, h₃.queue_eq, h₃.sched, hes, hstop, hact]
  have hrun₄ : d₃.state.runStep w =
      some (d₃.state.setWorker w { W with idle := .term, pc := .idleDec }) := by
    simp only [State.runStep, h₃.worker, h.here.1, hstopping, if_true]
  obtain ⟨d₄, hd₄, htr₄, -, -, h₄⟩ := h₃.silent { W with idle := .term, pc := .idleDec }
    { S with idleThreadCount := S.idleThreadCount + 1 } ho
    (by simp) hrun₄ (by simp) h₃.sched rfl
  -- `--m_idleThreadCount`
  have hrun₅ : d₄.state.runStep w =
      some ((d₄.state.setSched i S).setWorker w { W with idle := .term, pc := .top }) := by
    simp only [State.runStep, h₄.schedOf, h₄.worker, h.here.1]
    rfl
  obtain ⟨d₅, hd₅, htr₅, -, -, h₅⟩ := h₄.silent { W with idle := .term, pc := .top } S ho
    (by simp) hrun₅ (by simp) (by simp) rfl
  refine ⟨d₅, .head hd₁ (.head hd₂ (.head hd₃ (.head hd₄ (.single hd₅)))), ?_, h₅⟩
  rw [htr₅, htr₄, htr₃, htr₂, htr₁]

/-- `run()` returns to `stop()`. -/
theorem leave (h : Alone u i w d.state d.code q W S) (ho : S.owner = .called)
    (hpc : W.pc = .dispatch) (hft : W.ft = none) (hidle : W.idle = .term) :
    ∃ d', d.drive i w = some d' ∧ d'.trace = d.trace ∧
      Alone u i w d'.state d'.code q (W.goto .left) { S with rootFiber := .term, owner := .swap } := by
  have hpc' : (d.state.workers w).pc = .dispatch := by rw [h.worker, hpc]
  have hrun : d.state.runStep w = some ((d.state.setWorker w (W.goto .left)).setSched i
      { S with rootFiber := .term, owner := .swap }) := by
    rw [runStep_dispatch hpc']
    simp only [State.dispatch, State.leave, h.worker, hft, hidle, if_true, h.schedOf, h.here.1,
      h.here.2]
  obtain ⟨d', hd, htr, -, -, h'⟩ := h.silent (W.goto .left)
    { S with rootFiber := .term, owner := .swap } ho (by simp [hpc]) hrun (by simp) (by simp)
    rfl
  exact ⟨d', hd, htr, h'⟩

/-- The scheduler's flags change, and its queue does not. -/
theorem setSched (h : Alone u i w s code q W S)
    (hr : Reach step (fun _ l => l.plain) u.init (s.setSched i S')) (hf : S'.fibers = S.fibers) :
    Alone u i w (s.setSched i S') code q W S' := by
  refine ⟨hr, h.others, h.switchers, h.tasks, h.next, ?_, h.worker, ?_, h.here⟩
  · rw [hf]
    exact h.queue.imp fun e kb hst => ⟨hst.task, hst.code, hst.thread, hst.mainOnly, hst.entryFunc⟩
  · simp

/-- A move of `stop()`. -/
theorem owner (h : Alone u i w d.state d.code q W S) (hu : S.owner ≠ .user)
    (hc : S.owner ≠ .called) (hs : d.state.ownerStep i = some (d.state.setSched i S'))
    (hf : S'.fibers = S.fibers) :
    ∃ d', d.drive i w = some d' ∧ d'.trace = d.trace ∧
      Alone u i w d'.state d'.code q W S' := by
  have hnext : d.next i w = some (.owner i) := by
    unfold Driven.next
    rw [h.sched]
    split
    · rename_i ho
      exact absurd ho hu
    · rename_i ho
      exact absurd ho hc
    · rfl
  have hstep : step d.state (.owner i) = some (d.state.setSched i S') := hs
  refine ⟨{ d with state := d.state.setSched i S' }, ?_, rfl, h.setSched (.move h.reach rfl hstep) hf⟩
  unfold Driven.drive
  rw [hnext, Option.bind_some, hstep]
  rfl

/-- `stop()` returns: it has no threads to join. -/
theorem join (h : Alone u i w d.state d.code q W S) (ho : S.owner = .swap) (hth : S.threads = []) :
    ∃ d', Driven.Drives i w d d' ∧ d'.trace = d.trace ∧
      Alone u i w d'.state d'.code q W { S with threads := [], owner := .user } := by
  have hs₁ : d.state.ownerStep i =
      some (d.state.setSched i { S with threads := [], owner := .join [] }) := by
    simp only [State.ownerStep, h.sched, ho, hth]
  obtain ⟨d₁, hd₁, htr₁, h₁⟩ := h.owner (by simp [ho]) (by simp [ho]) hs₁ rfl
  have hs₂ : d₁.state.ownerStep i =
      some (d₁.state.setSched i { S with threads := [], owner := .user }) := by
    simp [State.ownerStep, h₁.sched]
  obtain ⟨d₂, hd₂, htr₂, h₂⟩ := h₁.owner (by simp) (by simp) hs₂ rfl
  exact ⟨d₂, .head hd₁ (.single hd₂), htr₂.trans htr₁, h₂⟩

/-- What the relation says when `stop()` has returned. -/
theorem finished (h : Alone u i w s code q W S) (ho : S.owner = .user) (hpc : W.pc = .left)
    (hidle : W.idle = .term) (hes : S.fibers = []) (hact : S.activeThreadCount = 0)
    (hid : S.idleThreadCount = 0) : Finished s i w := by
  have hheld : ∀ w', s.holdsTask w' = none := by
    intro w'
    by_cases hw : w' = w
    · subst hw
      simp [State.holdsTask, h.worker, hpc]
    · unfold State.holdsTask
      rw [h.others w' hw]
      rcases init_workers u w' with hi | ⟨j, hi⟩ <;> rw [hi] <;> rfl
  refine ⟨?_, ?_, ?_, ?_, ?_, ?_, ?_, ?_⟩
  · rw [h.sched, ho]
  · rw [h.worker, hpc]
  · rw [h.queue_eq, hes]
  · rw [h.sched, hact]
  · rw [h.sched, hid]
  · intro k hk
    obtain ⟨hacc, hhome⟩ := h.tasks k hk
    refine ⟨hacc, ?_⟩
    by_contra hne
    rcases h.books.ledger.cover hacc (by simpa using hne) with ⟨e, he, -⟩ | ⟨w', hw'⟩
    · rw [hhome, h.queue_eq, hes] at he
      cases he
    · rw [hheld w'] at hw'
      cases hw'
  · rw [h.worker, hidle]
  · intro f hf
    have hok := h.books.excl.ok w
    unfold WorkerOk at hok
    have hpc' : (s.workers w).pc = .left := by rw [h.worker, hpc]
    rw [hpc'] at hok
    exact (hok f hf).1

/-! ### From the constructor into `run()` -/

theorem init (hroot : u.rootOf w = some i) :
    Alone u i w u.init (fun _ => .ret) ⟨[], 0⟩ (Worker.fresh i true)
      (Sched.construct (u.config i)) := by
  have hworker : u.init.workers w = Worker.fresh i true := by
    simp only [Setup.init, hroot]
  exact ⟨.refl, fun _ _ => rfl, fun _ => rfl, fun k hk => absurd hk (Nat.not_lt_zero k), rfl, .nil,
    hworker, rfl, rfl, rfl⟩

/-- One task is handed over. -/
theorem hand (h : Alone u i w d.state d.code q W S) {t : Handed} (ht : t.mainOnly = true) :
    ∃ es, Alone u i w (d.hand i w t).state (d.hand i w t).code (q.append t.body) W
      { S with fibers := es } := by
  have honly : t.sp ≠ .fiber true ∧ t.body.mainOnly = true := by simpa [Handed.mainOnly] using ht
  have hthread : (if t.here then (w : Int) else -1) = -1 ∨
      (if t.here then (w : Int) else -1) = (w : Int) := by
    cases t.here <;> simp
  have hstep : step d.state (.schedule i t.sp (if t.here then (w : Int) else -1)) =
      some (d.state.accept i t.sp (if t.here then (w : Int) else -1)) := rfl
  exact ⟨_, h.accept (.move h.reach rfl hstep) honly.1 hthread honly.2⟩

/-- All of them are, in order. -/
theorem handAll (h : Alone u i w d.state d.code q W S) {hs : List Handed}
    (hall : ∀ t ∈ hs, t.mainOnly = true) :
    ∃ es, Alone u i w (hs.foldl (Driven.hand i w) d).state (hs.foldl (Driven.hand i w) d).code
      ⟨q.tasks ++ RoundRobin.name q.next (hs.map Handed.body), q.next + hs.length⟩ W
      { S with fibers := es } := by
  induction hs generalizing d q S with
  | nil =>
    refine ⟨S.fibers, ?_⟩
    simpa [RoundRobin.name] using h
  | cons t hs ih =>
    obtain ⟨es, h₁⟩ := h.hand (hall t List.mem_cons_self)
    obtain ⟨es', h₂⟩ := ih h₁ fun t' ht' => hall t' (List.mem_cons_of_mem t ht')
    refine ⟨es', ?_⟩
    have hq : (⟨q.tasks ++ RoundRobin.name q.next ((t :: hs).map Handed.body),
        q.next + (t :: hs).length⟩ : RoundRobin) =
        ⟨(q.append t.body).tasks ++ RoundRobin.name (q.append t.body).next (hs.map Handed.body),
          (q.append t.body).next + hs.length⟩ := by
      simp only [RoundRobin.append, List.map_cons, RoundRobin.name, List.append_assoc,
        List.cons_append, List.nil_append, List.length_cons, RoundRobin.mk.injEq, true_and]
      exact Nat.add_right_comm q.next _ 1
    rw [hq]
    exact h₂

theorem not_stopping (h : Alone u i w s code q W S) (hes : S.fibers ≠ []) :
    s.stopping i = false := by
  have hempty : S.fibers.isEmpty = false := by simpa using hes
  simp [State.stopping, h.queue_eq, hempty]

/-- `stop()` goes through its checks and calls the root fiber. -/
theorem callRoot (h : Alone u i w d.state d.code q W S) (ho : S.owner = .check1)
    (hroot : S.rootThread.isSome = true) (hinit : S.rootFiber = .init) (hes : S.fibers ≠ []) :
    ∃ d', Driven.Drives i w d d' ∧ d'.trace = d.trace ∧
      Alone u i w d'.state d'.code q W
        { S with stopping := true, rootFiber := .exec, owner := .called } := by
  have hs₁ : d.state.ownerStep i = some (d.state.setSched i { S with owner := .setStopping }) := by
    have hstop := h.not_stopping hes
    simp [State.ownerStep, h.sched, ho, hstop]
  obtain ⟨d₁, hd₁, htr₁, h₁⟩ := h.owner (by simp [ho]) (by simp [ho]) hs₁ rfl
  have hs₂ : d₁.state.ownerStep i =
      some (d₁.state.setSched i { S with stopping := true, owner := .check2 }) := by
    simp [State.ownerStep, h₁.sched, hroot]
  obtain ⟨d₂, hd₂, htr₂, h₂⟩ := h₁.owner (by simp) (by simp) hs₂ rfl
  have hs₃ : d₂.state.ownerStep i =
      some (d₂.state.setSched i { S with stopping := true, owner := .call }) := by
    have hstop := h₂.not_stopping hes
    simp [State.ownerStep, h₂.sched, hstop]
  obtain ⟨d₃, hd₃, htr₃, h₃⟩ := h₂.owner (by simp) (by simp) hs₃ rfl
  have hs₄ : d₃.state.ownerStep i = some (d₃.state.setSched i
      { S with stopping := true, rootFiber := .exec, owner := .called }) := by
    simp [State.ownerStep, h₃.sched, hinit, FiberState.ended]
  obtain ⟨d₄, hd₄, htr₄, h₄⟩ := h₃.owner (by simp) (by simp) hs₄ rfl
  refine ⟨d₄, .head hd₁ (.head hd₂ (.head hd₃ (.single hd₄))), ?_, h₄⟩
  rw [htr₄, htr₃, htr₂, htr₁]

end Alone

theorem handAll_trace (d : Driven) (hs : List Handed) :
    (hs.foldl (Driven.hand i w) d).trace = d.trace := by
  induction hs generalizing d with
  | nil => rfl
  | cons t hs ih => exact ih (d.hand i w t)

theorem handed_alone (hroot : u.rootOf w = some i) {hs : List Handed}
    (hall : ∀ t ∈ hs, t.mainOnly = true) :
    ∃ es, Alone u i w (Driven.handed i w u hs).state (Driven.handed i w u hs).code
      (RoundRobin.load hs) (Worker.fresh i true)
      { Sched.construct (u.config i) with fibers := es } := by
  obtain ⟨es, h⟩ := (Alone.init hroot).handAll (d := ⟨u.init, fun _ => .ret, []⟩) hall
  have hq : (⟨[] ++ RoundRobin.name 0 (hs.map Handed.body), 0 + hs.length⟩ : RoundRobin) =
      RoundRobin.load hs := by
    rw [List.nil_append, Nat.zero_add]
    rfl
  rw [hq] at h
  exact ⟨es, h⟩

/-- The tasks are handed over, and `stop()` is in its first check. -/
theorem boot_alone (hroot : u.rootOf w = some i) (hthreads : (u.config i).threads = 1)
    {hs : List Handed} (hall : ∀ t ∈ hs, t.mainOnly = true) :
    ∃ d es, Driven.boot i w u hs = some d ∧ d.trace = [] ∧
      Alone u i w d.state d.code (RoundRobin.load hs) (Worker.fresh i true)
        { Sched.construct (u.config i) with
          fibers := es, autoStop := true, stopping := true, owner := .check1 } := by
  obtain ⟨es, h⟩ := handed_alone hroot hall
  have hrt : (u.config i).rootThread = some w := (u.rootOf_iff w i).mp hroot
  have hstop : step (Driven.handed i w u hs).state (.stop i) =
      some ((Driven.handed i w u hs).state.setSched i
        { Sched.construct (u.config i) with
          fibers := es, autoStop := true, stopping := true, owner := .check1 }) := by
    show State.stop _ i = _
    unfold State.stop
    simp [h.sched, Sched.construct, hrt, hthreads]
  refine ⟨_, es, congrArg (Option.map _) hstop, handAll_trace _ hs,
    h.setSched (.move h.reach rfl hstop) rfl⟩

/-- **A scheduler with one thread is a round-robin queue**: the thread that constructed it hands over
tasks and calls `stop()`.  It executes the machine's segments in the machine's order, and then
`run()` and `stop()` return with nothing left over. -/
theorem round_robin (hroot : u.rootOf w = some i) (hthreads : (u.config i).threads = 1)
    {hs : List Handed} (hne : hs ≠ []) (hall : ∀ t ∈ hs, t.mainOnly = true) :
    RefinesRoundRobin u i w hs := by
  obtain ⟨d₀, es, hboot, htr₀, h₀⟩ := boot_alone hroot hthreads hall
  have hrt : (u.config i).rootThread = some w := (u.rootOf_iff w i).mp hroot
  have hes : es ≠ [] := by
    rintro rfl
    have hq := List.forall₂_nil_left_iff.mp h₀.queue
    obtain ⟨t, hs', rfl⟩ := List.exists_cons_of_ne_nil hne
    cases hq
  -- `stop()` calls the root fiber, and `run()` works the queue off
  obtain ⟨d₁, hd₁, htr₁, h₁⟩ := h₀.callRoot rfl (by simp [Sched.construct, hrt]) rfl hes
  obtain ⟨d₂, q₂, W₂, S₂, hd₂, htr₂, h₂, rfl, hpc₂, hidle₂⟩ := h₁.turns rfl rfl
  -- the idle fiber ends, and `run()` with it
  obtain ⟨d₃, hd₃, htr₃, h₃⟩ := h₂.noEntry rfl hpc₂ rfl
  obtain ⟨d₄, hd₄, htr₄, h₄⟩ := h₃.idle rfl rfl rfl (by simp [hidle₂, Worker.fresh]) rfl ⟨rfl, rfl⟩ rfl
  obtain ⟨d₅, hd₅, htr₅, h₅⟩ := h₄.noEntry rfl rfl rfl
  obtain ⟨d₆, hd₆, htr₆, h₆⟩ := h₅.leave rfl rfl rfl rfl
  obtain ⟨d₇, hd₇, htr₇, h₇⟩ := h₆.join rfl rfl
  refine ⟨d₀, d₇, hboot, ?_, ?_, ?_, h₇.finished rfl rfl rfl rfl rfl rfl⟩
  · exact hd₁.trans (hd₂.trans (.head hd₃ (hd₄.trans (.head hd₅ (.head hd₆ hd₇)))))
  · simp [Driven.drive, Driven.next, h₇.sched]
  · rw [htr₇, htr₆, htr₅, htr₄, htr₃, htr₂, htr₁, htr₀, List.nil_append]

/-- A function that schedules a fiber, yields and returns, and a fiber that yields and throws. -/
theorem round_robin_two :
    RefinesRoundRobin (Setup.caller 1 (by decide) true false) 0 0
      [⟨.func, false, .schedule (.fiber false) true .ret (.yieldToHold .ret)⟩,
        ⟨.fiber false, false, .yieldToReady .throw⟩] :=
  round_robin rfl rfl (by simp) (by decide)

theorem drives_of_runs {d d' : Driven} {n : Nat}
    (h : runs (fun d (_ : Unit) => d.drive i w) d (List.replicate n ()) = some d') :
    Driven.Drives i w d d' := by
  induction n generalizing d with
  | zero =>
    obtain rfl : d = d' := Option.some.inj h
    exact .refl
  | succ n ih =>
    obtain ⟨d₁, hd₁, hrest⟩ := Option.bind_eq_some_iff.mp h
    exact .head hd₁ (ih hrest)

/-- There is one run, so it has one end. -/
theorem drives_unique {d d₁ d₂ : Driven} (h₁ : Driven.Drives i w d d₁)
    (h₂ : Driven.Drives i w d d₂) (e₁ : d₁.drive i w = none) (e₂ : d₂.drive i w = none) :
    d₁ = d₂ := by
  have hunique : Relator.RightUnique fun d d' : Driven => d.drive i w = some d' := by
    intro a b c hb hc
    exact Option.some.inj (hb.symm.trans hc)
  have hend : ∀ {a b : Driven}, Driven.Drives i w a b → a.drive i w = none → a = b := by
    intro a b hab ha
    rcases hab.cases_head with rfl | ⟨c, hc, -⟩
    · rfl
    · rw [ha] at hc
      cases hc
  rcases Relation.ReflTransGen.total_of_right_unique hunique h₁ h₂ with h | h
  · exact hend h e₁
  · exact (hend h e₂).symm

/-- A fiber built with `use_caller` ends in `back()`, which goes to `stop()`: `run()` never returns. -/
theorem not_round_robin :
    ¬∀ (u : Setup) (i : SchedId) (w : ThreadId) (hs : List Handed), u.rootOf w = some i →
      (u.config i).threads = 1 → hs ≠ [] → RefinesRoundRobin u i w hs := by
  intro hall
  obtain ⟨d₀, d, hboot, hd, hend, -, hfin⟩ := hall (Setup.caller 1 (by decide) true false) 0 0
    [⟨.fiber true, false, .ret⟩] rfl rfl (by simp)
  have hrun : ((Driven.boot 0 0 (Setup.caller 1 (by decide) true false)
      [⟨.fiber true, false, .ret⟩]).bind fun d => runs (fun d (_ : Unit) => d.drive 0 0) d
        (List.replicate 11 ())).any (fun d => (d.drive 0 0).isNone && (d.state.workers 0).pc != .left) =
        true := by
    decide +kernel
  rw [hboot, Option.bind_some] at hrun
  obtain ⟨d₁, hd₁, hc⟩ := exists_of_runs _ _ _ _ hrun
  simp only [Bool.and_eq_true, Option.isNone_iff_eq_none, bne_iff_ne] at hc
  obtain rfl := drives_unique hd (drives_of_runs hd₁) hend hc.1
  exact hc.2 hfin.run

end LioNet.Scheduler
