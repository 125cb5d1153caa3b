import LioNet.Lib.Transition
import LioNet.Scheduler.State

/-!
# One step of a process with schedulers

`step s l` is the move that label `l` names.  `run w` is the next shared access of worker `w`'s
`run()` (`scheduler.cc`, lines 117 to 217); `body w a` is the next thing the task on worker `w`
does; the other labels are calls from outside and the owner's progress through `stop()`.  A task
body is arbitrary code, so which action it takes is a choice of the label, never of the model.

`none` means that the move is not possible in this state; a failed assertion ends a thread that way.
-/

namespace LioNet.Scheduler

open LioNet.Lib

/-- What is handed to `schedule()` for the first time: a function, or an INIT fiber. -/
inductive Spawn
  | func
  | fiber (useCaller : Bool)
  deriving DecidableEq, Repr

/-- What a task body can do. -/
inductive Action
  | schedule (i : SchedId) (sp : Spawn) (t : Int)
  | scheduleAll (i : SchedId) (sps : List Spawn)
  /-- `schedule(Fiber::GetThis(), t)` -/
  | scheduleSelf (i : SchedId) (t : Int)
  | switchTo (i : SchedId) (t : Int)
  /-- constructs a `SchedulerSwitcher(target)` on the stack -/
  | switcher (target : Option SchedId)
  /-- destroys the innermost `SchedulerSwitcher` -/
  | unswitch
  | yieldToReady
  | yieldToHold
  | ret
  | throw
  deriving DecidableEq, Repr

inductive Label
  | run (w : ThreadId)
  | body (w : ThreadId) (a : Action)
  /-- `schedule()` from outside the tasks -/
  | schedule (i : SchedId) (sp : Spawn) (t : Int)
  | scheduleAll (i : SchedId) (sps : List Spawn)
  /-- `schedule()` from outside with the handle of an existing fiber -/
  | reschedule (i : SchedId) (f : FiberId) (t : Int)
  /-- the owner calls `start()`; the operating system names the threads -/
  | start (i : SchedId) (ws : List ThreadId)
  /-- the owner calls `stop()` -/
  | stop (i : SchedId)
  /-- the next access of the owner inside `stop()` -/
  | owner (i : SchedId)
  deriving DecidableEq, Repr

/-- The task only computes, yields, ends, or schedules fresh tasks. -/
def Action.plain : Action → Bool
  | .schedule .. | .scheduleAll .. | .yieldToReady | .yieldToHold | .ret | .throw => true
  | .scheduleSelf .. | .switchTo .. | .switcher .. | .unswitch => false

/-- The task calls `switchTo`, itself or through a `SchedulerSwitcher`. -/
def Action.switches : Action → Bool
  | .switchTo .. | .switcher .. | .unswitch => true
  | _ => false

theorem Action.not_plain {a : Action} (h : a.switches = true) : ¬a.plain = true := by
  cases a with
  | switchTo | switcher | unswitch => exact Bool.false_ne_true
  | _ => cases h

/-- Fresh tasks from outside, plain tasks inside. -/
def Label.plain : Label → Bool
  | .body _ a => a.plain
  | .reschedule .. => false
  | _ => true

def Worker.goto (W : Worker) (pc : Pc) : Worker := { W with pc := pc }

section Goto

variable (W : Worker) (pc : Pc)

@[simp] theorem Worker.goto_pc : (W.goto pc).pc = pc := rfl
@[simp] theorem Worker.goto_sched : (W.goto pc).sched = W.sched := rfl
@[simp] theorem Worker.goto_root : (W.goto pc).root = W.root := rfl
@[simp] theorem Worker.goto_ft : (W.goto pc).ft = W.ft := rfl
@[simp] theorem Worker.goto_funcFiber : (W.goto pc).funcFiber = W.funcFiber := rfl
@[simp] theorem Worker.goto_idle : (W.goto pc).idle = W.idle := rfl

end Goto

namespace State

/-! ### `schedule()` -/

/-- `schedule()` of a fresh task: `scheduleNonLock` under the lock, and the ledger's new line. -/
def accept (s : State) (i : SchedId) (sp : Spawn) (t : Int) : State :=
  let k := s.nextTask
  let s' : State := { s.setTask k ⟨true, i, t, 0, false⟩ with nextTask := k + 1 }
  match sp with
  | .func => s'.push i ⟨.func k, t, false⟩
  | .fiber uc =>
    let f := s.nextFiber
    State.push { s'.setFiber f (Fiber.construct (some k) uc) with nextFiber := f + 1 }
      i ⟨.fiber f (some k), t, false⟩

/-- `schedule(begin, end)`: every element under one lock, bound to no thread. -/
def acceptAll (s : State) (i : SchedId) (sps : List Spawn) : State :=
  sps.foldl (fun s sp => s.accept i sp (-1)) s

/-! ### The task bodies -/

/-- Line 139 and 145: whether the loop over `m_fibers` stops at this entry. -/
def takes (s : State) (w : ThreadId) (e : Entry) : Bool :=
  (e.thread == -1 || e.thread == (w : Int)) &&
    match e.job with
    | .fiber f _ => (s.fibers f).state != .exec
    | .func _ => true

/-- The ledger notes that the body of the function in fiber `f` has returned or thrown. -/
def finishTask (s : State) (f : FiberId) : State :=
  match (s.fibers f).func with
  | some k => s.setTask k { s.tasks k with ended := true }
  | none => s

/-- The ledger notes that the function in fiber `f` moves to scheduler `i`. -/
def rehome (s : State) (f : FiberId) (i : SchedId) : State :=
  match (s.fibers f).func with
  | some k => s.setTask k { s.tasks k with home := i }
  | none => s

/-- `Scheduler::switchTo` up to the call of `YieldToHold`. -/
def switchTo (s : State) (w : ThreadId) (v : Via) (f : FiberId) (i : SchedId) (t : Int) : State :=
  if (s.workers w).sched = i ∧ (t = -1 ∨ t = (w : Int)) then s
  else
    ((s.rehome f i).push i ⟨.fiber f (s.fibers f).func, t, false⟩).setWorker w
      ((s.workers w).goto (.exec v f (.switching ⟨i, t⟩)))

/-- The fiber's state is written, and `swapOut`/`back` comes next. -/
def leaveBody (s : State) (w : ThreadId) (v : Via) (f : FiberId) (F : SFiber) (c : FCtx) : State :=
  (s.setFiber f F).setWorker w ((s.workers w).goto (.exec v f (.leaving c)))

def bodyMove (s : State) (w : ThreadId) (v : Via) (f : FiberId) : Action → Option State
  | .schedule i sp t => some (s.accept i sp t)
  | .scheduleAll i sps => some (s.acceptAll i sps)
  | .scheduleSelf i t => some (s.push i ⟨.fiber f (s.fibers f).func, t, true⟩)
  | .switchTo i t => some (s.switchTo w v f i t)
  | .switcher target =>
    let s' := s.setSwitchers f ((s.workers w).sched :: s.switchers f)
    match target with
    | some i => some (s'.switchTo w v f i (-1))
    | none => some s'
  | .unswitch =>
    match s.switchers f with
    | [] => none
    | c :: cs => some ((s.setSwitchers f cs).switchTo w v f c (-1))
  | .yieldToReady =>
    ((s.fibers f).yieldTo .ready).map fun F => s.leaveBody w v f F (.suspended none)
  | .yieldToHold =>
    ((s.fibers f).yieldTo .hold).map fun F => s.leaveBody w v f F (.suspended none)
  -- the stack is unwound first: no `SchedulerSwitcher` outlives the body
  | .ret =>
    if s.switchers f = [] then
      some ((s.finishTask f).leaveBody w v f (s.fibers f).returned .finished)
    else none
  | .throw =>
    if s.switchers f = [] then
      some ((s.finishTask f).leaveBody w v f (s.fibers f).threw .finished)
    else none

def bodyStep (s : State) (w : ThreadId) (a : Action) : Option State :=
  match (s.workers w).pc with
  | .exec v f .running => s.bodyMove w v f a
  | _ => none

/-! ### `Scheduler::run` -/

/-- `Scheduler::stopping`, under the lock. -/
def stopping (s : State) (i : SchedId) : Bool :=
  (s.scheds i).autoStop && (s.scheds i).stopping && (s.queue i).isEmpty &&
    (s.scheds i).activeThreadCount == 0

/-- `--m_activeThreadCount`, and on to `pc`. -/
def decActive (s : State) (w : ThreadId) (pc : Pc) : State :=
  (s.setSched (s.workers w).sched
    { s.schedOf w with activeThreadCount := (s.schedOf w).activeThreadCount - 1 }).setWorker w
    ((s.workers w).goto pc)

/-- Lines 135 to 157: the critical section. -/
def dequeue (s : State) (w : ThreadId) : State :=
  match takeFirst (s.takes w) (s.schedOf w).fibers with
  | some (e, q) =>
    (s.setSched (s.workers w).sched
      { s.schedOf w with fibers := q, activeThreadCount := (s.schedOf w).activeThreadCount + 1 }
      ).setWorker w { s.workers w with ft := some e, pc := .dispatch }
  | none => s.setWorker w { s.workers w with ft := none, pc := .dispatch }

/-- `run()` returns.  In the root fiber that ends `CallerMainFunc`, whose `back()` returns to the
owner's `stop()`. -/
def leave (s : State) (w : ThreadId) : State :=
  let s' := s.setWorker w ((s.workers w).goto .left)
  if (s.workers w).root then
    s'.setSched (s.workers w).sched { s.schedOf w with rootFiber := .term, owner := .swap }
  else s'

section Leave

variable (s : State) (w : ThreadId)

/-- Besides its worker, `leave` writes to one scheduler at most, and keeps its `m_fibers`. -/
theorem leave_eq :
    s.leave w = s.setWorker w ((s.workers w).goto .left) ∨
      ∃ S, S.fibers = s.queue (s.workers w).sched ∧
        s.leave w = (s.setWorker w ((s.workers w).goto .left)).setSched (s.workers w).sched S := by
  unfold leave
  dsimp only
  split
  · exact .inr ⟨{ s.schedOf w with rootFiber := .term, owner := .swap }, rfl, rfl⟩
  · exact .inl rfl

@[simp] theorem leave_workers :
    (s.leave w).workers = Function.update s.workers w ((s.workers w).goto .left) := by
  rcases leave_eq s w with h | ⟨S, -, h⟩ <;> rw [h] <;> rfl

@[simp] theorem leave_fibers : (s.leave w).fibers = s.fibers := by
  rcases leave_eq s w with h | ⟨S, -, h⟩ <;> rw [h] <;> rfl

@[simp] theorem leave_nextFiber : (s.leave w).nextFiber = s.nextFiber := by
  rcases leave_eq s w with h | ⟨S, -, h⟩ <;> rw [h] <;> rfl

@[simp] theorem leave_switchers : (s.leave w).switchers = s.switchers := by
  rcases leave_eq s w with h | ⟨S, -, h⟩ <;> rw [h] <;> rfl

@[simp] theorem leave_tasks : (s.leave w).tasks = s.tasks := by
  rcases leave_eq s w with h | ⟨S, -, h⟩ <;> rw [h] <;> rfl

@[simp] theorem leave_nextTask : (s.leave w).nextTask = s.nextTask := by
  rcases leave_eq s w with h | ⟨S, -, h⟩ <;> rw [h] <;> rfl

@[simp] theorem leave_queue : (s.leave w).queue = s.queue := by
  rcases leave_eq s w with h | ⟨S, hS, h⟩ <;> rw [h]
  · rfl
  · exact setSched_queue_eq _ _ _ hS

end Leave

/-- Lines 163, 176 to 182, 197 to 206: what to do with `ft`. -/
def dispatch (s : State) (w : ThreadId) : Option State :=
  let W := s.workers w
  match W.ft with
  | some ⟨.fiber f _, _, _⟩ =>
    if (s.fibers f).state.ended then some (s.setWorker w (W.goto .drop))
    else some (s.setWorker w (W.goto (.exec .ft f .enter)))
  | some ⟨.func k, _, _⟩ =>
    match W.funcFiber with
    | some f =>
      ((s.fibers f).reset (some k)).map fun F =>
        (s.setFiber f F).setWorker w { W with ft := none, pc := .exec .func f .enter }
    | none =>
      let f := s.nextFiber
      some (({ s.setFiber f (Fiber.construct (some k) false) with nextFiber := f + 1 }).setWorker w
        { W with ft := none, funcFiber := some f, pc := .exec .func f .enter })
  | none =>
    if W.idle = .term then some (s.leave w) else some (s.setWorker w (W.goto .idleInc))

/-- `Fiber::swapIn`: control continues where the fiber's context says. -/
def swapIn (s : State) (w : ThreadId) (v : Via) (f : FiberId) : Option State :=
  let F := s.fibers f
  let W := s.workers w
  match F.ctx with
  | .entry =>
    match F.func with
    | some k =>
      some (((s.setTask k { s.tasks k with started := (s.tasks k).started + 1 }).setFiber f
        F.resume).setWorker w (W.goto (.exec v f .running)))
    -- the empty `m_func` throws `std::bad_function_call`
    | none => some (s.leaveBody w v f F.resume.threw .finished)
  | .suspended _ => some ((s.setFiber f F.resume).setWorker w (W.goto (.exec v f .running)))
  -- "never reach"
  | .finished => none

/-- The `swapcontext` of `swapOut`, or of `back` at the end of `CallerMainFunc`.  The first loads
`t_scheduler_fiber`, which is the fiber that executes `run()`.  The second loads `t_threadFiber`:
the same on a worker thread, but the owner's `stop()` on the root thread. -/
def swapOut (s : State) (w : ThreadId) (v : Via) (f : FiberId) (c : FCtx) : State :=
  let s' := (s.setFiber f ((s.fibers f).save c)).setWorker w
    ((s.workers w).goto (.exec v f (.dec c)))
  if c = .finished ∧ (s.fibers f).entryFunc = .callerMainFunc ∧ (s.workers w).root then
    s'.setSched (s.workers w).sched { s.schedOf w with owner := .swap }
  else s'

/-- Lines 168 to 175 and 186 to 196, up to the call of `schedule()`. -/
def readState (s : State) (w : ThreadId) (v : Via) (f : FiberId) (c : FCtx) : Option State :=
  let F := s.fibers f
  let W := s.workers w
  if F.state.yielded then some (s.setWorker w (W.goto (.exec v f (.requeue c))))
  else
    match v, F.state.ended with
    | .ft, true => some (s.setWorker w { W with ft := none, pc := .top })
    | .ft, false =>
      some ((s.setFiber f { F with state := .hold }).setWorker w { W with ft := none, pc := .top })
    | .func, true => (F.reset none).map fun F' => (s.setFiber f F').setWorker w (W.goto .top)
    | .func, false =>
      some ((s.setFiber f { F with state := .hold }).setWorker w
        { W with funcFiber := none, pc := .top })

/-- `schedule(ft.fiber)` or `schedule(func_fiber)`, bound to no thread. -/
def requeue (s : State) (w : ThreadId) (v : Via) (f : FiberId) (c : FCtx) : State :=
  let W := s.workers w
  (s.push W.sched ⟨.fiber f (s.fibers f).func, -1, c != .suspended none⟩).setWorker w
    (match v with
     | .ft => { W with ft := none, pc := .top }
     | .func => { W with funcFiber := none, pc := .top })

def handle (s : State) (w : ThreadId) (v : Via) (f : FiberId) : Stage → Option State
  | .enter => s.swapIn w v f
  | .running => none
  | .switching sw =>
    ((s.fibers f).yieldTo .hold).map fun F => s.leaveBody w v f F (.suspended (some sw))
  | .leaving c => some (s.swapOut w v f c)
  | .dec c => some (s.decActive w (.exec v f (.after c)))
  | .after c => s.readState w v f c
  | .requeue c => some (s.requeue w v f c)

def runStep (s : State) (w : ThreadId) : Option State :=
  let W := s.workers w
  match W.pc with
  | .absent => none
  | .top => some (s.dequeue w)
  | .dispatch => s.dispatch w
  | .drop => some (s.decActive w .top)
  | .exec v f st => s.handle w v f st
  | .idleInc =>
    some ((s.setSched W.sched
      { s.schedOf w with idleThreadCount := (s.schedOf w).idleThreadCount + 1 }).setWorker w
      (W.goto .idleIn))
  | .idleIn => some (s.setWorker w { W with idle := .exec, pc := .idleRun })
  | .idleRun =>
    some (s.setWorker w
      { W with idle := if s.stopping W.sched then .term else .hold, pc := .idleDec })
  | .idleDec =>
    some ((s.setSched W.sched
      { s.schedOf w with idleThreadCount := (s.schedOf w).idleThreadCount - 1 }).setWorker w
      { W with idle := if W.idle.ended then W.idle else .hold, pc := .top })
  | .left => none

/-! ### `Scheduler::start` and `Scheduler::stop` -/

/-- `Scheduler::start`, one critical section.  `ws` are the new threads' ids. -/
def start (s : State) (i : SchedId) (ws : List ThreadId) : Option State :=
  let S := s.scheds i
  if S.owner ≠ .user then none
  else if S.stopping = false then some s
  else if S.threads = [] ∧ ws.length = S.threadCount ∧ ws.Nodup ∧
      ∀ w ∈ ws, (s.workers w).pc = .absent then
    some { s.setSched i { S with stopping := false, threads := ws, threadIds := S.threadIds ++ ws }
      with workers := fun w => if w ∈ ws then Worker.fresh i false else s.workers w }
  else none

/-- `Scheduler::stop` up to the first `stopping()` or line 87. -/
def stop (s : State) (i : SchedId) : Option State :=
  let S := s.scheds i
  if S.owner ≠ .user then none
  else if S.rootThread.isSome ∧ S.threadCount = 0 ∧ (S.rootFiber = .term ∨ S.rootFiber = .init) then
    some (s.setSched i { S with autoStop := true, stopping := true, owner := .check1 })
  else some (s.setSched i { S with autoStop := true, owner := .setStopping })

/-- The owner's progress through `stop()`. -/
def ownerStep (s : State) (i : SchedId) : Option State :=
  let S := s.scheds i
  match S.owner with
  | .user => none
  | .check1 =>
    some (s.setSched i { S with owner := if s.stopping i then .user else .setStopping })
  | .setStopping =>
    some (s.setSched i
      { S with stopping := true, owner := if S.rootThread.isSome then .check2 else .swap })
  | .check2 => some (s.setSched i { S with owner := if s.stopping i then .swap else .call })
  -- a root fiber past its end stands on the "never reach" line
  | .call =>
    if S.rootFiber.ended then none
    else some (s.setSched i { S with rootFiber := .exec, owner := .called })
  | .called => none
  | .swap => some (s.setSched i { S with threads := [], owner := .join S.threads })
  | .join thrs =>
    if ∀ w ∈ thrs, (s.workers w).pc = .left then some (s.setSched i { S with owner := .user })
    else none

end State

def step (s : State) : Label → Option State
  | .run w => if s.onCpu w then s.runStep w else none
  | .body w a => if s.onCpu w then s.bodyStep w a else none
  | .schedule i sp t => some (s.accept i sp t)
  | .scheduleAll i sps => some (s.acceptAll i sps)
  | .reschedule i f t =>
    if f < s.nextFiber then some (s.push i ⟨.fiber f (s.fibers f).func, t, true⟩) else none
  | .start i ws => s.start i ws
  | .stop i => s.stop i
  | .owner i => s.ownerStep i

/-- `n` moves of one worker in a row. -/
def runWorker (w : ThreadId) (n : Nat) : List Label := List.replicate n (.run w)

end LioNet.Scheduler
