import Mathlib.Data.List.Nodup
import Mathlib.Logic.Function.Basic
import LioNet.Fiber
import LioNet.Lib.TakeFirst

/-!
# The state of a process with schedulers

Any number of schedulers (`scheduler.h`), the threads that execute their `run()`, the fibers they
handle, and for each scheduler the thread that owns it (constructs it and calls `start`/`stop`).

A thread is named by its id, and no id is used twice in a run, so `LioNet::GetThreadId()` in worker
`w` is `w` itself; the source's `-1` stays `-1`.

The control point of a worker (`Pc`, `Stage`) names the next shared access of `run()`: a critical
section under `m_mutex`, the two halves of a context switch, an update of an atomic counter, or a
read or write of a fiber's state that other threads can see.  Between two of them only locals of the
thread change.

`Task` is a ledger beside the program: it says which function bodies were handed to `schedule()`,
where, and what became of them.  The program never reads it.  `tickle()` only logs and is left out.
-/

namespace LioNet.Scheduler

open LioNet.Lib

abbrev FiberId := Nat
abbrev TaskId := Nat
abbrev SchedId := Nat
abbrev ThreadId := Nat

/-- The arguments of a `switchTo` a fiber is inside of: the target scheduler and the thread. -/
structure Switch where
  target : SchedId
  thread : Int
  deriving DecidableEq, Repr

/-- Where a fiber's context continues: in a plain yield, or in the yield of a `switchTo`. -/
abbrev FCtx := Ctx (Option Switch)

abbrev SFiber := Fiber TaskId (Option Switch)

/-- `FiberAndThread::fiber` or `FiberAndThread::func`, whichever is set.  A fiber's second argument
is the task it was running when the entry was made; it is part of the ledger. -/
inductive Job
  | fiber (f : FiberId) (task : Option TaskId)
  | func (k : TaskId)
  deriving DecidableEq, Repr

def Job.task : Job → Option TaskId
  | .fiber _ k => k
  | .func k => some k

def Job.fiberId : Job → Option FiberId
  | .fiber f _ => some f
  | .func _ => none

/-- `FiberAndThread`.  `stray` marks (for the ledger) an entry beside the fiber's own one: `run()`
made it for a fiber whose segment did not end in a plain yield, or it is for the handle of a fiber
that had been scheduled already. -/
structure Entry where
  job : Job
  thread : Int
  stray : Bool
  deriving DecidableEq, Repr

def Entry.task (e : Entry) : Option TaskId := e.job.task

/-- Which branch of `run()` resumed the fiber: `ft.fiber` or `func_fiber`. -/
inductive Via
  | ft | func
  deriving DecidableEq, Repr

/-- Where a worker stands with the fiber it is handling. -/
inductive Stage
  /-- about to call `swapIn()` -/
  | enter
  /-- in the fiber's body -/
  | running
  /-- in `switchTo`, the entry is made and `YieldToHold` comes next -/
  | switching (sw : Switch)
  /-- the state is written, `swapcontext` comes next and will save `c` -/
  | leaving (c : FCtx)
  /-- `swapIn()` has returned, `--m_activeThreadCount` comes next -/
  | dec (c : FCtx)
  /-- the reads of the fiber's state come next -/
  | after (c : FCtx)
  /-- READY or HOLD was read, `schedule()` comes next -/
  | requeue (c : FCtx)
  deriving DecidableEq, Repr

/-- Where a thread stands in `run()`. -/
inductive Pc
  /-- not in `run()` yet -/
  | absent
  /-- at the head of the loop -/
  | top
  /-- after the critical section, with `ft` -/
  | dispatch
  /-- `ft` holds an ended fiber: `--m_activeThreadCount; continue` -/
  | drop
  /-- handling a fiber -/
  | exec (v : Via) (f : FiberId) (st : Stage)
  /-- `++m_idleThreadCount` comes next -/
  | idleInc
  /-- `idle_fiber->swapIn()` comes next -/
  | idleIn
  /-- in `idle()`, about to evaluate `stopping()` -/
  | idleRun
  /-- `--m_idleThreadCount` comes next -/
  | idleDec
  /-- `run()` has returned -/
  | left
  deriving DecidableEq, Repr

/-- A thread and the locals of its `run()`.  `root` says that `run()` executes in `m_rootFiber` on
the owner's thread; `idle` is the state of `idle_fiber`. -/
structure Worker where
  sched : SchedId
  root : Bool
  pc : Pc
  ft : Option Entry
  funcFiber : Option FiberId
  idle : FiberState
  deriving DecidableEq, Repr

/-- The locals with which `run()` begins. -/
def Worker.fresh (i : SchedId) (root : Bool) : Worker where
  sched := i
  root := root
  pc := .top
  ft := none
  funcFiber := none
  idle := .init

def Worker.absent : Worker := { Worker.fresh 0 false with pc := .absent }

/-- Where the owner of a scheduler stands. -/
inductive OwnerPc
  /-- outside `stop()` -/
  | user
  /-- line 76: the first `stopping()` -/
  | check1
  /-- line 87: `m_stopping = true` -/
  | setStopping
  /-- line 97: the second `stopping()` -/
  | check2
  /-- line 98: `m_rootFiber->call()` comes next -/
  | call
  /-- the root fiber has the owner's thread -/
  | called
  /-- line 105: `thrs.swap(m_threads)` -/
  | swap
  /-- line 108: joining `thrs` -/
  | join (thrs : List ThreadId)
  deriving DecidableEq, Repr

/-- `Scheduler`.  `rootThread` is `none` where the source has `-1`, and `rootFiber` is the state of
`m_rootFiber`, which exists when `rootThread` does. -/
structure Sched where
  fibers : List Entry
  activeThreadCount : Nat
  idleThreadCount : Nat
  stopping : Bool
  autoStop : Bool
  threadCount : Nat
  rootThread : Option ThreadId
  rootFiber : FiberState
  threads : List ThreadId
  threadIds : List ThreadId
  owner : OwnerPc
  deriving DecidableEq, Repr

/-- The ledger's line for one accepted function body: the scheduler it belongs to (`switchTo` moves
it), the thread it was scheduled with, how often it was begun, and whether it returned or threw. -/
structure Task where
  accepted : Bool
  home : SchedId
  bound : Int
  started : Nat
  ended : Bool
  deriving DecidableEq, Repr

def Task.none : Task := ⟨false, 0, -1, 0, false⟩

structure State where
  fibers : FiberId → SFiber
  nextFiber : Nat
  /-- the `SchedulerSwitcher` objects on each fiber's stack, by their `m_caller` -/
  switchers : FiberId → List SchedId
  scheds : SchedId → Sched
  workers : ThreadId → Worker
  tasks : TaskId → Task
  nextTask : Nat

namespace State

/-! ### Writing one component -/

def setFiber (s : State) (f : FiberId) (F : SFiber) : State :=
  { s with fibers := Function.update s.fibers f F }

def setWorker (s : State) (w : ThreadId) (W : Worker) : State :=
  { s with workers := Function.update s.workers w W }

def setSched (s : State) (i : SchedId) (S : Sched) : State :=
  { s with scheds := Function.update s.scheds i S }

def setTask (s : State) (k : TaskId) (T : Task) : State :=
  { s with tasks := Function.update s.tasks k T }

def setSwitchers (s : State) (f : FiberId) (l : List SchedId) : State :=
  { s with switchers := Function.update s.switchers f l }

section Projections

variable (s : State) (f : FiberId) (F : SFiber) (w : ThreadId) (W : Worker) (i : SchedId)
  (S : Sched) (k : TaskId) (T : Task) (l : List SchedId)

@[simp] theorem setFiber_fibers :
    (s.setFiber f F).fibers = Function.update s.fibers f F := rfl
@[simp] theorem setFiber_nextFiber : (s.setFiber f F).nextFiber = s.nextFiber := rfl
@[simp] theorem setFiber_switchers : (s.setFiber f F).switchers = s.switchers := rfl
@[simp] theorem setFiber_scheds : (s.setFiber f F).scheds = s.scheds := rfl
@[simp] theorem setFiber_workers : (s.setFiber f F).workers = s.workers := rfl
@[simp] theorem setFiber_tasks : (s.setFiber f F).tasks = s.tasks := rfl
@[simp] theorem setFiber_nextTask : (s.setFiber f F).nextTask = s.nextTask := rfl

@[simp] theorem setWorker_fibers : (s.setWorker w W).fibers = s.fibers := rfl
@[simp] theorem setWorker_nextFiber : (s.setWorker w W).nextFiber = s.nextFiber := rfl
@[simp] theorem setWorker_switchers : (s.setWorker w W).switchers = s.switchers := rfl
@[simp] theorem setWorker_scheds : (s.setWorker w W).scheds = s.scheds := rfl
@[simp] theorem setWorker_workers :
    (s.setWorker w W).workers = Function.update s.workers w W := rfl
@[simp] theorem setWorker_tasks : (s.setWorker w W).tasks = s.tasks := rfl
@[simp] theorem setWorker_nextTask : (s.setWorker w W).nextTask = s.nextTask := rfl

@[simp] theorem setSched_fibers : (s.setSched i S).fibers = s.fibers := rfl
@[simp] theorem setSched_nextFiber : (s.setSched i S).nextFiber = s.nextFiber := rfl
@[simp] theorem setSched_switchers : (s.setSched i S).switchers = s.switchers := rfl
@[simp] theorem setSched_scheds :
    (s.setSched i S).scheds = Function.update s.scheds i S := rfl
@[simp] theorem setSched_workers : (s.setSched i S).workers = s.workers := rfl
@[simp] theorem setSched_tasks : (s.setSched i S).tasks = s.tasks := rfl
@[simp] theorem setSched_nextTask : (s.setSched i S).nextTask = s.nextTask := rfl

@[simp] theorem setTask_fibers : (s.setTask k T).fibers = s.fibers := rfl
@[simp] theorem setTask_nextFiber : (s.setTask k T).nextFiber = s.nextFiber := rfl
@[simp] theorem setTask_switchers : (s.setTask k T).switchers = s.switchers := rfl
@[simp] theorem setTask_scheds : (s.setTask k T).scheds = s.scheds := rfl
@[simp] theorem setTask_workers : (s.setTask k T).workers = s.workers := rfl
@[simp] theorem setTask_tasks : (s.setTask k T).tasks = Function.update s.tasks k T := rfl
@[simp] theorem setTask_nextTask : (s.setTask k T).nextTask = s.nextTask := rfl

@[simp] theorem setSwitchers_fibers : (s.setSwitchers f l).fibers = s.fibers := rfl
@[simp] theorem setSwitchers_nextFiber : (s.setSwitchers f l).nextFiber = s.nextFiber := rfl
@[simp] theorem setSwitchers_switchers :
    (s.setSwitchers f l).switchers = Function.update s.switchers f l := rfl
@[simp] theorem setSwitchers_scheds : (s.setSwitchers f l).scheds = s.scheds := rfl
@[simp] theorem setSwitchers_workers : (s.setSwitchers f l).workers = s.workers := rfl
@[simp] theorem setSwitchers_tasks : (s.setSwitchers f l).tasks = s.tasks := rfl
@[simp] theorem setSwitchers_nextTask : (s.setSwitchers f l).nextTask = s.nextTask := rfl

end Projections

/-- `m_fibers` of scheduler `i`. -/
def queue (s : State) (i : SchedId) : List Entry := (s.scheds i).fibers

/-- `m_fibers.push_back` on scheduler `i`. -/
def push (s : State) (i : SchedId) (e : Entry) : State :=
  s.setSched i { s.scheds i with fibers := (s.scheds i).fibers ++ [e] }

section Queue

variable (s : State) (i : SchedId) (S : Sched)

@[simp] theorem setFiber_queue (f : FiberId) (F : SFiber) : (s.setFiber f F).queue = s.queue := rfl
@[simp] theorem setWorker_queue (w : ThreadId) (W : Worker) :
    (s.setWorker w W).queue = s.queue := rfl
@[simp] theorem setTask_queue (k : TaskId) (T : Task) : (s.setTask k T).queue = s.queue := rfl
@[simp] theorem setSwitchers_queue (f : FiberId) (l : List SchedId) :
    (s.setSwitchers f l).queue = s.queue := rfl

theorem setSched_queue (j : SchedId) :
    (s.setSched i S).queue j = if j = i then S.fibers else s.queue j := by
  by_cases h : j = i
  · subst h
    simp [queue]
  · simp [queue, h]

/-- A write to a scheduler that keeps its `m_fibers` changes no queue. -/
theorem setSched_queue_eq (h : S.fibers = s.queue i) : (s.setSched i S).queue = s.queue := by
  funext j
  rw [setSched_queue]
  split
  · rename_i hj
    rw [hj, h]
  · rfl

end Queue

section Push

variable (s : State) (i j : SchedId) (e : Entry)

@[simp] theorem push_fibers : (s.push i e).fibers = s.fibers := rfl
@[simp] theorem push_nextFiber : (s.push i e).nextFiber = s.nextFiber := rfl
@[simp] theorem push_switchers : (s.push i e).switchers = s.switchers := rfl
@[simp] theorem push_workers : (s.push i e).workers = s.workers := rfl
@[simp] theorem push_tasks : (s.push i e).tasks = s.tasks := rfl
@[simp] theorem push_nextTask : (s.push i e).nextTask = s.nextTask := rfl

theorem push_scheds_of_ne {j : SchedId} (h : j ≠ i) : (s.push i e).scheds j = s.scheds j := by
  simp [push, h]

@[simp] theorem push_scheds_self :
    (s.push i e).scheds i = { s.scheds i with fibers := (s.scheds i).fibers ++ [e] } := by
  simp [push]

theorem push_queue :
    (s.push i e).queue j = if j = i then s.queue i ++ [e] else s.queue j := by
  by_cases h : j = i
  · subst h
    simp [queue]
  · simp [queue, push_scheds_of_ne s i e h, h]

theorem mem_push_self : e ∈ (s.push i e).queue i := by
  rw [push_queue, if_pos rfl]
  exact List.mem_append_right _ (List.mem_singleton.mpr rfl)

theorem mem_push {e' : Entry} (h : e' ∈ s.queue j) : e' ∈ (s.push i e).queue j := by
  rw [push_queue]
  split
  · rename_i hj
    exact List.mem_append_left _ (hj ▸ h)
  · exact h

theorem mem_of_mem_push {e' : Entry} (h : e' ∈ (s.push i e).queue j) :
    e' ∈ s.queue j ∨ (j = i ∧ e' = e) := by
  rw [push_queue] at h
  split at h
  · rename_i hj
    rcases List.mem_append.mp h with h | h
    · exact .inl (hj ▸ h)
    · exact .inr ⟨hj, List.mem_singleton.mp h⟩
  · exact .inl h

/-- A push changes nothing of a scheduler but its queue. -/
theorem push_scheds (j : SchedId) :
    (s.push i e).scheds j = { s.scheds j with fibers := (s.push i e).queue j } := by
  by_cases h : j = i
  · subst h
    simp [queue]
  · simp [queue, push_scheds_of_ne s i e h]

end Push

/-- The scheduler whose `run()` thread `w` executes. -/
def schedOf (s : State) (w : ThreadId) : Sched := s.scheds (s.workers w).sched

/-- Thread `w` has the processor to itself: a worker thread always, the root fiber only while the
owner is inside `m_rootFiber->call()`. -/
def onCpu (s : State) (w : ThreadId) : Bool :=
  !(s.workers w).root || (s.schedOf w).owner = .called

/-- Worker `w` is executing code of fiber `f`, on `f`'s stack. -/
def Executes (s : State) (w : ThreadId) (f : FiberId) : Prop :=
  ∃ v st, (s.workers w).pc = .exec v f st ∧
    (st = .running ∨ (∃ sw, st = .switching sw) ∨ ∃ c, st = .leaving c)

end State

/-! ### The initial state -/

/-- The constructor's arguments, and what the memory held in the two fields it does not set. -/
structure Config where
  threads : Nat
  rootThread : Option ThreadId
  stopping : Bool
  autoStop : Bool
  /-- `LIONET_ASSERT(threads > 0)` -/
  threads_pos : 0 < threads

/-- The schedulers of a process.  `rootOf` is `t_scheduler` of the threads that constructed one with
`use_caller`; a thread does so once at most (`LIONET_ASSERT(GetThis() == nullptr)`). -/
structure Setup where
  config : SchedId → Config
  rootOf : ThreadId → Option SchedId
  rootOf_iff : ∀ w i, rootOf w = some i ↔ (config i).rootThread = some w

/-- `Scheduler::Scheduler`. -/
def Sched.construct (c : Config) : Sched where
  fibers := []
  activeThreadCount := 0
  idleThreadCount := 0
  stopping := c.stopping
  autoStop := c.autoStop
  threadCount := if c.rootThread.isSome then c.threads - 1 else c.threads
  rootThread := c.rootThread
  rootFiber := .init
  threads := []
  threadIds := c.rootThread.toList
  owner := .user

/-- All schedulers constructed, no thread started, nothing scheduled. -/
def Setup.init (u : Setup) : State where
  fibers := fun _ => default
  nextFiber := 0
  switchers := fun _ => []
  scheds := fun i => Sched.construct (u.config i)
  workers := fun w =>
    match u.rootOf w with
    | some i => Worker.fresh i true
    | none => Worker.absent
  tasks := fun _ => Task.none
  nextTask := 0

/-- Every scheduler has `n` threads of its own. -/
def Setup.pool (n : Nat) (h : 0 < n) : Setup where
  config _ := ⟨n, none, true, false, h⟩
  rootOf _ := none
  rootOf_iff := by simp

/-- Thread 0 constructs scheduler 0 with `use_caller`. -/
def Setup.caller (n : Nat) (h : 0 < n) (stopping autoStop : Bool) : Setup where
  config i := ⟨n, if i = 0 then some 0 else none, stopping, autoStop, h⟩
  rootOf w := if w = 0 then some 0 else none
  rootOf_iff w i := by by_cases hw : w = 0 <;> by_cases hi : i = 0 <;> simp [hw, hi, eq_comm]

end LioNet.Scheduler
