import Mathlib.Algebra.GroupWithZero.Nat
import Mathlib.Logic.Relation
import LioNet.Scheduler.Step

/-!
# One thread, and the queue it ought to be

What a scheduler with a single thread is for, said without fibers, contexts and counters: tasks wait
in a queue; the machine `RoundRobin` pops the head, runs its next segment, appends the tasks which
that segment scheduled, in order, and then the task itself if it yielded.

`Body` is what a task does, as the tree of its calls: a segment is the part of it up to the next
yield or end.  `Driven` is the real thing under such bodies.  The thread that constructed the
scheduler calls `stop()` and from then on is alone; `Driven.next` is the label of the one move that
it makes next, which is the next access of `stop()` or `run()`, or what the body of the running task
says.
-/

namespace LioNet.Scheduler

/-! ### Task bodies -/

/-- `here` says that the fresh task is bound to this thread; otherwise it is bound to none. -/
inductive Body
  | schedule (sp : Spawn) (here : Bool) (task rest : Body)
  | yieldToReady (rest : Body)
  | yieldToHold (rest : Body)
  | ret
  | throw
  deriving DecidableEq, Repr

namespace Body

/-- The tasks that the next segment schedules, in order. -/
def scheduled : Body → List Body
  | .schedule _ _ task rest => task :: rest.scheduled
  | _ => []

/-- What the next segment leaves of the body, if it ends in a yield. -/
def remaining : Body → Option Body
  | .schedule _ _ _ rest => rest.remaining
  | .yieldToReady rest | .yieldToHold rest => some rest
  | .ret | .throw => none

/-- No fiber in it is built with `use_caller`. -/
def mainOnly : Body → Bool
  | .schedule sp _ task rest => sp != .fiber true && (task.mainOnly && rest.mainOnly)
  | .yieldToReady rest | .yieldToHold rest => rest.mainOnly
  | .ret | .throw => true

/-- The number of calls in it. -/
def size : Body → Nat
  | .schedule _ _ task rest => task.size + rest.size + 1
  | .yieldToReady rest | .yieldToHold rest => rest.size + 1
  | .ret | .throw => 1

end Body

/-- A task to be handed to `schedule()`. -/
structure Handed where
  sp : Spawn
  here : Bool
  body : Body
  deriving DecidableEq, Repr

def Handed.mainOnly (h : Handed) : Bool := h.sp != .fiber true && h.body.mainOnly

/-! ### The queue machine -/

/-- A task's next segment is named by the task and what is left of its body. -/
abbrev Segment := TaskId × Body

/-- The queue, and the name of the next fresh task. -/
structure RoundRobin where
  tasks : List Segment
  next : TaskId
  deriving DecidableEq, Repr

namespace RoundRobin

/-- Names for fresh tasks, in order. -/
def name (n : TaskId) : List Body → List Segment
  | [] => []
  | b :: bs => (n, b) :: name (n + 1) bs

/-- The queue behind a popped head, when the head's segment has run. -/
def segment (q : RoundRobin) (k : TaskId) (b : Body) : RoundRobin where
  tasks := q.tasks ++ name q.next b.scheduled ++ (b.remaining.map fun rest => (k, rest)).toList
  next := q.next + b.scheduled.length

/-- A fresh task is appended. -/
def append (q : RoundRobin) (b : Body) : RoundRobin := ⟨q.tasks ++ [(q.next, b)], q.next + 1⟩

def size (q : RoundRobin) : Nat := (q.tasks.map fun kb => kb.2.size).sum

section Segment

variable (q : RoundRobin) (k : TaskId)

/-- A segment appends what it schedules one after the other. -/
theorem segment_schedule (sp : Spawn) (here : Bool) (b rest : Body) :
    q.segment k (.schedule sp here b rest) = (q.append b).segment k rest := by
  simp only [segment, append, Body.scheduled, Body.remaining, name, List.length_cons,
    List.append_assoc, List.cons_append, List.nil_append, RoundRobin.mk.injEq, true_and]
  exact Nat.add_right_comm q.next _ 1

@[simp] theorem segment_yieldToReady (rest : Body) :
    q.segment k (.yieldToReady rest) = ⟨q.tasks ++ [(k, rest)], q.next⟩ := by
  simp [segment, Body.scheduled, Body.remaining, name]

@[simp] theorem segment_yieldToHold (rest : Body) :
    q.segment k (.yieldToHold rest) = ⟨q.tasks ++ [(k, rest)], q.next⟩ := by
  simp [segment, Body.scheduled, Body.remaining, name]

@[simp] theorem segment_ret : q.segment k .ret = q := by
  simp [segment, Body.scheduled, Body.remaining, name]

@[simp] theorem segment_throw : q.segment k .throw = q := by
  simp [segment, Body.scheduled, Body.remaining, name]

theorem size_append (b : Body) : (q.append b).size = q.size + b.size := by
  simp [size, append]

/-- Running a segment uses up part of its body. -/
theorem size_segment (b : Body) : (q.segment k b).size < q.size + b.size := by
  induction b generalizing q with
  | schedule sp here task rest _ ih =>
    rw [segment_schedule]
    have hrest := ih (q.append task)
    rw [size_append] at hrest
    show _ < q.size + (task.size + rest.size + 1)
    omega
  | yieldToReady rest => simp [size, Body.size]
  | yieldToHold rest => simp [size, Body.size]
  | ret => simp [Body.size]
  | throw => simp [Body.size]

end Segment

/-- The segments that the machine runs, in order. -/
def trace : RoundRobin → List Segment
  | ⟨[], _⟩ => []
  | ⟨(k, b) :: rest, n⟩ => (k, b) :: trace (RoundRobin.segment ⟨rest, n⟩ k b)
termination_by q => q.size
decreasing_by
  have hlt := size_segment ⟨rest, n⟩ k b
  have hsize : size ⟨(k, b) :: rest, n⟩ = b.size + size ⟨rest, n⟩ := by simp [size]
  omega

theorem trace_nil {q : RoundRobin} (h : q.tasks = []) : q.trace = [] := by
  obtain ⟨tasks, n⟩ := q
  subst h
  rw [trace]

theorem trace_cons {q : RoundRobin} {k : TaskId} {b : Body} {rest : List Segment}
    (h : q.tasks = (k, b) :: rest) :
    q.trace = (k, b) :: (RoundRobin.segment ⟨rest, q.next⟩ k b).trace := by
  obtain ⟨tasks, n⟩ := q
  subst h
  rw [trace]

/-- The machine with the tasks handed to it. -/
def load (hs : List Handed) : RoundRobin :=
  ⟨name 0 (hs.map Handed.body), hs.length⟩

end RoundRobin

/-! ### The scheduler under its tasks -/

/-- A state, what is left of each task's body, and the segments begun so far. -/
structure Driven where
  state : State
  code : TaskId → Body
  trace : List Segment

/-- The call that a body makes next. -/
def Body.action (i : SchedId) (w : ThreadId) : Body → Action
  | .schedule sp here _ _ => .schedule i sp (if here then w else -1)
  | .yieldToReady _ => .yieldToReady
  | .yieldToHold _ => .yieldToHold
  | .ret => .ret
  | .throw => .throw

/-- The task whose body worker `w` executes, or is about to enter. -/
def State.taskOn (s : State) (w : ThreadId) : Option TaskId :=
  match (s.workers w).pc with
  | .exec _ f _ => (s.fibers f).func
  | _ => none

namespace Driven

/-- What is left of the bodies when task `k` has made its next call. -/
def after (d : Driven) (k : TaskId) : TaskId → Body :=
  match d.code k with
  | .schedule _ _ task rest =>
    Function.update (Function.update d.code k rest) d.state.nextTask task
  | .yieldToReady rest | .yieldToHold rest => Function.update d.code k rest
  | .ret | .throw => d.code

section Drive

variable (i : SchedId) (w : ThreadId) (d : Driven)

/-- The one move that is next: none when `stop()` has returned. -/
def next : Option Label :=
  match (d.state.scheds i).owner with
  | .user => none
  | .called =>
    match (d.state.workers w).pc with
    | .exec _ _ .running => (d.state.taskOn w).map fun k => .body w ((d.code k).action i w)
    | _ => some (.run w)
  | _ => some (.owner i)

/-- What is known after a move to `s`. -/
def note (s : State) : Label → Driven
  | .run _ =>
    match (d.state.workers w).pc with
    | .exec _ _ .enter =>
      { d with
        state := s
        trace := d.trace ++ ((d.state.taskOn w).map fun k => (k, d.code k)).toList }
    | _ => { d with state := s }
  | .body _ _ =>
    match d.state.taskOn w with
    | some k => { d with state := s, code := d.after k }
    | none => { d with state := s }
  | _ => { d with state := s }

def drive : Option Driven :=
  (d.next i w).bind fun l => (step d.state l).map fun s => d.note w s l

/-- `schedule()` of a task before `stop()`. -/
def hand (h : Handed) : Driven where
  state := d.state.accept i h.sp (if h.here then w else -1)
  code := Function.update d.code d.state.nextTask h.body
  trace := d.trace

/-- The tasks are handed over. -/
def handed (u : Setup) (hs : List Handed) : Driven :=
  hs.foldl (hand i w) ⟨u.init, fun _ => .ret, []⟩

/-- Then `stop()` is called. -/
def boot (u : Setup) (hs : List Handed) : Option Driven :=
  (step (handed i w u hs).state (.stop i)).map fun s => { handed i w u hs with state := s }

end Drive

/-- Any number of moves. -/
abbrev Drives (i : SchedId) (w : ThreadId) : Driven → Driven → Prop :=
  Relation.ReflTransGen fun d d' => d.drive i w = some d'

end Driven

/-- `run()` has returned, `stop()` too, and nothing is left over. -/
structure Finished (s : State) (i : SchedId) (w : ThreadId) : Prop where
  owner : (s.scheds i).owner = .user
  run : (s.workers w).pc = .left
  fibers : s.queue i = []
  active : (s.scheds i).activeThreadCount = 0
  idle : (s.scheds i).idleThreadCount = 0
  tasks : ∀ k < s.nextTask, (s.tasks k).accepted = true ∧ (s.tasks k).ended = true
  idleFiber : (s.workers w).idle = .term
  funcFiber : ∀ f, (s.workers w).funcFiber = some f → (s.fibers f).state = .init

/-- Thread `w` hands the tasks over and calls `stop()`: its one run executes the queue machine's
segments, ends, and leaves nothing over. -/
def RefinesRoundRobin (u : Setup) (i : SchedId) (w : ThreadId) (hs : List Handed) : Prop :=
  ∃ d₀ d, Driven.boot i w u hs = some d₀ ∧ Driven.Drives i w d₀ d ∧ d.drive i w = none ∧
    d.trace = (RoundRobin.load hs).trace ∧ Finished d.state i w

end LioNet.Scheduler
