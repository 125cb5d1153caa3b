import LioNet.Fiber

/-!
# Resuming fibers from a thread's main fiber

One thread and its three thread-local pointers: `t_fiber` and `t_threadFiber` of `fiber.cc`,
`t_scheduler_fiber` of `scheduler.cc`.  There are two pairs of switches.  `call`/`back` save into and
load from `t_threadFiber`; `swapIn`/`swapOut` save into and load from `Scheduler::GetMainFiber()`.
How a body ends is the business of its entry function, which uses the switch that belongs to the
constructor's `use_caller`; but `YieldToReady` and `YieldToHold` use `swapOut` for every fiber.

A thread's main fiber resumes fibers one at a time: `call()` where the fiber was built with
`use_caller`, `swapIn()` where it was not.  `Back` says what the resumer expects of that, and
**`all_back_iff`** says when a sequence of resumes meets it: where `GetMainFiber()` is the thread's
main fiber, always; elsewhere only as long as the fibers are built with `use_caller` and never yield.
-/

namespace LioNet.MainFiber

/-- The fibers of one thread: its main fiber, `m_rootFiber` of a scheduler constructed on it with
`use_caller`, and the fibers its main fiber resumes. -/
inductive Name
  | main
  | root
  | task (n : Nat)
  deriving DecidableEq, Repr

inductive Yield
  | toReady
  | toHold
  deriving DecidableEq, Repr

def Yield.state : Yield → FiberState
  | .toReady => .ready
  | .toHold => .hold

inductive Ending
  | ret
  | throw
  deriving DecidableEq, Repr

def Ending.state : Ending → FiberState
  | .ret => .term
  | .throw => .except

/-- A function that yields a number of times and then returns or throws. -/
structure Body where
  yields : List Yield
  ending : Ending
  deriving DecidableEq, Repr

/-- `m_func`: such a function, or `Scheduler::run`. -/
inductive Func
  | body (b : Body)
  | run
  deriving DecidableEq, Repr

/-- The code a saved context continues with.  `cur` is the local of `MainFunc`/`CallerMainFunc`. -/
inductive Code
  /-- the `getcontext` of `Fiber::Fiber()` -/
  | getcontext
  /-- the `swapcontext` in `call`/`swapIn`, called by the main fiber -/
  | resumer
  /-- the `swapcontext` in `swapOut`, with `b` left of the function -/
  | body (cur : Name) (b : Body)
  deriving DecidableEq, Repr

abbrev TFiber := Fiber Func Code

/-- `t_fiber`, `t_threadFiber`, `t_scheduler_fiber`, and the fibers they point to. -/
structure Thread where
  current : Option Name
  threadFiber : Option Name
  schedulerFiber : Option Name
  fibers : Name → TFiber

inductive Fault
  | nullAccess
  | assertion
  deriving DecidableEq, Repr

/-- How a resume ends, seen from the resumer. -/
inductive Outcome
  /-- `call()`/`swapIn()` has returned -/
  | returned (t : Thread)
  /-- the fiber has left its segment, and other code than the resumer's continues -/
  | elsewhere (t : Thread)
  | fault (e : Fault)

namespace Thread

def setFiber (t : Thread) (f : Name) (F : TFiber) : Thread :=
  { t with fibers := Function.update t.fibers f F }

/-- `Fiber::SetThis`. -/
def setThis (t : Thread) (f : Option Name) : Thread := { t with current := f }

section Projections

variable (t : Thread) (f : Name) (F : TFiber) (g : Option Name)

@[simp] theorem setFiber_current : (t.setFiber f F).current = t.current := rfl
@[simp] theorem setFiber_threadFiber : (t.setFiber f F).threadFiber = t.threadFiber := rfl
@[simp] theorem setFiber_schedulerFiber :
    (t.setFiber f F).schedulerFiber = t.schedulerFiber := rfl
@[simp] theorem setFiber_fibers : (t.setFiber f F).fibers = Function.update t.fibers f F := rfl

@[simp] theorem setThis_current : (t.setThis g).current = g := rfl
@[simp] theorem setThis_threadFiber : (t.setThis g).threadFiber = t.threadFiber := rfl
@[simp] theorem setThis_schedulerFiber : (t.setThis g).schedulerFiber = t.schedulerFiber := rfl
@[simp] theorem setThis_fibers : (t.setThis g).fibers = t.fibers := rfl

end Projections

/-- `Fiber::Fiber()` and `Fiber::GetThis`. -/
def getThis (t : Thread) : Thread × Name :=
  match t.current with
  | some f => (t, f)
  | none =>
    ({ (t.setFiber .main
        { state := .exec, func := none, entryFunc := .mainFunc, ctx := .suspended .getcontext,
          saved := false }).setThis (some .main) with threadFiber := some .main }, .main)

/-- `swapcontext(&f->m_ctx, &g->m_ctx)`: `f`'s context will continue at `c`, and control goes to
`g`'s. -/
def swapcontext (t : Thread) (f g : Option Name) (c : Ctx Code) : Except Fault (Thread × Name) :=
  match f, g with
  | some f, some g => .ok (t.setFiber f ((t.fibers f).save c), g)
  | _, _ => .error .nullAccess

/-! ### The four switches -/

def call (t : Thread) (f : Name) : Except Fault (Thread × Name) :=
  ((t.setThis (some f)).setFiber f (t.fibers f).resume).swapcontext t.threadFiber (some f)
    (.suspended .resumer)

def back (t : Thread) (f : Name) (c : Ctx Code) : Except Fault (Thread × Name) :=
  (t.setThis t.threadFiber).swapcontext (some f) t.threadFiber c

/-- `Scheduler::GetMainFiber()` is `schedulerFiber`. -/
def swapIn (t : Thread) (f : Name) : Except Fault (Thread × Name) :=
  ((t.setThis (some f)).setFiber f (t.fibers f).resume).swapcontext t.schedulerFiber (some f)
    (.suspended .resumer)

def swapOut (t : Thread) (f : Name) (c : Ctx Code) : Except Fault (Thread × Name) :=
  (t.setThis t.schedulerFiber).swapcontext (some f) t.schedulerFiber c

/-! ### What a fiber executes -/

/-- `YieldToReady`/`YieldToHold`, in a function that goes on with `c`. -/
def yieldTo (t : Thread) (y : Yield) (c : Code) : Except Fault (Thread × Name) :=
  let (t, cur) := t.getThis
  match (t.fibers cur).yieldTo y.state with
  | some F => (t.setFiber cur F).swapOut cur (.suspended c)
  | none => .error .assertion

/-- `MainFunc` after the call of `m_func`. -/
def mainFunc (t : Thread) (cur : Name) : Ending → Except Fault (Thread × Name)
  | .ret => (t.setFiber cur (t.fibers cur).returned).swapOut cur .finished
  | .throw => (t.setFiber cur (t.fibers cur).threw).swapOut cur .finished

/-- `CallerMainFunc` after the call of `m_func`. -/
def callerMainFunc (t : Thread) (cur : Name) : Ending → Except Fault (Thread × Name)
  | .ret => (t.setFiber cur (t.fibers cur).returned).back cur .finished
  | .throw => (t.setFiber cur (t.fibers cur).threw).back cur .finished

def finish (t : Thread) (f cur : Name) (e : Ending) : Except Fault (Thread × Name) :=
  match (t.fibers f).entryFunc with
  | .mainFunc => t.mainFunc cur e
  | .callerMainFunc => t.callerMainFunc cur e

/-- Fiber `f` executes its function from `b` on, up to the next switch. -/
def segment (t : Thread) (f cur : Name) (b : Body) : Except Fault (Thread × Name) :=
  match b.yields with
  | y :: ys => t.yieldTo y (.body cur ⟨ys, b.ending⟩)
  | [] => t.finish f cur b.ending

/-- The segment has ended and control has come to fiber `f`: back at the resumer, or not. -/
def land (t : Thread) (f : Name) : Outcome :=
  match (t.fibers f).ctx with
  | .suspended .resumer => .returned t
  | .finished => .fault .assertion
  | _ => .elsewhere t

def afterSwitch : Except Fault (Thread × Name) → Outcome
  | .ok (t, f) => t.land f
  | .error e => .fault e

/-- Control has come to fiber `f`, which executes its next segment. -/
def enter (t : Thread) (f : Name) : Outcome :=
  match (t.fibers f).ctx with
  | .entry =>
    let (t, cur) := t.getThis
    match (t.fibers f).func with
    | some (.body b) => afterSwitch (t.segment f cur b)
    | some .run => .elsewhere t
    -- the empty `m_func` throws `std::bad_function_call`
    | none => afterSwitch (t.finish f cur .throw)
  | .suspended (.body cur b) => afterSwitch (t.segment f cur b)
  | .suspended .resumer => .returned t
  | .suspended .getcontext => .elsewhere t
  | .finished => .fault .assertion

/-- The main fiber resumes fiber `n` in the way the fiber was built for. -/
def resume (t : Thread) (n : Nat) : Outcome :=
  let switch :=
    match (t.fibers (.task n)).entryFunc with
    | .mainFunc => t.swapIn (.task n)
    | .callerMainFunc => t.call (.task n)
  match switch with
  | .ok (t, f) => t.enter f
  | .error e => .fault e

/-! ### The threads in question -/

/-- A thread that has not called `Fiber::GetThis()`, and fibers built for it.  The other two fibers
do not exist yet. -/
def start (uc : Nat → Bool) (bodies : Nat → Body) : Thread where
  current := none
  threadFiber := none
  schedulerFiber := none
  fibers
    | .task n => Fiber.construct (some (.body (bodies n))) (uc n)
    | _ => default

/-- `Scheduler::Scheduler` with `use_caller`. -/
def schedulerCaller (t : Thread) : Thread :=
  let t := t.getThis.1
  { t.setFiber .root (Fiber.construct (some .run) true) with schedulerFiber := some .root }

/-- The head of `Scheduler::run` on a thread that is not `m_rootThread`. -/
def schedulerRun (t : Thread) : Thread :=
  let (t, f) := t.getThis
  { t with schedulerFiber := some f }

end Thread

/-- What the thread has to do with schedulers. -/
inductive Host
  /-- nothing, or it constructed one without `use_caller` -/
  | bare
  /-- it constructed one with `use_caller` -/
  | caller
  /-- it is a worker thread, and its main fiber executes `run()` -/
  | worker
  deriving DecidableEq, Repr

/-- The thread after `Fiber::GetThis()` and what its host did. -/
def Host.thread (h : Host) (uc : Nat → Bool) (bodies : Nat → Body) : Thread :=
  let t := (Thread.start uc bodies).getThis.1
  match h with
  | .bare => t
  | .caller => t.schedulerCaller
  | .worker => t.schedulerRun

/-- `Scheduler::GetMainFiber()` on such a thread. -/
def Host.mainFiber : Host → Option Name
  | .bare => none
  | .caller => some .root
  | .worker => some .main

/-! ### What the resumer expects -/

namespace Body

/-- What is left after the next segment. -/
def next : Body → Option Body
  | ⟨[], _⟩ => none
  | ⟨_ :: ys, e⟩ => some ⟨ys, e⟩

/-- The fiber's state after the next segment. -/
def stop : Body → FiberState
  | ⟨[], e⟩ => e.state
  | ⟨y :: _, _⟩ => y.state

/-- Where the context of fiber `f` continues after the next segment. -/
def stopCtx (f : Name) : Body → Ctx Code
  | ⟨[], _⟩ => .finished
  | ⟨_ :: ys, e⟩ => .suspended (.body f ⟨ys, e⟩)

end Body

/-- How many resumes a fiber has left. -/
def resumesLeft : Option Body → Nat
  | none => 0
  | some b => b.yields.length + 1

/-- The resume of fiber `n`, which had `b` left of its function, came back: it returned, the body is
at its next yield or end, and `GetThis()` is the resumer again. -/
structure Back (t : Thread) (n : Nat) (b : Body) (t' : Thread) : Prop where
  returned : t.resume n = .returned t'
  current : t'.current = t.current
  state : (t'.fibers (.task n)).state = b.stop
  ctx : (t'.fibers (.task n)).ctx = b.stopCtx (.task n)

/-- Every resume of the list comes back; `rem` says what is left of each function. -/
def AllBack : Thread → (Nat → Option Body) → List Nat → Prop
  | _, _, [] => True
  | t, rem, n :: rs =>
    ∃ b t', rem n = some b ∧ Back t n b t' ∧ AllBack t' (Function.update rem n b.next) rs

/-! ### The two pairs of switches -/

/-- The pointer that the switches of an entry function's pair go through. -/
def Thread.mainOf (t : Thread) : EntryFunc → Option Name
  | .mainFunc => t.schedulerFiber
  | .callerMainFunc => t.threadFiber

/-- The pair whose second half ends the next segment: a yield takes `swapOut` for every fiber. -/
def Body.exit (b : Body) (e : EntryFunc) : EntryFunc :=
  if b.yields = [] then e else .mainFunc

/-- The writes on a fiber that end its next segment. -/
def Body.stopped (F : TFiber) : Body → TFiber
  | ⟨[], .ret⟩ => F.returned
  | ⟨[], .throw⟩ => F.threw
  | ⟨y :: _, _⟩ => { F with state := y.state }

theorem Body.stopped_state (F : TFiber) (b : Body) : (b.stopped F).state = b.stop := by
  obtain ⟨ys, e⟩ := b
  cases ys with
  | cons y ys => rfl
  | nil => cases e <;> rfl

theorem Body.stopped_entryFunc (F : TFiber) (b : Body) :
    (b.stopped F).entryFunc = F.entryFunc := by
  obtain ⟨ys, e⟩ := b
  cases ys with
  | cons y ys => rfl
  | nil => cases e <;> rfl

section Segment

variable {t : Thread} {f g : Name} {b : Body}

theorem Thread.getThis_of_current (h : t.current = some f) : t.getThis = (t, f) := by
  unfold getThis
  rw [h]

/-- The fiber is marked and `SetThis` is done, `swapcontext` comes next. -/
def Thread.stopped (t : Thread) (f : Name) (b : Body) : Thread :=
  (t.setFiber f (b.stopped (t.fibers f))).setThis (t.mainOf (b.exit (t.fibers f).entryFunc))

/-- **One segment is one switch**, through the pointer of the pair that ends it. -/
theorem Thread.segment_eq (hc : t.current = some f) (hx : (t.fibers f).state = .exec) :
    t.segment f f b = (t.stopped f b).swapcontext (some f)
      (t.mainOf (b.exit (t.fibers f).entryFunc)) (b.stopCtx f) := by
  obtain ⟨ys, e⟩ := b
  cases ys with
  | cons y ys =>
    have hy : (t.fibers f).yieldTo y.state = some { t.fibers f with state := y.state } := by
      unfold Fiber.yieldTo
      rw [if_pos hx]
    show t.yieldTo y (.body f ⟨ys, e⟩) = _
    unfold yieldTo
    rw [getThis_of_current hc]
    simp only [hy]
    rfl
  | nil =>
    show t.finish f f e = _
    unfold finish stopped
    cases he : (t.fibers f).entryFunc <;> cases e <;> rfl

end Segment

/-! ### A fiber between two resumes -/

/-- Fiber `f`, built with `uc`, has `b` left of its function and may be resumed. -/
structure Waits (uc : Bool) (f : Name) (b : Body) (F : TFiber) : Prop where
  entryFunc : F.entryFunc = if uc then .callerMainFunc else .mainFunc
  ctx : (F.ctx = .entry ∧ F.func = some (.body b)) ∨ F.ctx = .suspended (.body f b)

/-- A resumed fiber executes its next segment. -/
theorem Waits.enter {t : Thread} {uc : Bool} {f : Name} {b : Body}
    (h : Waits uc f b (t.fibers f)) (hc : t.current = some f) :
    t.enter f = Thread.afterSwitch (t.segment f f b) := by
  unfold Thread.enter
  rcases h.ctx with ⟨hctx, hfunc⟩ | hctx
  · rw [hctx]
    simp only [Thread.getThis_of_current hc, hfunc]
  · rw [hctx]

/-- The resumer has saved its context into `g`, and control goes to `f`. -/
def Thread.resumed (t : Thread) (f g : Name) : Thread :=
  let t' := (t.setThis (some f)).setFiber f (t.fibers f).resume
  t'.setFiber g ((t'.fibers g).save (.suspended .resumer))

section Resume

variable {t : Thread} {uc : Bool} {n : Nat} {b : Body} {g : Name}

/-- A resume begins with one switch, through the pointer of the fiber's own pair. -/
theorem Waits.resume_eq (h : Waits uc (.task n) b (t.fibers (.task n)))
    (hg : t.mainOf (t.fibers (.task n)).entryFunc = some g) (hne : g ≠ .task n) :
    t.resume n = Thread.afterSwitch ((t.resumed (.task n) g).segment (.task n) (.task n) b) := by
  have hresumed : (t.resumed (.task n) g).fibers (.task n) = (t.fibers (.task n)).resume := by
    simp [Thread.resumed, Ne.symm hne]
  have hwaits : Waits uc (.task n) b ((t.resumed (.task n) g).fibers (.task n)) := by
    rw [hresumed]
    exact ⟨h.entryFunc, h.ctx⟩
  rw [← hwaits.enter rfl]
  unfold Thread.resume
  cases he : (t.fibers (.task n)).entryFunc with
  | mainFunc =>
    rw [he] at hg
    have hs : t.schedulerFiber = some g := hg
    simp only [Thread.swapIn, hs, Thread.swapcontext]
    rfl
  | callerMainFunc =>
    rw [he] at hg
    have hs : t.threadFiber = some g := hg
    simp only [Thread.call, hs, Thread.swapcontext]
    rfl

theorem resume_null (hg : t.mainOf (t.fibers (.task n)).entryFunc = none) :
    t.resume n = .fault .nullAccess := by
  unfold Thread.resume
  cases he : (t.fibers (.task n)).entryFunc with
  | mainFunc =>
    rw [he] at hg
    have hs : t.schedulerFiber = none := hg
    simp only [Thread.swapIn, hs, Thread.swapcontext]
  | callerMainFunc =>
    rw [he] at hg
    have hs : t.threadFiber = none := hg
    simp only [Thread.call, hs, Thread.swapcontext]

/-- The thread when the segment has ended, before control goes on. -/
def Thread.left (t : Thread) (n : Nat) (g : Name) (b : Body) : Thread :=
  let t' := (t.resumed (.task n) g).stopped (.task n) b
  t'.setFiber (.task n) ((t'.fibers (.task n)).save (b.stopCtx (.task n)))

/-- Where a resume goes: in through one pointer, out through another. -/
theorem Waits.resume_land (h : Waits uc (.task n) b (t.fibers (.task n)))
    (hg : t.mainOf (t.fibers (.task n)).entryFunc = some g) (hne : g ≠ .task n) :
    t.resume n =
      match t.mainOf (b.exit (t.fibers (.task n)).entryFunc) with
      | some g' => (t.left n g b).land g'
      | none => .fault .nullAccess := by
  have hresumed : (t.resumed (.task n) g).fibers (.task n) = (t.fibers (.task n)).resume := by
    simp [Thread.resumed, Ne.symm hne]
  have hx : ((t.resumed (.task n) g).fibers (.task n)).state = .exec := by
    rw [hresumed]
    rfl
  have he : ((t.resumed (.task n) g).fibers (.task n)).entryFunc =
      (t.fibers (.task n)).entryFunc := by
    rw [hresumed]
    rfl
  have hm : ∀ e, (t.resumed (.task n) g).mainOf e = t.mainOf e := by
    intro e
    cases e <;> rfl
  rw [h.resume_eq hg hne, Thread.segment_eq rfl hx, he, hm]
  cases t.mainOf (b.exit (t.fibers (.task n)).entryFunc) <;> rfl

/-! The thread after the segment, component by component. -/

theorem left_current (hne : g ≠ .task n) :
    (t.left n g b).current = t.mainOf (b.exit (t.fibers (.task n)).entryFunc) := by
  have he : ((t.resumed (.task n) g).fibers (.task n)).entryFunc =
      (t.fibers (.task n)).entryFunc := by
    simp [Thread.resumed, Ne.symm hne, Fiber.resume]
  show (t.resumed (.task n) g).mainOf (b.exit ((t.resumed (.task n) g).fibers (.task n)).entryFunc)
    = _
  rw [he]
  cases b.exit (t.fibers (.task n)).entryFunc <;> rfl

theorem left_task (hne : g ≠ .task n) :
    (t.left n g b).fibers (.task n) =
      (b.stopped (t.fibers (.task n)).resume).save (b.stopCtx (.task n)) := by
  simp [Thread.left, Thread.stopped, Thread.resumed, Ne.symm hne]

theorem left_main (hne : g ≠ .task n) :
    (t.left n g b).fibers g = (t.fibers g).save (.suspended .resumer) := by
  simp [Thread.left, Thread.stopped, Thread.resumed, hne]

theorem left_other {f : Name} (hf : f ≠ .task n) (hg : f ≠ g) :
    (t.left n g b).fibers f = t.fibers f := by
  simp [Thread.left, Thread.stopped, Thread.resumed, hf, hg]

end Resume

/-! ### A thread whose main fiber resumes -/

/-- The thread between two resumes that all came back: its main fiber is current, and every fiber
with something left of its function waits. -/
structure Hosted (h : Host) (uc : Nat → Bool) (rem : Nat → Option Body) (t : Thread) : Prop where
  current : t.current = some .main
  threadFiber : t.threadFiber = some .main
  schedulerFiber : t.schedulerFiber = h.mainFiber
  waits : ∀ n b, rem n = some b → Waits (uc n) (.task n) b (t.fibers (.task n))

theorem hosted_thread (h : Host) (uc : Nat → Bool) (bodies : Nat → Body) :
    Hosted h uc (fun n => some (bodies n)) (h.thread uc bodies) := by
  have hwaits : ∀ n b, some (bodies n) = some b →
      Waits (uc n) (.task n) b (Fiber.construct (some (.body (bodies n))) (uc n)) := by
    intro n b hb
    cases hb
    exact ⟨rfl, .inl ⟨rfl, rfl⟩⟩
  cases h with
  | bare => exact ⟨rfl, rfl, rfl, hwaits⟩
  | caller => exact ⟨rfl, rfl, rfl, hwaits⟩
  | worker => exact ⟨rfl, rfl, rfl, hwaits⟩

section Step

variable {h : Host} {uc : Nat → Bool} {rem : Nat → Option Body} {t : Thread} {n : Nat} {b : Body}

/-- **A resume that goes in and out through the main fiber comes back**, and leaves the thread as it
expects it the next time. -/
theorem Hosted.back (hh : Hosted h uc rem t) (hrem : rem n = some b)
    (hin : t.mainOf (t.fibers (.task n)).entryFunc = some .main)
    (hout : t.mainOf (b.exit (t.fibers (.task n)).entryFunc) = some .main) :
    ∃ t', Back t n b t' ∧ Hosted h uc (Function.update rem n b.next) t' := by
  have hw := hh.waits n b hrem
  have hne : Name.main ≠ .task n := Name.noConfusion
  have hland : (t.left n .main b).land .main = .returned (t.left n .main b) := by
    unfold Thread.land
    rw [left_main hne]
    rfl
  have hret : t.resume n = .returned (t.left n .main b) := by
    rw [hw.resume_land hin hne, hout]
    exact hland
  refine ⟨t.left n .main b, ⟨hret, ?_, ?_, ?_⟩, ⟨?_, hh.threadFiber, hh.schedulerFiber, ?_⟩⟩
  · rw [left_current hne, hout, hh.current]
  · rw [left_task hne]
    exact b.stopped_state _
  · rw [left_task hne]
    rfl
  · rw [left_current hne, hout]
  · intro m c hm
    by_cases hmn : m = n
    · subst hmn
      rw [Function.update_self] at hm
      rw [left_task hne]
      refine ⟨?_, .inr ?_⟩
      · show (b.stopped _).entryFunc = _
        rw [b.stopped_entryFunc]
        exact hw.entryFunc
      · show b.stopCtx (.task m) = _
        obtain ⟨ys, e⟩ := b
        cases ys with
        | nil => cases hm
        | cons y ys =>
          cases hm
          rfl
    · rw [Function.update_of_ne hmn] at hm
      have hf : Name.task m ≠ .task n := fun he => hmn (Name.task.inj he)
      have hg : Name.task m ≠ .main := Name.noConfusion
      rw [left_other hf hg]
      exact hh.waits m c hm

/-- On a worker thread every resume comes back. -/
theorem Hosted.back_worker (hh : Hosted .worker uc rem t) (hrem : rem n = some b) :
    ∃ t', Back t n b t' ∧ Hosted .worker uc (Function.update rem n b.next) t' := by
  have hmain : ∀ e, t.mainOf e = some .main := by
    intro e
    cases e with
    | mainFunc => exact hh.schedulerFiber
    | callerMainFunc => exact hh.threadFiber
  exact hh.back hrem (hmain _) (hmain _)

/-- Everywhere, `call()` on a fiber that only ends comes back. -/
theorem Hosted.back_call (hh : Hosted h uc rem t) (hrem : rem n = some b) (huc : uc n = true)
    (hb : b.yields = []) :
    ∃ t', Back t n b t' ∧ Hosted h uc (Function.update rem n b.next) t' := by
  have he : (t.fibers (.task n)).entryFunc = .callerMainFunc := by
    rw [(hh.waits n b hrem).entryFunc, huc]
    rfl
  have hmain : t.mainOf .callerMainFunc = some .main := hh.threadFiber
  apply hh.back hrem
  · rw [he]
    exact hmain
  · rw [he, Body.exit, if_pos hb]
    exact hmain

/-- **A resume that leaves through `GetMainFiber()` is lost** where that is not the main fiber: it
accesses null, or other code goes on, or `GetThis()` is not the resumer. -/
theorem Hosted.not_back (hh : Hosted h uc rem t) (hrem : rem n = some b) (hhost : h ≠ .worker)
    (hlost : ¬(uc n = true ∧ b.yields = [])) {t' : Thread} : ¬Back t n b t' := by
  intro hback
  have hw := hh.waits n b hrem
  have hout : b.exit (t.fibers (.task n)).entryFunc = .mainFunc := by
    rw [hw.entryFunc, Body.exit]
    split
    · rename_i hb
      rw [if_neg fun huc => hlost ⟨huc, hb⟩]
    · rfl
  -- control would have to land in the main fiber with another fiber current
  have hland : ∀ g, t.mainOf (t.fibers (.task n)).entryFunc = some g → g ≠ .task n →
      h.mainFiber = some .main := by
    intro g hg hne
    have hret := hback.returned
    rw [hw.resume_land hg hne, hout] at hret
    have hm : t.mainOf .mainFunc = h.mainFiber := hh.schedulerFiber
    rw [hm] at hret
    cases hmain : h.mainFiber with
    | none =>
      rw [hmain] at hret
      cases hret
    | some g' =>
      rw [hmain] at hret
      have ht : t' = t.left n g b := by
        simp only [Thread.land] at hret
        split at hret <;> cases hret
        rfl
      have hcur := hback.current
      rw [ht, left_current hne, hout, hh.current, hm, hmain] at hcur
      exact hcur
  have hworker : ∀ k : Host, k.mainFiber = some .main → k = .worker := by
    intro k hk
    cases k with
    | bare | caller => cases hk
    | worker => rfl
  cases hin : t.mainOf (t.fibers (.task n)).entryFunc with
  | none =>
    have hret := hback.returned
    rw [resume_null hin] at hret
    cases hret
  | some g =>
    refine hhost (hworker h (hland g hin ?_))
    rintro rfl
    cases he : (t.fibers (.task n)).entryFunc with
    | mainFunc =>
      rw [he] at hin
      have hs : h.mainFiber = some (.task n) := hh.schedulerFiber.symm.trans hin
      cases h <;> cases hs
    | callerMainFunc =>
      rw [he] at hin
      have hs : some Name.main = some (.task n) := hh.threadFiber.symm.trans hin
      cases hs

end Step

/-! ### Every resume comes back -/

section Runs

variable {h : Host} {uc : Nat → Bool} {rem : Nat → Option Body} {t : Thread} {n : Nat} {b : Body}

/-- A resume has one outcome. -/
theorem Back.unique {t₁ t₂ : Thread} (h₁ : Back t n b t₁) (h₂ : Back t n b t₂) : t₁ = t₂ :=
  Outcome.returned.inj (h₁.returned.symm.trans h₂.returned)

/-- A resume that may come back does, and leaves a hosted thread. -/
theorem Hosted.step (hh : Hosted h uc rem t) (hrem : rem n = some b)
    (hok : h = .worker ∨ (uc n = true ∧ b.yields = [])) :
    ∃ t', Back t n b t' ∧ Hosted h uc (Function.update rem n b.next) t' := by
  rcases hok with rfl | ⟨huc, hb⟩
  · exact hh.back_worker hrem
  · exact hh.back_call hrem huc hb

/-- One resume comes back exactly where it goes in and out through the main fiber. -/
theorem Hosted.back_iff (hh : Hosted h uc rem t) (hrem : rem n = some b) :
    (∃ t', Back t n b t') ↔ h = .worker ∨ (uc n = true ∧ b.yields = []) := by
  constructor
  · rintro ⟨t', hback⟩
    by_contra hno
    rw [not_or] at hno
    exact hh.not_back hrem hno.1 hno.2 hback
  · intro hok
    obtain ⟨t', hback, -⟩ := hh.step hrem hok
    exact ⟨t', hback⟩

theorem Body.resumesLeft_next (b : Body) : resumesLeft (some b) = resumesLeft b.next + 1 := by
  obtain ⟨ys, e⟩ := b
  cases ys <;> rfl

theorem Body.next_eq_none {b : Body} (hb : b.yields = []) : b.next = none := by
  obtain ⟨ys, e⟩ := b
  cases hb
  rfl

/-- A list of resumes that no function is too short for begins with one that is not over. -/
theorem exists_left {rs : List Nat} (hrs : ∀ m, (n :: rs).count m ≤ resumesLeft (rem m)) :
    ∃ b, rem n = some b ∧
      ∀ m, rs.count m ≤ resumesLeft (Function.update rem n b.next m) := by
  have hn := hrs n
  rw [List.count_cons_self] at hn
  cases hrem : rem n with
  | none =>
    rw [hrem] at hn
    cases hn
  | some b =>
    rw [hrem, b.resumesLeft_next] at hn
    refine ⟨b, rfl, fun m => ?_⟩
    by_cases hm : m = n
    · subst hm
      rw [Function.update_self]
      omega
    · have hcons := hrs m
      rw [List.count_cons_of_ne (Ne.symm hm)] at hcons
      rwa [Function.update_of_ne hm]

/-- The induction over the list, from any hosted thread. -/
theorem Hosted.resumes_back_iff (hh : Hosted h uc rem t) {rs : List Nat}
    (hrs : ∀ n, rs.count n ≤ resumesLeft (rem n)) :
    AllBack t rem rs ↔
      h = .worker ∨ ∀ n ∈ rs, uc n = true ∧ ∀ b, rem n = some b → b.yields = [] := by
  induction rs generalizing rem t with
  | nil =>
    constructor
    · intro _
      exact .inr fun n hn => absurd hn List.not_mem_nil
    · intro _
      trivial
  | cons n rs ih =>
    obtain ⟨b, hrem, hrest⟩ := exists_left hrs
    constructor
    · rintro ⟨b', t', hrem', hback, hall⟩
      obtain rfl : b = b' := Option.some.inj (hrem.symm.trans hrem')
      have hok := (hh.back_iff hrem).mp ⟨t', hback⟩
      obtain ⟨t'', hback', hh'⟩ := hh.step hrem hok
      obtain rfl := hback.unique hback'
      rcases hok with hw | hn
      · exact .inl hw
      rcases (ih hh' hrest).mp hall with hw | htail
      · exact .inl hw
      refine .inr fun m hm => ?_
      by_cases hmn : m = n
      · subst hmn
        exact ⟨hn.1, fun c hc => Option.some.inj (hrem.symm.trans hc) ▸ hn.2⟩
      · have hm' := htail m ((List.mem_cons.mp hm).resolve_left hmn)
        rwa [Function.update_of_ne hmn] at hm'
    · intro hok
      have hn : h = .worker ∨ (uc n = true ∧ b.yields = []) := by
        refine hok.imp_right fun hall => ?_
        have hn := hall n List.mem_cons_self
        exact ⟨hn.1, hn.2 b hrem⟩
      obtain ⟨t', hback, hh'⟩ := hh.step hrem hn
      refine ⟨b, t', hrem, hback, (ih hh' hrest).mpr ?_⟩
      refine hok.imp_right fun hall m hm => ?_
      have hm' := hall m (List.mem_cons_of_mem n hm)
      refine ⟨hm'.1, fun c hc => ?_⟩
      by_cases hmn : m = n
      · -- the body that ended has nothing left
        subst hmn
        rw [Function.update_self, b.next_eq_none (hm'.2 b hrem)] at hc
        cases hc
      · rw [Function.update_of_ne hmn] at hc
        exact hm'.2 c hc

end Runs

/-- **Control returns to the resumer**: from the main fiber of a thread, fibers of any number are
resumed in any order, none after its end.  Every resume comes back if and only if `GetMainFiber()`
is the thread's main fiber, or all of them are built with `use_caller` and none yields. -/
theorem all_back_iff (h : Host) (uc : Nat → Bool) (bodies : Nat → Body) (rs : List Nat)
    (hrs : ∀ n, rs.count n ≤ (bodies n).yields.length + 1) :
    AllBack (h.thread uc bodies) (fun n => some (bodies n)) rs ↔
      (h.thread uc bodies).schedulerFiber = some .main ∨
        ∀ n ∈ rs, uc n = true ∧ (bodies n).yields = [] := by
  have hh := hosted_thread h uc bodies
  have hworker : h = .worker ↔ (h.thread uc bodies).schedulerFiber = some .main := by
    rw [hh.schedulerFiber]
    cases h <;> simp [Host.mainFiber]
  rw [hh.resumes_back_iff hrs, hworker]
  simp

/-- Two fibers on a worker thread, in turn. -/
theorem all_back_worker :
    (∀ n, [0, 1, 0].count n ≤ (Body.mk [.toHold] .ret).yields.length + 1) ∧
      AllBack (Host.worker.thread (fun n => n == 0) fun _ => ⟨[.toHold], .ret⟩)
        (fun _ => some ⟨[.toHold], .ret⟩) [0, 1, 0] := by
  have hrs : ∀ n, [0, 1, 0].count n ≤ (Body.mk [.toHold] .ret).yields.length + 1 := by
    intro n
    match n with
    | 0 | 1 => decide
    | n + 2 => simp
  exact ⟨hrs, (all_back_iff .worker _ _ _ hrs).mpr (.inl rfl)⟩

/-- Without a scheduler, a fiber resumed by `call()` accesses null at its first yield. -/
theorem not_all_back :
    ¬∀ (h : Host) (uc : Nat → Bool) (bodies : Nat → Body) (rs : List Nat),
      (∀ n, rs.count n ≤ (bodies n).yields.length + 1) →
        AllBack (h.thread uc bodies) (fun n => some (bodies n)) rs := by
  intro hall
  have hrs : ∀ n, [0].count n ≤ (Body.mk [.toHold] .ret).yields.length + 1 := by
    intro n
    rw [List.count_singleton]
    split <;> decide
  obtain ⟨b, t', -, hback, -⟩ := hall .bare (fun _ => true) (fun _ => ⟨[.toHold], .ret⟩) [0] hrs
  have hnull : (Host.bare.thread (fun _ => true) fun _ => ⟨[.toHold], .ret⟩).resume 0 =
      .fault .nullAccess := rfl
  rw [hback.returned] at hnull
  cases hnull

end LioNet.MainFiber
