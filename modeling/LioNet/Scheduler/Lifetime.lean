import LioNet.Scheduler.Drain
import LioNet.Scheduler.Switching

/-!
# The end of a fiber

`Fiber::~Fiber` (`fiber.cc`, lines 88 to 104) tells the two kinds of fibers apart by `m_stack`: a
fiber with a stack must have ended or never begun, and its stack goes back to the allocator; one
without is a thread's main fiber, which is always EXEC.

The second constructor sets `m_stack` and `m_stacksize`.  The one without arguments sets neither, so
a main fiber has what the memory held before.  `Env` is all that a run depends on here: the memory
each fiber is built in, what `StackAllocator::Alloc` returned, and the sizes asked for.

The machine is the one of the schedulers, with the moves that build a main fiber, destroy a
scheduler and destroy a fiber.  A fiber's destructor may run at any time after its references are
gone; an entry of `m_fibers` and a handle outside are references too, and the machine does without
them, so it has more runs than the program.  `--s_fiber_count`, the log and the writes to `t_fiber`
are left out.
-/

namespace LioNet.Lifetime

open LioNet.Lib LioNet.Scheduler

/-! ### The constructors and the destructor -/

/-- The fibers that the library makes.  `task` is a `func_fiber`, or a fiber that was handed to
`schedule()`. -/
inductive Object
  | main (w : ThreadId)
  | root (i : SchedId)
  | idle (w : ThreadId)
  | task (f : FiberId)
  deriving DecidableEq, Repr

/-- What the memory held at `m_stack` and `m_stacksize` before the constructor ran. -/
structure Memory where
  stack : UInt64
  stacksize : UInt32
  deriving DecidableEq, Repr

/-- The fields of `Fiber` that the destructor reads; `0` is the null pointer. -/
structure Fields where
  stack : UInt64
  stacksize : UInt32
  state : FiberState
  hasFunc : Bool
  deriving DecidableEq, Repr

/-- A stack, as `Alloc` gave it or `Dealloc` gets it: the pointer and the size. -/
abbrev Block := UInt64 × UInt32

/-- `Fiber::Fiber()`: `m_stack` and `m_stacksize` are not set. -/
def Fields.construct (mem : Memory) : Fields where
  stack := mem.stack
  stacksize := mem.stacksize
  state := .exec
  hasFunc := false

/-- `Fiber::Fiber(func, stacksize, use_caller)`, where `stackSize` is the value of
`g_fiber_stack_size` and `p` what `Alloc` returned. -/
def Fields.constructChild (stacksize : UInt64) (stackSize : UInt32) (p : UInt64) : Fields where
  stack := p
  stacksize := if stacksize = 0 then stackSize else stacksize.toUInt32
  state := .init
  hasFunc := true

/-- `Fiber::~Fiber`: the call of `Dealloc`, if there is one; `none` is a failed assertion. -/
def Fields.destroy (F : Fields) : Option (Option Block) :=
  if F.stack ≠ 0 then
    if F.state = .term ∨ F.state = .except ∨ F.state = .init then some (some (F.stack, F.stacksize))
    else none
  else if F.hasFunc = false then
    if F.state = .exec then some none else none
  else none

/-! ### The machine -/

structure Env where
  prior : Object → Memory
  /-- the constructor's argument; the library passes 0 -/
  stacksize : Object → UInt64
  /-- `g_fiber_stack_size` at the construction -/
  stackSize : Object → UInt32
  /-- what `StackAllocator::Alloc` returned -/
  alloc : Object → UInt64

namespace Env

variable (env : Env)

def child (x : Object) : Fields :=
  Fields.constructChild (env.stacksize x) (env.stackSize x) (env.alloc x)

/-- The call of `Alloc` in the constructor, if there is one. -/
def allocated : Object → Option Block
  | .main _ => none
  | x => some (env.alloc x, (env.child x).stacksize)

/-- The members of a fiber.  Only the constructors write `m_stack` and `m_stacksize`; `idle()` and
`run()` do not throw, so the function is gone just when they have returned. -/
def fields (s : Scheduler.State) : Object → Fields
  | .main w => .construct (env.prior (.main w))
  | .root i =>
    { env.child (.root i) with
      state := (s.scheds i).rootFiber, hasFunc := (s.scheds i).rootFiber != .term }
  | .idle w =>
    { env.child (.idle w) with
      state := (s.workers w).idle, hasFunc := (s.workers w).idle != .term }
  | .task f =>
    { env.child (.task f) with
      state := (s.fibers f).state, hasFunc := (s.fibers f).func.isSome }

/-- `m_stack` is null in a main fiber and in no other. -/
def Apart : Object → Prop
  | .main w => (env.prior (.main w)).stack = 0
  | x => env.alloc x ≠ 0

end Env

structure State where
  sched : Scheduler.State
  /-- the threads that have built their main fiber -/
  mains : ThreadId → Bool
  deleted : SchedId → Bool
  /-- the destructors that have run, with what they did -/
  destroyed : List (Object × Option (Option Block))

inductive Label
  | sched (l : Scheduler.Label)
  /-- `Fiber::GetThis()` of a thread -/
  | getThis (w : ThreadId)
  /-- `~Scheduler` -/
  | delete (i : SchedId)
  /-- `~Fiber` -/
  | destroy (x : Object)
  deriving Repr

/-- The fiber exists, and the variable that was made for it has gone out of scope. -/
def State.released (s : State) : Object → Bool
  | .main w => s.mains w
  | .root i => s.deleted i && (s.sched.scheds i).rootThread.isSome
  | .idle w => (s.sched.workers w).pc == .left
  | .task f => f < s.sched.nextFiber

/-- `~Scheduler`: `m_fibers` and `m_rootFiber` go with it; `none` is the failed assertion. -/
def State.delete (s : State) (i : SchedId) : Option State :=
  let S := s.sched.scheds i
  if S.owner = .user ∧ S.stopping = true then
    some { s with
      sched := s.sched.setSched i { S with fibers := [] }
      deleted := Function.update s.deleted i true }
  else none

def step (env : Env) (s : State) : Label → Option State
  | .sched l => (Scheduler.step s.sched l).map fun t => { s with sched := t }
  | .getThis w => some { s with mains := Function.update s.mains w true }
  | .delete i => s.delete i
  | .destroy x =>
    if s.released x ∧ x ∉ s.destroyed.map Prod.fst then
      some { s with destroyed := (x, (env.fields s.sched x).destroy) :: s.destroyed }
    else none

def start (u : Setup) : State where
  sched := u.init
  mains _ := false
  deleted _ := false
  destroyed := []

/-- What else keeps a fiber: the locals of a `run()` that has not returned, and `cur` on the fiber's
own stack as long as its body has not ended. -/
def Unreferenced (s : Scheduler.State) : Object → Prop
  | .main _ | .idle _ => True
  | .root i => (s.scheds i).rootFiber ≠ .exec
  | .task f =>
    (∀ w, (s.workers w).pc ≠ .left → ¬(s.workers w).Owns f) ∧ ∀ b, (s.fibers f).ctx ≠ .suspended b

/-- A destructor runs when the last reference is gone. -/
def LastReference (s : State) : Label → Prop
  | .destroy x => Unreferenced s.sched x
  | _ => True

/-- The runs in which no worker takes a fiber that another still has in its hands. -/
def Orderly (s : State) (l : Label) : Prop :=
  LastReference s l ∧ ∀ m, l = .sched m → TakesFree s.sched m

/-- Every destructor passed its assertions, and gave back what its constructor allocated. -/
def Clean (env : Env) (s : State) : Prop :=
  ∀ x r, (x, r) ∈ s.destroyed → r = some (env.allocated x)

/-! ### One destructor -/

variable {env : Env} {u : Setup}

theorem destroy_main (mem : Memory) :
    (Fields.construct mem).destroy = some none ↔ mem.stack = 0 := by
  by_cases h : mem.stack = 0
  · simp [Fields.destroy, Fields.construct, h]
  · simp [Fields.destroy, Fields.construct, h]

/-- A fiber that has a stack passes when it has ended or never begun. -/
theorem destroy_child {F : Fields} (hs : F.state = .term ∨ F.state = .except ∨ F.state = .init) :
    F.destroy = some (some (F.stack, F.stacksize)) ↔ F.stack ≠ 0 := by
  have hx : F.state ≠ .exec := by
    rcases hs with hs | hs | hs <;> rw [hs] <;> decide
  by_cases h : F.stack = 0
  · simp [Fields.destroy, h, hx]
  · simp [Fields.destroy, h, hs]

/-- What a run keeps. -/
structure Kept (u : Setup) (s : Scheduler.State) : Prop where
  hands : Exclusive s
  root : RootOk u s
  left : ∀ w, (s.workers w).pc = .left → (s.workers w).idle = .term

/-- **The last reference goes when the body has ended or before it begins.** -/
theorem Kept.task_ended {s : Scheduler.State} (h : Kept u s) {f : FiberId}
    (hu : Unreferenced s (.task f)) :
    (s.fibers f).state = .term ∨ (s.fibers f).state = .except ∨ (s.fibers f).state = .init := by
  obtain ⟨hfree, hctx⟩ := hu
  by_cases ho : ∃ w, (s.workers w).Owns f
  · -- the worker has returned from `run()`, so the fiber was its reset `func_fiber`
    obtain ⟨w, ho⟩ := ho
    have hpc : (s.workers w).pc = .left := by
      by_contra hne
      exact hfree w hne ho
    have hspare : Spare s.fibers (s.workers w) := by
      have hok := h.hands.ok w
      simpa only [WorkerOk, hpc] using hok
    have hfunc : (s.workers w).funcFiber = some f := by
      rcases ho with ho | ho
      · simp [Worker.hands, hpc] at ho
      · exact ho
    exact .inr (.inr (hspare f hfunc).1)
  · have hrest := h.hands.rest fun w how => ho ⟨w, how⟩
    have hagree := hrest.2
    cases hst : (s.fibers f).state with
    | term => exact .inl rfl
    | except => exact .inr (.inl rfl)
    | init => exact .inr (.inr rfl)
    | exec => exact absurd hst hrest.state_ne_exec
    | hold | ready =>
      rw [hst] at hagree
      obtain ⟨b, hb⟩ := hagree
      exact absurd hb (hctx b)

theorem Kept.root_ended {s : Scheduler.State} (h : Kept u s) {i : SchedId}
    (ht : (s.scheds i).rootThread.isSome = true) (hu : Unreferenced s (.root i)) :
    (s.scheds i).rootFiber = .term ∨ (s.scheds i).rootFiber = .except ∨
      (s.scheds i).rootFiber = .init := by
  obtain ⟨w, hw⟩ := Option.isSome_iff_exists.mp ht
  obtain ⟨hroot, hsched⟩ := h.root.root_of_thread hw
  have hat := h.root.fiber hroot
  rw [State.schedOf, hsched] at hat
  cases hst : (s.scheds i).rootFiber with
  | term => exact .inl rfl
  | init => exact .inr (.inr rfl)
  | exec => exact absurd hst hu
  | hold | ready | except =>
    rw [hst] at hat
    exact hat.elim

/-- What one destructor does. -/
theorem Kept.destroy_iff {s : State} (h : Kept u s.sched) {x : Object}
    (hx : s.released x = true) (hu : Unreferenced s.sched x) :
    (env.fields s.sched x).destroy = some (env.allocated x) ↔ env.Apart x := by
  cases x with
  | main w => exact destroy_main (env.prior (.main w))
  | root i =>
    have ht : (s.sched.scheds i).rootThread.isSome = true := (Bool.and_eq_true_iff.mp hx).2
    exact destroy_child (h.root_ended ht hu)
  | idle w => exact destroy_child (.inl (h.left w (beq_iff_eq.mp hx)))
  | task f => exact destroy_child (h.task_ended hu)

/-! ### Whole runs -/

theorem Kept.init (u : Setup) : Kept u u.init where
  hands := Exclusive.init u
  root := RootOk.init u
  left w hpc := by
    rcases init_workers u w with hw | ⟨i, hw⟩ <;> rw [hw] at hpc <;> cases hpc

theorem Kept.sched {s s' : Scheduler.State} {l : Scheduler.Label} (h : Kept u s)
    (htake : TakesFree s l) (hs : Scheduler.step s l = some s') : Kept u s' where
  hands := h.hands.step htake hs
  root := h.root.step hs
  left w := step_left hs (h.left w)

/-- `~Scheduler` empties one queue and changes nothing else. -/
theorem Kept.delete {s : Scheduler.State} (h : Kept u s) (i : SchedId) :
    Kept u (s.setSched i { s.scheds i with fibers := [] }) where
  hands := by
    refine ⟨h.hands.toHands.touch_none rfl rfl rfl, ?_⟩
    intro j e he
    rw [State.setSched_queue] at he
    split at he
    · cases he
    · exact h.hands.queued j e he
  root := by
    have hw : (s.setSched i { s.scheds i with fibers := [] }).workers = s.workers := rfl
    apply h.root.congr hw
    exact sameControl_setSched ⟨rfl, rfl, rfl, rfl, rfl, rfl, rfl⟩
  left := h.left

/-- The invariant of a run: the destructors that have run were clean just where `m_stack` tells the
two kinds apart. -/
structure Sound (env : Env) (u : Setup) (s : State) : Prop where
  kept : Kept u s.sched
  log : ∀ x r, (x, r) ∈ s.destroyed → (r = some (env.allocated x) ↔ env.Apart x)

theorem Sound.step {s s' : State} {l : Label} (h : Sound env u s) (hl : Orderly s l)
    (hs : step env s l = some s') : Sound env u s' := by
  cases l with
  | sched m =>
    obtain ⟨t, ht, rfl⟩ := Option.map_eq_some_iff.mp hs
    exact ⟨h.kept.sched (hl.2 m rfl) ht, h.log⟩
  | getThis w =>
    obtain rfl := Option.some.inj hs
    exact ⟨h.kept, h.log⟩
  | delete i =>
    simp only [Lifetime.step, State.delete] at hs
    split at hs
    · obtain rfl := Option.some.inj hs
      exact ⟨h.kept.delete i, h.log⟩
    · cases hs
  | destroy x =>
    simp only [Lifetime.step] at hs
    split at hs
    · rename_i hx
      obtain rfl := Option.some.inj hs
      refine ⟨h.kept, ?_⟩
      intro y r hy
      rcases List.mem_cons.mp hy with hy | hy
      · cases hy
        exact h.kept.destroy_iff hx.1 hl.1
      · exact h.log y r hy
    · cases hs

theorem Sound.reach {s : State} (h : Reach (Lifetime.step env) Orderly (start u) s) : Sound env u s :=
  h.invariant ⟨Kept.init u, fun _ _ hx => by cases hx⟩ fun hI hP hs => hI.step hP hs

/-- **The destructors of a run are clean exactly when `m_stack` tells main fibers from the others**:
the memory of each main fiber destroyed held a null pointer there, and `Alloc` gave every other one
a stack. -/
theorem destructors_clean_iff {s : State} (h : Reach (step env) Orderly (start u) s) :
    Clean env s ↔ ∀ x ∈ s.destroyed.map Prod.fst, env.Apart x := by
  have hlog := (Sound.reach h).log
  constructor
  · intro hc x hx
    obtain ⟨⟨y, r⟩, hmem, rfl⟩ := List.mem_map.mp hx
    exact (hlog y r hmem).mp (hc y r hmem)
  · intro hapart x r hmem
    exact (hlog x r hmem).mpr (hapart x (List.mem_map_of_mem hmem))

/-! ### Runs of one and of two workers -/

/-- `LastReference`, as a test for runs with the threads of a list. -/
def lastReferenceCheck (ws : List ThreadId) (s : State) : Label → Bool
  | .sched (.start _ ws') => ws'.all (ws.contains ·)
  | .destroy (.root i) => (s.sched.scheds i).rootFiber != .exec
  | .destroy (.task f) =>
    ((s.sched.fibers f).ctx == .finished || (s.sched.fibers f).ctx == .entry) && ws.all fun w =>
      (s.sched.workers w).pc == .left ||
        (s.sched.workers w).hands != some f && (s.sched.workers w).funcFiber != some f
  | _ => true

/-- Only the threads of the list have been launched, and the others own nothing. -/
structure Launched (ws : List ThreadId) (s : Scheduler.State) : Prop where
  only : OnlyThreads ws s
  free : ∀ w f, (s.workers w).pc = .absent → ¬(s.workers w).Owns f

theorem Launched.init {ws : List ThreadId} (h : ∀ w, w ∉ ws → u.rootOf w = none) :
    Launched ws u.init :=
  ⟨OnlyThreads.init h, fun w f _ => init_owns u w f⟩

theorem Launched.step {ws : List ThreadId} {s s' : State} {l : Label} (h : Launched ws s.sched)
    (hl : lastReferenceCheck ws s l = true) (hs : step env s l = some s') :
    Launched ws s'.sched := by
  cases l with
  | sched m =>
    obtain ⟨t, ht, rfl⟩ := Option.map_eq_some_iff.mp hs
    constructor
    · apply h.only.step _ ht
      intro i ws' hm w hw
      subst hm
      simpa using List.all_eq_true.mp hl w hw
    · intro w f hpc
      have hsame : t.workers w = s.sched.workers w := step_absent ht hpc
      change (t.workers w).pc = .absent at hpc
      change ¬(t.workers w).Owns f
      rw [hsame] at hpc ⊢
      exact h.free w f hpc
  | getThis w =>
    obtain rfl := Option.some.inj hs
    exact h
  | delete i =>
    simp only [Lifetime.step, State.delete] at hs
    split at hs
    · obtain rfl := Option.some.inj hs
      exact ⟨h.only, h.free⟩
    · cases hs
  | destroy x =>
    simp only [Lifetime.step] at hs
    split at hs
    · obtain rfl := Option.some.inj hs
      exact h
    · cases hs

theorem lastReference_of_check {ws : List ThreadId} {s : State} {l : Label}
    (h : Launched ws s.sched) (hl : lastReferenceCheck ws s l = true) : LastReference s l := by
  cases l with
  | sched m => trivial
  | getThis w => trivial
  | delete i => trivial
  | destroy x =>
    cases x with
    | main w => trivial
    | idle w => trivial
    | root i => exact bne_iff_ne.mp hl
    | task f =>
      simp only [lastReferenceCheck, Bool.and_eq_true, Bool.or_eq_true, beq_iff_eq, bne_iff_ne,
        List.all_eq_true] at hl
      obtain ⟨hctx, hws⟩ := hl
      constructor
      · intro w hpc how
        have hmem : w ∈ ws := by
          by_contra hw
          exact h.free w f (h.only w hw) how
        rcases hws w hmem with hleft | ⟨hhands, hfunc⟩
        · exact hpc hleft
        · exact how.elim hhands hfunc
      · intro b hb
        rw [hb] at hctx
        rcases hctx with hc | hc <;> cases hc

/-- `Orderly`, as a test. -/
def orderlyCheck (ws : List ThreadId) (s : State) (l : Label) : Bool :=
  lastReferenceCheck ws s l &&
    match l with
    | .sched m => takesFreeCheck ws s.sched m
    | _ => true

theorem orderly_of_check {ws : List ThreadId} {s s' : State} {l : Label} (hI : Sound env u s)
    (hw : Launched ws s.sched) (h : orderlyCheck ws s l = true) (hs : step env s l = some s') :
    Orderly s l ∧ Sound env u s' ∧ Launched ws s'.sched := by
  obtain ⟨hlast, htake⟩ := Bool.and_eq_true_iff.mp h
  have hord : Orderly s l := by
    refine ⟨lastReference_of_check hw hlast, ?_⟩
    intro m hm
    subst hm
    obtain ⟨t, ht, -⟩ := Option.map_eq_some_iff.mp hs
    exact (takesFree_of_check hI.kept.hands hw.only htake ht).1
  exact ⟨hord, hI.step hord hs, hw.step hlast hs⟩

/-- Every fiber is built where `m_stack` reads `p`, with the default stack. -/
def Env.withPrior (p : UInt64) : Env where
  prior _ := ⟨p, 0⟩
  stacksize _ := 0
  stackSize _ := 128 * 1024
  alloc _ := 4096

theorem withPrior_alloc (p : UInt64) (x : Object) : (Env.withPrior p).alloc x ≠ 0 :=
  (by decide : (4096 : UInt64) ≠ 0)

theorem withPrior_apart (x : Object) : (Env.withPrior 0).Apart x := by
  cases x with
  | main w => rfl
  | root i => exact withPrior_alloc 0 (.root i)
  | idle w => exact withPrior_alloc 0 (.idle w)
  | task f => exact withPrior_alloc 0 (.task f)

/-- One worker runs one function, and leaves when the scheduler is stopped. -/
def stoppedWork : List Scheduler.Label :=
  [.start 0 [0], .schedule 0 .func (-1)] ++ runWorker 0 3 ++ [.body 0 .ret] ++ runWorker 0 3 ++
    [.stop 0, .owner 0, .owner 0] ++ runWorker 0 8 ++ [.owner 0]

/-- The scheduler and all the fibers go. -/
def destroyedRun : List Label :=
  .getThis 0 :: stoppedWork.map .sched ++
    [.delete 0, .destroy (.task 0), .destroy (.idle 0), .destroy (.main 0)]

theorem destructors_clean_iff_one_worker :
    ∃ s, runs (guarded (step (.withPrior 0)) (orderlyCheck [0])) (start (Setup.pool 1 (by decide)))
      destroyedRun = some s ∧ s.destroyed.length = 3 ∧ Clean (.withPrior 0) s := by
  obtain ⟨s, hr, hc⟩ := exists_of_runs (guarded (step (.withPrior 0)) (orderlyCheck [0]))
    (start (Setup.pool 1 (by decide))) destroyedRun
    (fun s => s.destroyed.map Prod.fst == [.main 0, .idle 0, .task 0]) (by decide +kernel)
  have hlog : s.destroyed.map Prod.fst = [.main 0, .idle 0, .task 0] := beq_iff_eq.mp hc
  obtain ⟨hreach, -⟩ := Reach.of_guarded (P := Orderly)
    (I := fun s => Sound (.withPrior 0) (Setup.pool 1 (by decide)) s ∧ Launched [0] s.sched)
    .refl ⟨Sound.reach .refl, Launched.init fun _ _ => rfl⟩
    (fun hI hp hs => orderly_of_check hI.1 hI.2 hp hs) hr
  have hlen := congrArg List.length hlog
  rw [List.length_map] at hlen
  exact ⟨s, hr, hlen, (destructors_clean_iff hreach).mpr fun x _ => withPrior_apart x⟩

/-- A thread builds its main fiber where `m_stack` is not null, and ends: the destructor takes the
fiber for one that has a stack. -/
theorem not_clean :
    ¬∀ (env : Env) (u : Setup) (s : State), (∀ x, env.alloc x ≠ 0) →
      Reach (step env) LastReference (start u) s → Clean env s := by
  intro h
  obtain ⟨s, hr, hc⟩ := exists_of_runs (guarded (step (.withPrior 1)) (lastReferenceCheck []))
    (start (Setup.pool 1 (by decide))) [.getThis 0, .destroy (.main 0)]
    (fun s => s.destroyed == [(.main 0, none)]) (by decide +kernel)
  obtain ⟨hreach, -⟩ := Reach.of_guarded (P := LastReference) (I := fun s => Launched [] s.sched)
    .refl (Launched.init (u := Setup.pool 1 (by decide)) fun _ _ => rfl)
    (fun hI hp hs => ⟨lastReference_of_check hI hp, hI.step hp hs⟩) hr
  have hclean := h _ _ s (withPrior_alloc 1) hreach (.main 0) none
  rw [beq_iff_eq.mp hc] at hclean
  cases hclean (List.mem_singleton.mpr rfl)

/-- Worker 1 takes the function's fiber while worker 0 still has it as `func_fiber`.  It ends there,
worker 0 resets it, and worker 1 reads INIT and writes HOLD. -/
def tornWork : List Scheduler.Label :=
  [.start 0 [0, 1], .schedule 0 .func (-1)] ++ runWorker 0 3 ++
    [.body 0 (.scheduleSelf 0 (-1)), .body 0 .yieldToHold] ++ runWorker 0 1 ++ runWorker 1 3 ++
    [.body 1 .ret] ++ runWorker 1 2 ++ runWorker 0 2 ++ runWorker 1 1 ++ [.stop 0, .owner 0] ++
    runWorker 0 8

/-- Null pointers in the main fibers are not enough when a fiber is taken out of another's hands. -/
theorem not_clean_torn :
    ¬∀ (env : Env) (u : Setup) (s : State), (∀ x, env.Apart x) →
      Reach (step env) LastReference (start u) s → Clean env s := by
  intro h
  obtain ⟨s, hr, hc⟩ := exists_of_runs (guarded (step (.withPrior 0)) (lastReferenceCheck [0, 1]))
    (start (Setup.pool 2 (by decide))) (tornWork.map .sched ++ [.destroy (.task 0)])
    (fun s => s.destroyed == [(.task 0, none)]) (by decide +kernel)
  obtain ⟨hreach, -⟩ := Reach.of_guarded (P := LastReference) (I := fun s => Launched [0, 1] s.sched)
    .refl (Launched.init (u := Setup.pool 2 (by decide)) fun _ _ => rfl)
    (fun hI hp hs => ⟨lastReference_of_check hI hp, hI.step hp hs⟩) hr
  have hclean := h _ _ s withPrior_apart hreach (.task 0) none
  rw [beq_iff_eq.mp hc] at hclean
  cases hclean (List.mem_singleton.mpr rfl)

end LioNet.Lifetime
