import LioNet.Lib.Turns
import LioNet.Scheduler.Accounting

/-!
# Nobody jumps the queue

Every worker of a scheduler walks `m_fibers` from the front and takes the first entry that is for it, and
a fiber that yields goes to the back.  `Numbered` keeps the books of each queue beside a run: what
was pushed back, and what was taken out, both in order.

An entry that is bound to no thread is taken before all that were pushed back behind it, and one that is
bound to a thread before the later ones of the same thread (`in_turn`).  For a fiber that rests on its
being in nobody's hands while its entry waits, or a worker could come past it and find it executing
(line 145).  So for fibers it is a property of plain runs, and for functions of all runs.
-/

namespace LioNet.Scheduler

open LioNet.Lib

structure Numbered where
  state : State
  turns : SchedId → Turns Entry

def Numbered.init (u : Setup) : Numbered := ⟨u.init, fun _ => .empty⟩

/-- What is behind the old queue was pushed back. -/
def Numbered.grow (x : Numbered) (s' : State) : Numbered where
  state := s'
  turns i := (x.turns i).arrive ((s'.queue i).drop (x.state.queue i).length)

/-- The critical section of `run()`. -/
def Numbered.take (x : Numbered) (w : ThreadId) (s' : State) : Numbered where
  state := s'
  turns := Function.update x.turns (x.state.workers w).sched
    ((x.turns (x.state.workers w).sched).serve (x.state.takes w))

def Numbered.step (x : Numbered) (l : Label) : Option Numbered :=
  (Scheduler.step x.state l).map fun s' =>
    match l with
    | .run w => if (x.state.workers w).pc = .top then x.take w s' else x.grow s'
    | _ => x.grow s'

variable {s s' : State} {w : ThreadId} {x x' : Numbered} {u : Setup}

/-! ### The moves of the queues -/

/-- A worker at the head of the loop takes the first entry that is for it, if there is one. -/
theorem RunMove.queue_top (hm : RunMove s w s') (hpc : (s.workers w).pc = .top) (i : SchedId) :
    s'.queue i = if i = (s.workers w).sched then
      ((takeFirst (s.takes w) (s.queue i)).map Prod.snd).getD (s.queue i) else s.queue i := by
  cases hm with
  | take _ htake =>
    have htake' : takeFirst (s.takes w) (s.queue (s.workers w).sched) = some (_, _) := htake
    rw [State.setWorker_queue, State.setSched_queue]
    split
    · rename_i hi
      rw [hi, htake']
      rfl
    · rfl
  | noEntry _ htake =>
    have htake' : takeFirst (s.takes w) (s.queue (s.workers w).sched) = none := htake
    rw [State.setWorker_queue]
    split
    · rename_i hi
      rw [hi, htake']
      rfl
    · rfl
  | dropEnded hpc' | enterFiber hpc' | reuseFunc hpc' | newFunc hpc' | leave hpc' | toIdle hpc' | drop hpc'
    | begin hpc' | beginEmpty hpc' | resume hpc' | hold hpc' | save hpc' | saveBack hpc' | decr hpc'
    | keep hpc' | endFiber hpc' | endFunc hpc' | lostFiber hpc' | lostFunc hpc' | requeueFiber hpc'
    | requeueFunc hpc' | idleInc hpc' | idleIn hpc' | idleStop hpc' | idleWait hpc' | idleDec hpc' =>
    rw [hpc] at hpc'
    cases hpc'

theorem prefix_push (s : State) (i j : SchedId) (e : Entry) : s.queue j <+: (s.push i e).queue j := by
  rw [State.push_queue]
  split
  · rename_i hj
    rw [hj]
    exact List.prefix_append _ _
  · exact List.prefix_rfl

theorem prefix_accept (s : State) (i j : SchedId) (sp : Spawn) (t : Int) :
    s.queue j <+: (s.accept i sp t).queue j := by
  cases sp with
  | func => exact prefix_push _ i j _
  | fiber uc => exact prefix_push _ i j _

theorem prefix_acceptAll (s : State) (i j : SchedId) (sps : List Spawn) :
    s.queue j <+: (s.acceptAll i sps).queue j :=
  acceptAll_induction (I := fun s' => s.queue j <+: s'.queue j) s i sps List.prefix_rfl
    fun s' sp h => h.trans (prefix_accept s' i j sp _)

theorem RunMove.queue_grows (hm : RunMove s w s') (hpc : (s.workers w).pc ≠ .top) (j : SchedId) :
    s.queue j <+: s'.queue j := by
  rcases hm.queue with hq | ⟨_, _, htop, -⟩ | ⟨v, f, c, -, hq⟩
  · exact hq ▸ List.prefix_rfl
  · exact absurd htop hpc
  · rw [hq]
    split
    · exact List.prefix_append _ _
    · exact List.prefix_rfl

theorem BodyMove.queue_grows {v : Via} {f : FiberId} {a : Action} (hm : BodyMove s w v f a s')
    (j : SchedId) : s.queue j <+: s'.queue j := by
  cases hm with
  | schedule => exact prefix_accept s _ j _ _
  | scheduleAll => exact prefix_acceptAll s _ j _
  | self => exact prefix_push s _ j _
  | go =>
    refine List.IsPrefix.trans ?_ (prefix_push _ _ j _)
    unfold State.rehome
    split <;> exact List.prefix_rfl
  | stay | yield => exact List.prefix_rfl
  | ret | throw =>
    unfold State.finishTask
    split <;> exact List.prefix_rfl

/-- All but the critical section of `run()` leave the queues, or push back. -/
theorem queue_grows {l : Label} (hs : Scheduler.step s l = some s')
    (hl : ∀ w, l = .run w → (s.workers w).pc ≠ .top) (j : SchedId) : s.queue j <+: s'.queue j := by
  cases move_of_step hs with
  | run _ hm => exact hm.queue_grows (hl _ rfl) j
  | body _ _ hm => exact hm.queue_grows j
  | schedule => exact prefix_accept s _ j _ _
  | scheduleAll => exact prefix_acceptAll s _ j _
  | reschedule => exact prefix_push s _ j _
  | startAgain => exact List.prefix_rfl
  | launch => exact start_queue hs ▸ List.prefix_rfl
  | stop _ hm | owner _ hm => exact hm.queue ▸ List.prefix_rfl

/-! ### The books -/

theorem Numbered.of_step {l : Label} (h : x.step l = some x') :
    Scheduler.step x.state l = some x'.state ∧
      ((∃ w, l = .run w ∧ (x.state.workers w).pc = .top ∧ x' = x.take w x'.state) ∨
        (∀ w, l = .run w → (x.state.workers w).pc ≠ .top) ∧ x' = x.grow x'.state) := by
  obtain ⟨s', hs, rfl⟩ := Option.map_eq_some_iff.mp h
  cases l with
  | run w =>
    by_cases hpc : (x.state.workers w).pc = .top
    · simp only [if_pos hpc]
      exact ⟨hs, .inl ⟨w, rfl, hpc, rfl⟩⟩
    · simp only [if_neg hpc]
      refine ⟨hs, .inr ⟨fun w' hw => ?_, rfl⟩⟩
      cases hw
      exact hpc
  | _ => exact ⟨hs, .inr ⟨fun _ hw => (nomatch hw), rfl⟩⟩

/-- The books are about the queues of the program. -/
def Numbered.Agrees (x : Numbered) : Prop := ∀ i, (x.turns i).queue = x.state.queue i

theorem Numbered.Agrees.step {l : Label} (hA : x.Agrees) (h : x.step l = some x') : x'.Agrees := by
  intro i
  obtain ⟨hs, ⟨w, rfl, hpc, hx⟩ | ⟨hl, hx⟩⟩ := Numbered.of_step h
  · cases move_of_step hs with
    | run _ hm =>
      rw [hm.queue_top hpc i, hx]
      by_cases hi : i = (x.state.workers w).sched
      · rw [if_pos hi, ← hA i, hi]
        show (Function.update x.turns _ _ _).queue = _
        rw [Function.update_self, Turns.queue_serve]
      · rw [if_neg hi, ← hA i]
        show (Function.update x.turns _ _ i).queue = _
        rw [Function.update_of_ne hi]
  · rw [hx]
    show ((x.turns i).arrive _).queue = x'.state.queue i
    rw [Turns.queue_arrive, hA i]
    exact List.prefix_iff_eq_append.mp (queue_grows hs hl i)

/-! ### Whoever would take the later entry would take the earlier one -/

/-- A thread that may take `e'` may take `e`. -/
def Entry.Precedes (e e' : Entry) : Prop := e.thread = -1 ∨ e.thread = e'.thread

/-- No worker comes past the entry because its fiber is executing. -/
def Entry.Rests (s : State) (e : Entry) : Prop :=
  ∀ f, e.job.fiberId = some f → (s.fibers f).state ≠ .exec

theorem takes_of_precedes {e e' : Entry} (hrests : e.Rests s) (hprec : e.Precedes e')
    (h : s.takes w e' = true) : s.takes w e = true := by
  have hthread : (e.thread == -1 || e.thread == (w : Int)) = true := by
    have h' := (Bool.and_eq_true_iff.mp h).1
    rcases hprec with hp | hp
    · rw [hp]
      rfl
    · rw [hp]
      exact h'
  refine Bool.and_eq_true_iff.mpr ⟨hthread, ?_⟩
  cases hj : e.job with
  | func k => rfl
  | fiber f k => exact bne_iff_ne.mpr (hrests f (by rw [hj]; rfl))

theorem Books.rests (h : Books s) {i : SchedId} {e : Entry} (he : e ∈ s.queue i) : e.Rests s := by
  intro f hf
  obtain ⟨k, hq⟩ := h.ledger.queued he
  exact (h.excl.rest (hq.unowned f hf)).state_ne_exec

/-! ### All runs -/

/-- What is known of a run whose moves meet `P`. -/
structure Run (P : Numbered → Label → Prop) (x : Numbered) : Prop where
  agrees : x.Agrees
  books : (∀ x l, P x l → l.plain = true) → Books x.state
  turns : ∀ i, (x.turns i).InTurn fun e e' =>
    e.Precedes e' ∧ (e.job.fiberId = none ∨ ∀ x l, P x l → l.plain = true)

theorem Run.step {P : Numbered → Label → Prop} {l : Label} (hR : Run P x) (hP : P x l)
    (h : x.step l = some x') : Run P x' := by
  obtain ⟨hs, hcases⟩ := Numbered.of_step h
  refine ⟨hR.agrees.step h, fun hplain => (hR.books hplain).step (hplain x l hP) hs, fun i => ?_⟩
  rcases hcases with ⟨w, rfl, hpc, hx⟩ | ⟨hl, hx⟩
  · rw [hx]
    show (Function.update x.turns _ _ i).InTurn _
    by_cases hi : i = (x.state.workers w).sched
    · subst hi
      rw [Function.update_self]
      refine (hR.turns _).serve fun e he e' hbefore htakes => ?_
      obtain ⟨hprec, hfunc | hplain⟩ := hbefore
      · refine takes_of_precedes (fun f hf => ?_) hprec htakes
        rw [hfunc] at hf
        cases hf
      · rw [hR.agrees] at he
        exact takes_of_precedes ((hR.books hplain).rests he) hprec htakes
    · rw [Function.update_of_ne hi]
      exact hR.turns i
  · rw [hx]
    exact (hR.turns i).arrive _

theorem Run.reach {P : Numbered → Label → Prop} (h : Reach Numbered.step P (Numbered.init u) x) :
    Run P x := by
  refine h.invariant ⟨fun _ => rfl, fun _ => ⟨Exclusive.init u, Ledger.init u⟩, fun _ => .start⟩ ?_
  intro x l x' hR hP hs
  exact hR.step hP hs

/-- **Nobody jumps the queue**, with any number of workers and in any order of their steps.  The books
are about `m_fibers`; what was pushed back waits or was taken, and was taken once; and an entry that was
taken was preceded by all earlier ones that are bound to no thread or to the same thread.  In runs that
are not plain this is so for functions. -/
theorem in_turn {P : Numbered → Label → Prop} (h : Reach Numbered.step P (Numbered.init u) x)
    (i : SchedId) :
    (x.turns i).queue = x.state.queue i ∧
      ((x.turns i).taken ++ (x.turns i).waiting).Perm (x.turns i).arrived.zipIdx ∧
      ∀ e e' n n', (e, n) ∈ (x.turns i).arrived.zipIdx → (e', n') ∈ (x.turns i).taken → n < n' →
        e.thread = -1 ∨ e.thread = e'.thread →
        (e.job.fiberId = none ∨ ∀ x l, P x l → l.plain = true) →
        [(e, n), (e', n')].Sublist (x.turns i).taken := by
  have hR := Run.reach h
  exact ⟨hR.agrees i, (hR.turns i).all,
    fun e e' n n' he he' hn hthread hrests => (hR.turns i).order he he' hn ⟨hthread, hrests⟩⟩

/-- The second worker comes past the entry of the first one.  Its function yields, and the one behind that
is next. -/
def pastTheOther : List Label :=
  [.start 0 [0, 1], .schedule 0 .func 0, .schedule 0 .func (-1), .schedule 0 .func 1] ++
    runWorker 1 3 ++ [.body 1 .yieldToHold] ++ runWorker 1 5

example :
    ∃ x, runs Numbered.step (Numbered.init (Setup.pool 2 (by decide))) pastTheOther = some x ∧
      (x.turns 0).waiting.map Prod.snd = [0, 3] ∧
      [(⟨.func 1, -1, false⟩, 1), (⟨.func 2, 1, false⟩, 2)].Sublist (x.turns 0).taken := by
  obtain ⟨x, hx, hc⟩ := exists_of_runs Numbered.step (Numbered.init (Setup.pool 2 (by decide))) pastTheOther
    (fun x => (x.turns 0).waiting.map Prod.snd = [0, 3] ∧
      (⟨.func 1, -1, false⟩, 1) ∈ (x.turns 0).arrived.zipIdx ∧
      (⟨.func 2, 1, false⟩, 2) ∈ (x.turns 0).taken) (by decide +kernel)
  obtain ⟨hwaiting, harrived, htaken⟩ := of_decide_eq_true hc
  have hreach : Reach Numbered.step (fun _ l => l.plain = true)
      (Numbered.init (Setup.pool 2 (by decide))) x :=
    .of_runs (p := fun l => l.plain = true) .refl (by decide) hx
  obtain ⟨-, -, horder⟩ := in_turn hreach 0
  exact ⟨x, hx, hwaiting, horder _ _ _ _ harrived htaken (by decide) (.inl rfl) (.inr fun _ _ h => h)⟩

end LioNet.Scheduler
