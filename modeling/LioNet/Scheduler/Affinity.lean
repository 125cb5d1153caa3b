import LioNet.Scheduler.Control
import LioNet.Scheduler.Accounting

/-!
# A task and the thread it was scheduled with

`schedule(task, t)` puts `t` into the entry, and the dispatch loop passes over entries of other
threads.  The binding lives in the entry only: when the task yields, `run()` makes the new entry with
`schedule(ft.fiber)` or `schedule(func_fiber)`, whose thread is `-1`.

So a bound task stays on its thread as long as such an entry can reach no other thread: `Affine` says
when.
-/

namespace LioNet.Scheduler

open LioNet.Lib

/-- No thread but `t` is in `run()` of scheduler `i` or will still enter it: the others have not been
launched or have left.  A root worker that has not been called yet counts as one that will enter. -/
def OthersGone (s : State) (i : SchedId) (t : Int) : Prop :=
  ∀ w : ThreadId, (s.workers w).sched = i → (w : Int) ≠ t →
    (s.workers w).pc = .absent ∨ (s.workers w).pc = .left

/-- Plain tasks; a bound task is put back only when no other thread is left that could take it, and
`start()` launches none while it waits. -/
structure AffineRun (s : State) (l : Label) : Prop where
  plain : l.plain = true
  requeue : ∀ w v f c k, l = .run w → (s.workers w).pc = .exec v f (.requeue c) →
    (s.fibers f).func = some k → (s.tasks k).bound ≠ -1 →
    OthersGone s (s.workers w).sched (s.tasks k).bound
  start : ∀ i ws, l = .start i ws → (s.scheds i).stopping = true → ∀ e ∈ s.queue i, ∀ k,
    e.task = some k → e.thread = -1 → (s.tasks k).bound = -1

/-- Every segment of a task is executed by the thread that the task was scheduled with. -/
def OnBoundThread (s : State) : Prop :=
  ∀ (w : ThreadId) (f : FiberId) (k : TaskId), s.Executes w f → (s.fibers f).func = some k →
    (s.tasks k).bound ≠ -1 → (w : Int) = (s.tasks k).bound

/-- Task `k` is in the hands of worker `w`. -/
def State.Handles (s : State) (w : ThreadId) (k : TaskId) : Prop :=
  ((s.workers w).pc = .dispatch ∧ (s.workers w).ft.bind Entry.task = some k) ∨
    ∃ v f st, (s.workers w).pc = .exec v f st ∧ (s.fibers f).func = some k

/-- A bound task waits in an entry of its thread, or in one that no other thread is there to take;
and it is in no other thread's hands. -/
structure Affine (s : State) : Prop where
  queue : ∀ {i e k}, e ∈ s.queue i → e.task = some k → (s.tasks k).bound ≠ -1 →
    e.thread = (s.tasks k).bound ∨ (e.thread = -1 ∧ OthersGone s i (s.tasks k).bound)
  hands : ∀ {w k}, s.Handles w k → k < s.nextTask ∧
    ((s.tasks k).bound ≠ -1 → (w : Int) = (s.tasks k).bound)

variable {s s' : State} {w : ThreadId} {k : TaskId} {i : SchedId}

/-! ### Frames -/

/-- A worker's move keeps the binding of every task. -/
theorem RunMove.bound (hm : RunMove s w s') (k : TaskId) :
    s'.nextTask = s.nextTask ∧ (s'.tasks k).bound = (s.tasks k).bound := by
  cases hm with
  | @begin v f k' hpc hctx hk =>
    by_cases e : k = k'
    · subst e
      simp
    · simp [e]
  | leave => simp
  | _ => exact ⟨rfl, rfl⟩

theorem acceptAll_bound (s : State) (i : SchedId) (sps : List Spawn) :
    s.nextTask ≤ (s.acceptAll i sps).nextTask ∧
      ∀ k, k < s.nextTask → (s.acceptAll i sps).tasks k = s.tasks k := by
  refine acceptAll_induction (I := fun t => s.nextTask ≤ t.nextTask ∧
    ∀ k, k < s.nextTask → t.tasks k = s.tasks k) s i sps ⟨Nat.le_refl _, fun _ _ => rfl⟩ ?_
  rintro t sp ⟨hn, hk⟩
  refine ⟨by rw [accept_nextTask]; omega, fun k hlt => ?_⟩
  have hne : k ≠ t.nextTask := Nat.ne_of_lt (Nat.lt_of_lt_of_le hlt hn)
  rw [accept_tasks, Function.update_of_ne hne, hk k hlt]

/-- A write to the ledger that keeps the binding of its line keeps every binding. -/
theorem setTask_bound {k' : TaskId} {T : Task} (hT : T.bound = (s.tasks k').bound) (k : TaskId) :
    ((s.setTask k' T).tasks k).bound = (s.tasks k).bound := by
  by_cases e : k = k'
  · subst e
    simpa using hT
  · simp [e]

theorem finishTask_bound (s : State) (f : FiberId) (k : TaskId) :
    ((s.finishTask f).tasks k).bound = (s.tasks k).bound := by
  unfold State.finishTask
  split
  · exact setTask_bound (by rfl) k
  · rfl

theorem rehome_bound (s : State) (f : FiberId) (i : SchedId) (k : TaskId) :
    ((s.rehome f i).tasks k).bound = (s.tasks k).bound ∧ (s.rehome f i).nextTask = s.nextTask := by
  unfold State.rehome
  split
  · exact ⟨setTask_bound (by rfl) k, rfl⟩
  · exact ⟨rfl, rfl⟩

/-- No move changes the binding of an accepted task. -/
theorem step_bound {l : Label} (hs : step s l = some s') (hk : k < s.nextTask) :
    k < s'.nextTask ∧ (s'.tasks k).bound = (s.tasks k).bound := by
  have hne : k ≠ s.nextTask := Nat.ne_of_lt hk
  have haccept : ∀ i sp t, k < (s.accept i sp t).nextTask ∧
      ((s.accept i sp t).tasks k).bound = (s.tasks k).bound := by
    intro i sp t
    rw [accept_nextTask, accept_tasks, Function.update_of_ne hne]
    exact ⟨Nat.lt_succ_of_lt hk, rfl⟩
  have hall : ∀ i sps, k < (s.acceptAll i sps).nextTask ∧
      ((s.acceptAll i sps).tasks k).bound = (s.tasks k).bound := by
    intro i sps
    obtain ⟨hn, hb⟩ := acceptAll_bound s i sps
    exact ⟨Nat.lt_of_lt_of_le hk hn, by rw [hb k hk]⟩
  cases move_of_step hs with
  | run _ hm =>
    obtain ⟨hn, hb⟩ := hm.bound k
    exact ⟨hn ▸ hk, hb⟩
  | @body w v f a _ _ hpc hm =>
    cases hm with
    | schedule => exact haccept _ _ _
    | scheduleAll => exact hall _ _
    | @go _ l sw _ _ =>
      obtain ⟨hb, hn⟩ := rehome_bound (s.setSwitchers f l) f sw.target k
      exact ⟨by simpa [hn] using hk, hb⟩
    | ret | throw => exact ⟨by simpa [State.leaveBody] using hk, finishTask_bound s f k⟩
    | self | stay | yield => exact ⟨hk, rfl⟩
  | schedule => exact haccept _ _ _
  | scheduleAll => exact hall _ _
  | reschedule | startAgain | launch => exact ⟨hk, rfl⟩
  | stop _ hm | owner _ hm =>
    obtain ⟨S, rfl, -⟩ := hm.frame
    exact ⟨hk, rfl⟩

/-- A worker that is not in `run()` stays out of it, unless `start()` launches it. -/
theorem OthersGone.step {l : Label} {t : Int} (h : OthersGone s i t)
    (hs : Scheduler.step s l = some s')
    (hl : ∀ ws, l = .start i ws → (s.scheds i).stopping = false) : OthersGone s' i t := by
  intro w hw hne
  by_cases hlw : l.worker = some w
  · -- a worker that moves is in `run()`
    have hp : (s.workers w).pc ≠ .absent := fun hpc => worker_ne_of_out (.inl hpc) hs hlw
    have hgone := h w ((step_mark hs hp).1.symm.trans hw) hne
    exact absurd hlw (worker_ne_of_out hgone hs)
  · rcases step_worker_other hs hlw with hsame | ⟨j, ws, rfl, hmem, habs, hfresh⟩
    · rw [hsame] at hw ⊢
      exact h w hw hne
    · rw [hfresh] at hw
      obtain rfl : j = i := hw
      obtain ⟨-, ⟨rfl, -⟩ | ⟨hst, -⟩⟩ := start_cases hs
      · exact .inl habs
      · rw [hl ws rfl] at hst
        cases hst

/-! ### Which task a worker handles -/

theorem Handles.exec {v : Via} {f : FiberId} {st : Stage} (hpc : (s.workers w).pc = .exec v f st)
    (hk : (s.fibers f).func = some k) : s.Handles w k :=
  .inr ⟨v, f, st, hpc, hk⟩

/-- A worker handles the task it handled, or the one in the entry it takes. -/
theorem RunMove.handles (hv : Visit s w) (hm : RunMove s w s') (h : s'.Handles w k) :
    s.Handles w k ∨ (s.workers w).pc = .top ∧
      ∃ e ∈ s.queue (s.workers w).sched, s.takes w e = true ∧ e.task = some k := by
  -- within a visit the fiber's function is only ever cleared
  have hstage : ∀ {v f st st' F}, (s.workers w).pc = .exec v f st →
      s'.workers = Function.update s.workers w ((s.workers w).goto (.exec v f st')) →
      s'.fibers = Function.update s.fibers f F → F.func = (s.fibers f).func → s.Handles w k := by
    intro v f st st' F hpc hws hfib hF
    have hw : s'.workers w = (s.workers w).goto (.exec v f st') := by simp [hws]
    rcases h with ⟨hd, -⟩ | ⟨v', f', st'', hpc', hk⟩
    · rw [hw] at hd
      cases hd
    · rw [hw] at hpc'
      obtain ⟨rfl, rfl, rfl⟩ : v = v' ∧ f = f' ∧ st' = st'' := by simpa using hpc'
      rw [hfib, Function.update_self, hF] at hk
      exact Handles.exec hpc hk
  have hfree : ∀ pc, (s'.workers w).pc = pc → pc ≠ .dispatch → (∀ v f st, pc ≠ .exec v f st) →
      s.Handles w k := by
    intro pc hpc hd he
    rcases h with ⟨hd', -⟩ | ⟨v', f', st'', hpc', -⟩
    · exact absurd (hpc.symm.trans hd') hd
    · exact absurd (hpc.symm.trans hpc') (he v' f' st'')
  have hwrap : ∀ {k' t b f}, (s.workers w).pc = .dispatch →
      (s.workers w).ft = some ⟨.func k', t, b⟩ → (s'.workers w).pc = .exec .func f .enter →
      (s'.fibers f).func = some k' → s.Handles w k := by
    intro k' t b f hd hft hpc hf
    rcases h with ⟨hd', -⟩ | ⟨v', f', st'', hpc', hk⟩
    · rw [hpc] at hd'
      cases hd'
    · rw [hpc] at hpc'
      obtain ⟨rfl, rfl, rfl⟩ : Via.func = v' ∧ f = f' ∧ Stage.enter = st'' := by simpa using hpc'
      obtain rfl : k' = k := Option.some.inj (hf.symm.trans hk)
      exact .inl ⟨hd, by rw [hft]; rfl⟩
  cases hm with
  | @take e q hpc htake =>
    rcases h with ⟨-, hk⟩ | ⟨v, f, st, hpc', -⟩
    · simp only [State.setWorker_workers, Function.update_self, Option.bind_some] at hk
      exact .inr ⟨hpc, e, takeFirst_mem htake, takeFirst_pass htake, hk⟩
    · simp at hpc'
  | noEntry =>
    rcases h with ⟨-, hk⟩ | ⟨v, f, st, hpc', -⟩
    · simp at hk
    · simp at hpc'
  | @enterFiber f t b _ hpc hft he =>
    left
    obtain ⟨k', rfl, hk', -⟩ := hv.dispatch hpc hft
    rcases h with ⟨hd, -⟩ | ⟨v, g, st, hpc', hk⟩
    · simp at hd
    · obtain ⟨rfl, rfl, rfl⟩ : Via.ft = v ∧ f = g ∧ Stage.enter = st := by simpa using hpc'
      obtain rfl : k' = k := Option.some.inj (hk'.symm.trans hk)
      exact .inl ⟨hpc, by rw [hft]; rfl⟩
  | @reuseFunc k' t b f F hpc hft hf hF =>
    obtain ⟨-, rfl⟩ := Fiber.reset_eq_some_iff.mp hF
    exact .inl (hwrap (f := f) hpc hft (by simp) (by simp [Fiber.construct]))
  | newFunc hpc hft hf =>
    exact .inl (hwrap (f := s.nextFiber) hpc hft (by simp) (by simp [Fiber.construct]))
  | leave =>
    exact .inl (hfree .left (by simp) (by simp) (by simp))
  | dropEnded | toIdle | drop | endFiber | endFunc | lostFiber | lostFunc | requeueFiber
    | requeueFunc | idleInc | idleIn | idleStop | idleWait | idleDec =>
    exact .inl (hfree _ rfl (by simp [State.decActive]) (by simp [State.decActive]))
  | begin hpc _ _ | beginEmpty hpc _ _ | resume hpc _ | hold hpc _ | save hpc _ | saveBack hpc _ _ =>
    exact .inl (hstage hpc rfl rfl rfl)
  | @decr v f c hpc =>
    exact .inl (hstage (F := s.fibers f) hpc rfl (by simp [State.decActive]) rfl)
  | @keep v f c hpc hy => exact .inl (hstage (F := s.fibers f) hpc rfl (by simp) rfl)

/-- A plain body keeps its function until it ends. -/
theorem BodyMove.handles {v : Via} {f : FiberId} {a : Action} (ha : a.plain = true)
    (hE : Exclusive s) (hpc : (s.workers w).pc = .exec v f .running) (hm : BodyMove s w v f a s')
    (h : s'.Handles w k) : s.Handles w k := by
  have hlt : f < s.nextFiber := hE.bound (owns_exec hpc)
  obtain ⟨-, st', hws⟩ := hm.control hpc
  have hw : s'.workers w = (s.workers w).goto (.exec v f st') := by simp [hws]
  have hfunc : ∀ k, (s'.fibers f).func = some k → (s.fibers f).func = some k := by
    intro k hk
    cases hm with
    | schedule => rwa [accept_fibers _ _ _ _ (Nat.ne_of_lt hlt)] at hk
    | scheduleAll => rwa [(acceptAll_frame s _ _).2.2 f hlt] at hk
    | self | stay => exact hk
    | go hn _ => exact absurd ha (Action.not_plain hn)
    | yield | throw => simpa [State.leaveBody, Fiber.threw] using hk
    | ret => simp [State.leaveBody, Fiber.returned] at hk
  rcases h with ⟨hd, -⟩ | ⟨v', f', st'', hpc', hk⟩
  · rw [hw] at hd
    cases hd
  · rw [hw] at hpc'
    obtain ⟨rfl, rfl, rfl⟩ : v = v' ∧ f = f' ∧ st' = st'' := by simpa using hpc'
    exact Handles.exec hpc (hfunc k hk)

/-- The same for any worker and any move. -/
theorem step_handles {l : Label} (hB : Books s) (hl : l.plain = true)
    (hs : Scheduler.step s l = some s') (h : s'.Handles w k) :
    s.Handles w k ∨ (s.workers w).pc = .top ∧
      ∃ e ∈ s.queue (s.workers w).sched, s.takes w e = true ∧ e.task = some k := by
  by_cases hlw : l.worker = some w
  · cases move_of_step hs with
    | @run w' _ _ hm =>
      obtain rfl : w' = w := Option.some.inj hlw
      exact hm.handles (hB.ledger.visit w') h
    | @body w' v f a _ _ hpc hm =>
      obtain rfl : w' = w := Option.some.inj hlw
      exact .inl (hm.handles hl hB.excl hpc h)
    | _ => cases hlw
  · left
    rcases step_worker_other hs hlw with hsame | ⟨j, ws, -, -, -, hfresh⟩
    · rcases h with ⟨hd, hk⟩ | ⟨v, f, st, hpc, hk⟩
      · rw [hsame] at hd hk
        exact .inl ⟨hd, hk⟩
      · rw [hsame] at hpc
        rw [(hB.excl.step_other hs hlw (owns_exec hpc)).2] at hk
        exact Handles.exec hpc hk
    · rcases h with ⟨hd, -⟩ | ⟨v, f, st, hpc, -⟩
      · rw [hfresh] at hd
        cases hd
      · rw [hfresh] at hpc
        cases hpc

/-! ### The invariant -/

theorem Ledger.queued_lt (h : Ledger s) {e : Entry} (he : e ∈ s.queue i) (hk : e.task = some k) :
    k < s.nextTask := by
  obtain ⟨k', hq⟩ := h.queued he
  obtain rfl : k' = k := Option.some.inj (hq.task.symm.trans hk)
  exact h.fresh hq.isOpen.1

/-- A worker takes a bound task only on the task's thread. -/
theorem Affine.taken (h : Affine s) {e : Entry} (he : e ∈ s.queue (s.workers w).sched)
    (htake : s.takes w e = true) (hpc : (s.workers w).pc = .top) (hk : e.task = some k)
    (hb : (s.tasks k).bound ≠ -1) : (w : Int) = (s.tasks k).bound := by
  unfold State.takes at htake
  simp only [Bool.and_eq_true, Bool.or_eq_true, beq_iff_eq] at htake
  rcases h.queue he hk hb with hq | ⟨hq, hgone⟩
  · rcases htake.1 with ht | ht
    · exact absurd (hq.symm.trans ht) hb
    · exact ht.symm.trans hq
  · by_contra hne
    rcases hgone w rfl hne with hp | hp <;> rw [hpc] at hp <;> cases hp

/-- A move that puts nothing new into the queues but what `run()` puts back. -/
theorem Affine.of_moves {l : Label} (h : Affine s) (hB : Books s) (hl : AffineRun s l)
    (hs : Scheduler.step s l = some s')
    (hqueue : ∀ {i e}, e ∈ s'.queue i → e ∈ s.queue i ∨ ∃ w v f c, l = .run w ∧
      (s.workers w).pc = .exec v f (.requeue c) ∧ i = (s.workers w).sched ∧
      e = ⟨.fiber f (s.fibers f).func, -1, c != .suspended none⟩) : Affine s' := by
  refine ⟨?_, ?_⟩
  · intro i e k he hk hb
    have hold : e ∈ s.queue i → e.thread = (s'.tasks k).bound ∨
        (e.thread = -1 ∧ OthersGone s' i (s'.tasks k).bound) := by
      intro he
      have hlt := hB.ledger.queued_lt he hk
      rw [(step_bound hs hlt).2] at hb ⊢
      rcases h.queue he hk hb with hq | ⟨hq, hgone⟩
      · exact .inl hq
      · refine .inr ⟨hq, hgone.step hs ?_⟩
        rintro ws rfl
        by_contra hst
        exact hb (hl.start i ws rfl (by simpa using hst) e he k hk hq)
    rcases hqueue he with he | ⟨w, v, f, c, rfl, hpc, rfl, rfl⟩
    · exact hold he
    · have hf : (s.fibers f).func = some k := hk
      have hlt := (h.hands (Handles.exec hpc hf)).1
      rw [(step_bound hs hlt).2] at hb ⊢
      exact .inr ⟨rfl, (hl.requeue w v f c k rfl hpc hf hb).step hs (by simp)⟩
  · intro w k hh
    rcases step_handles hB hl.plain hs hh with hh | ⟨hpc, e, he, htake, hk⟩
    · obtain ⟨hlt, hb⟩ := h.hands hh
      obtain ⟨hlt', hsame⟩ := step_bound hs hlt
      exact ⟨hlt', by rw [hsame]; exact hb⟩
    · obtain ⟨hlt', hsame⟩ := step_bound hs (hB.ledger.queued_lt he hk)
      exact ⟨hlt', by rw [hsame]; exact h.taken he htake hpc hk⟩

/-- The entry of a fresh task carries its binding. -/
theorem Affine.accept (h : Affine s) (hB : Books s) (i : SchedId) (sp : Spawn) (t : Int) :
    Affine (s.accept i sp t) := by
  have htask : ∀ {k}, k < s.nextTask → (s.accept i sp t).tasks k = s.tasks k := fun hlt => by
    rw [accept_tasks, Function.update_of_ne (Nat.ne_of_lt hlt)]
  have hgone : ∀ {j b}, OthersGone s j b → OthersGone (s.accept i sp t) j b := fun hg w => by
    rw [accept_workers]
    exact hg w
  refine ⟨?_, ?_⟩
  · intro j e k he hk hb
    have hold : e ∈ s.queue j → e.thread = ((s.accept i sp t).tasks k).bound ∨
        (e.thread = -1 ∧ OthersGone (s.accept i sp t) j ((s.accept i sp t).tasks k).bound) := by
      intro he
      rw [htask (hB.ledger.queued_lt he hk)] at hb ⊢
      exact (h.queue he hk hb).imp id (And.imp_right hgone)
    rcases mem_of_mem_accept s i sp t he with he | ⟨-, rfl⟩
    · exact hold he
    · have hkn : k = s.nextTask := by cases sp <;> exact (Option.some.inj hk).symm
      left
      rw [hkn, accept_tasks, Function.update_self]
      cases sp <;> rfl
  · intro w k hh
    have hh' : s.Handles w k := by
      unfold State.Handles at hh
      rw [accept_workers] at hh
      rcases hh with hd | ⟨v, f, st, hpc, hk⟩
      · exact .inl hd
      · have hlt : f < s.nextFiber := hB.excl.bound (owns_exec hpc)
        rw [accept_fibers _ _ _ _ (Nat.ne_of_lt hlt)] at hk
        exact Handles.exec hpc hk
    obtain ⟨hlt, hb⟩ := h.hands hh'
    rw [htask hlt, accept_nextTask]
    exact ⟨Nat.lt_succ_of_lt hlt, hb⟩

theorem Affine.acceptAll (h : Affine s) (hB : Books s) (i : SchedId) (sps : List Spawn) :
    Affine (s.acceptAll i sps) :=
  (acceptAll_induction (I := fun s => Affine s ∧ Books s) s i sps ⟨h, hB⟩ fun _ sp h =>
    ⟨h.1.accept h.2 i sp (-1), h.2.excl.accept i sp (-1), h.2.ledger.accept h.2.excl i sp (-1)⟩).1

/-- **Every move of such a run keeps bound tasks on their threads.** -/
theorem Affine.step {l : Label} (h : Affine s) (hB : Books s) (hl : AffineRun s l)
    (hs : Scheduler.step s l = some s') : Affine s' := by
  have hkeep : s'.queue = s.queue → Affine s' := fun hq =>
    h.of_moves hB hl hs fun he => .inl (by rwa [hq] at he)
  cases move_of_step hs with
  | @run w _ _ hm =>
    refine h.of_moves hB hl hs fun he => ?_
    rcases hm.mem_queue he with he | ⟨v, f, c, hpc, hi, rfl⟩
    · exact .inl he
    · exact .inr ⟨w, v, f, c, rfl, hpc, hi, rfl⟩
  | body _ hpc hm =>
    cases hm with
    | schedule => exact h.accept hB _ _ _
    | scheduleAll => exact h.acceptAll hB _ _
    | self => cases hl.plain
    | stay hn => exact absurd hl.plain (Action.not_plain hn)
    | go hn => exact absurd hl.plain (Action.not_plain hn)
    | yield => exact hkeep rfl
    | ret | throw => exact hkeep (by simp [State.leaveBody])
  | schedule => exact h.accept hB _ _ _
  | scheduleAll => exact h.acceptAll hB _ _
  | reschedule => cases hl.plain
  | startAgain => exact h
  | @launch i => exact hkeep (State.setSched_queue_eq s i _ rfl)
  | stop _ hm | owner _ hm => exact hkeep hm.queue

theorem Affine.init (u : Setup) : Affine u.init where
  queue he := by simp [init_queue] at he
  hands {w k} hh := by
    rcases init_workers u w with hw | ⟨i, hw⟩ <;>
      rcases hh with ⟨hd, -⟩ | ⟨v, f, st, hpc, -⟩ <;> simp_all [Worker.absent, Worker.fresh]

theorem Affine.reach {u : Setup} (h : Reach Scheduler.step AffineRun u.init s) : Affine s :=
  (h.invariant (I := fun s => Affine s ∧ Books s)
    ⟨Affine.init u, Exclusive.init u, Ledger.init u⟩ fun hI hP hs =>
      ⟨hI.1.step hI.2 hP hs, hI.2.step hP.plain hs⟩).1

/-- **A bound task runs on its thread**, every segment of it, in every run in which none is put back
while another thread could take it. -/
theorem on_bound_thread {u : Setup} (h : Reach Scheduler.step AffineRun u.init s) :
    OnBoundThread s := by
  rintro w f k ⟨v, st, hpc, -⟩ hk
  exact ((Affine.reach h).hands (Handles.exec hpc hk)).2

/-- `AffineRun`, as a test for runs of thread 0 alone. -/
def AffineRun.check (s : State) (l : Label) : Bool :=
  l.plain &&
    match l with
    | .run w =>
      match (s.workers w).pc with
      | .exec _ f (.requeue _) => (s.fibers f).func.all fun k => (s.tasks k).bound == 0
      | _ => true
    | .start i ws => (s.queue i).isEmpty && ws == [0]
    | _ => true

theorem AffineRun.of_check {l : Label} (h : OnlyThreads [0] s) (hp : AffineRun.check s l = true)
    (hs : Scheduler.step s l = some s') : AffineRun s l ∧ OnlyThreads [0] s' := by
  obtain ⟨hplain, hp⟩ := Bool.and_eq_true_iff.mp hp
  refine ⟨⟨hplain, ?_, ?_⟩, h.step ?_ hs⟩
  · rintro w v f c k rfl hpc hk -
    simp only [hpc, hk, Option.all_some, beq_iff_eq] at hp
    intro w' _ hne
    refine .inl (h w' fun hmem => hne ?_)
    rw [List.mem_singleton.mp hmem, hp]
    rfl
  · rintro i ws rfl - e he
    simp only [Bool.and_eq_true, List.isEmpty_iff] at hp
    rw [hp.1] at he
    cases he
  · rintro i ws rfl w hw
    simp only [Bool.and_eq_true, beq_iff_eq] at hp
    exact hp.2 ▸ hw

/-- One worker; the function bound to it yields and goes on. -/
def boundRun : List Label :=
  [.start 0 [0], .schedule 0 .func 0] ++ runWorker 0 3 ++ [.body 0 .yieldToReady] ++ runWorker 0 7

theorem on_bound_thread_one_worker :
    ∃ s, runs (guarded Scheduler.step AffineRun.check) (Setup.pool 1 (by decide)).init boundRun =
      some s ∧ OnBoundThread s := by
  obtain ⟨s, hr, -⟩ := exists_of_runs (guarded Scheduler.step AffineRun.check)
    (Setup.pool 1 (by decide)).init boundRun
    (fun s => (s.workers 0).pc == .exec .ft 0 .running) (by decide +kernel)
  obtain ⟨hreach, -⟩ := Reach.of_guarded (I := OnlyThreads [0]) .refl
    (OnlyThreads.init fun _ _ => rfl) (fun ho hp hs => AffineRun.of_check ho hp hs) hr
  exact ⟨s, hr, on_bound_thread hreach⟩

/-- Two workers; worker 1 takes the entry that worker 0 made for the function bound to it. -/
def strayedRun : List Label :=
  [.start 0 [0, 1], .schedule 0 .func 0] ++ runWorker 0 3 ++ [.body 0 .yieldToHold] ++
    runWorker 0 4 ++ runWorker 1 3

/-- A bound task goes on on another thread. -/
theorem not_on_bound_thread :
    ¬∀ (u : Setup) (s : State), Reach Scheduler.step (fun _ l => l.plain) u.init s →
      OnBoundThread s := by
  intro h
  obtain ⟨s, hs, hc⟩ := exists_of_runs Scheduler.step (Setup.pool 2 (by decide)).init strayedRun
    (fun s => (s.workers 1).pc == .exec .ft 0 .running && ((s.fibers 0).func == some 0 &&
      (s.tasks 0).bound == 0)) (by decide +kernel)
  simp only [Bool.and_eq_true, beq_iff_eq] at hc
  obtain ⟨hpc, hfunc, hbound⟩ := hc
  have hon := h _ s (.of_runs .refl (by decide) hs) 1 0 0 ⟨_, _, hpc, .inl rfl⟩ hfunc
  rw [hbound] at hon
  exact absurd (hon (by decide)) (by decide)

end LioNet.Scheduler
