import LioNet.Scheduler.Cover
import LioNet.Scheduler.Switching

/-!
# Recycled fibers

`run()` keeps one `func_fiber` for the functions it takes and resets it between two of them, so a
`Fiber` object serves many tasks, and an entry of `m_fibers` names the object, not the task.  A task
that schedules its own handle and ends leaves such an entry behind.

The entry is harmless as long as its fiber stays TERM: then `run()` drops it.  `OwnRun` is the
condition that `func_fiber` is reset only when no entry is left for it.  Under it every resume through
a fiber entry goes on with the task for which the entry was made.

`Seated` keeps the tasks apart: a function that has not been called yet, or not to its end, is in one
entry, in one worker's `ft`, or in one fiber.
-/

namespace LioNet.Scheduler

open LioNet.Lib

/-- No handle is scheduled from outside, fibers are taken out of nobody's hands, and `func_fiber` is
reset only when no entry is left for it. -/
structure OwnRun (s : State) (l : Label) : Prop where
  free : TakesFree s l
  handle : ∀ i f t, l ≠ .reschedule i f t
  unqueued : ∀ w f c, l = .run w → (s.workers w).pc = .exec .func f (.after c) →
    (s.fibers f).state.ended = true → ∀ i, ∀ e ∈ s.queue i, e.job.fiberId ≠ some f

/-- Where the function of a task can be. -/
inductive Seat
  | queue (i : SchedId)
  | taken (w : ThreadId)
  | fiber (f : FiberId)

/-- The function of task `k` is there. -/
def Sits (s : State) (k : TaskId) : Seat → Prop
  | .queue i => ∃ e ∈ s.queue i, e.job = .func k
  | .taken w => (s.workers w).pc = .dispatch ∧ ∃ e, (s.workers w).ft = some e ∧ e.job = .func k
  | .fiber f => (s.fibers f).func = some k

/-- The seat, if it is a fiber, has not ended. -/
def State.unended (s : State) : Seat → Prop
  | .fiber f => (s.fibers f).state.ended = false
  | _ => True

section Seats

variable (s : State) (k : TaskId)

@[simp] theorem sits_queue (i : SchedId) :
    Sits s k (.queue i) ↔ ∃ e ∈ s.queue i, e.job = .func k := Iff.rfl

@[simp] theorem sits_taken (w : ThreadId) :
    Sits s k (.taken w) ↔ (s.workers w).pc = .dispatch ∧
      ∃ e, (s.workers w).ft = some e ∧ e.job = .func k := Iff.rfl

@[simp] theorem sits_fiber (f : FiberId) : Sits s k (.fiber f) ↔ (s.fibers f).func = some k := Iff.rfl

@[simp] theorem unended_fiber (f : FiberId) :
    s.unended (.fiber f) ↔ (s.fibers f).state.ended = false := Iff.rfl

end Seats

structure Seated (s : State) : Prop where
  unique : ∀ {k p q}, Sits s k p → Sits s k q → p = q
  single : ∀ k i, (s.queue i).countP (fun e => e.job == .func k) ≤ 1
  lt : ∀ {k p}, Sits s k p → k < s.nextTask
  isOpen : ∀ {k p}, Sits s k p → s.unended p → (s.tasks k).ended = false

variable {s s' : State} {w : ThreadId} {f : FiberId} {i : SchedId} {e : Entry} {k : TaskId}

/-! ### Tasks keep apart -/

/-- A task is where it was, or came to a place of its own. -/
theorem Seated.frame (h : Seated s)
    (hsits : ∀ {k p}, Sits s' k p → Sits s k p ∨
      (∀ q, Sits s' k q → q = p) ∧ k < s'.nextTask ∧ (s'.tasks k).ended = false)
    (hsingle : ∀ k i, (s'.queue i).countP (fun e => e.job == .func k) ≤ 1)
    (hnext : s.nextTask ≤ s'.nextTask)
    (hopen : ∀ {k p}, Sits s k p → Sits s' k p → s'.unended p →
      s.unended p ∧ (s'.tasks k).ended = (s.tasks k).ended) : Seated s' := by
  refine ⟨?_, hsingle, ?_, ?_⟩
  · intro k p q hp hq
    rcases hsits hp with hp' | ⟨hall, -⟩
    · rcases hsits hq with hq' | ⟨hall, -⟩
      · exact h.unique hp' hq'
      · exact hall p hp
    · exact (hall q hq).symm
  · intro k p hp
    rcases hsits hp with hp' | ⟨-, hlt, -⟩
    · exact Nat.lt_of_lt_of_le (h.lt hp') hnext
    · exact hlt
  · intro k p hp hu
    rcases hsits hp with hp' | ⟨-, -, he⟩
    · obtain ⟨hu', hsame⟩ := hopen hp' hp hu
      rw [hsame]
      exact h.isOpen hp' hu'
    · exact he

/-- The queues keep their functions, and worker `w` moves on fiber `f` without calling a new
function. -/
theorem Seated.touch (h : Seated s) (ht : Touches s s' w f)
    (hfunc : ∀ k, (s'.fibers f).func = some k → (s'.fibers f).state.ended = false →
      (s.fibers f).state.ended = false)
    (hkeep : ∀ k, (s'.fibers f).func = some k → (s.fibers f).func = some k)
    (htaken : ∀ k, Sits s' k (.taken w) → Sits s k (.taken w))
    (hmem : ∀ {i e k}, e ∈ s'.queue i → e.job = .func k → e ∈ s.queue i)
    (hsingle : ∀ k i, (s'.queue i).countP (fun e => e.job == .func k) ≤ 1)
    (hnext : s'.nextTask = s.nextTask)
    (hended : ∀ k, (s'.tasks k).ended = (s.tasks k).ended) : Seated s' := by
  refine h.frame (fun {k p} hp => .inl ?_) hsingle (Nat.le_of_eq hnext.symm) ?_
  · cases p with
    | queue i =>
      obtain ⟨e, he, hj⟩ := hp
      exact ⟨e, hmem he hj, hj⟩
    | taken w' =>
      by_cases e : w' = w
      · subst e
        exact htaken k hp
      · rw [sits_taken, ht.workers w' e] at hp
        exact hp
    | fiber g =>
      by_cases e : g = f
      · subst e
        exact hkeep k hp
      · rw [sits_fiber, ht.fibers g e] at hp
        exact hp
  · intro k p _ hp hu
    refine ⟨?_, hended k⟩
    cases p with
    | queue | taken => trivial
    | fiber g =>
      by_cases e : g = f
      · subst e
        exact hfunc k hp hu
      · rw [unended_fiber, ht.fibers g e] at hu
        exact hu

/-- A worker that is not at `dispatch` with a function sits on none. -/
theorem not_taken (h : (s.workers w).pc ≠ .dispatch ∨ (s.workers w).ft = none) :
    ¬Sits s k (.taken w) := by
  rintro ⟨hd, e, he, -⟩
  rcases h with h | h
  · exact h hd
  · rw [h] at he
    cases he

theorem Seated.take (h : Seated s) {q : List Entry}
    (htake : takeFirst (s.takes w) (s.queue (s.workers w).sched) = some (e, q))
    (hw : s'.workers = Function.update s.workers w
      { s.workers w with ft := some e, pc := .dispatch })
    (hfib : s'.fibers = s.fibers) (htasks : s'.tasks = s.tasks) (hnext : s'.nextTask = s.nextTask)
    (hqueue : ∀ i, s'.queue i = if i = (s.workers w).sched then q else s.queue i) :
    Seated s' := by
  have hself : s'.workers w = { s.workers w with ft := some e, pc := .dispatch } := by simp [hw]
  have hmem : ∀ {j e'}, e' ∈ s'.queue j → e' ∈ s.queue j := mem_queue_of_take htake hqueue
  have hcount : ∀ k, (s.queue (s.workers w).sched).countP (fun e => e.job == .func k) =
      q.countP (fun e => e.job == .func k) + if e.job == .func k then 1 else 0 :=
    fun k => takeFirst_countP htake _
  have hold : ∀ {k p}, Sits s' k p → p = .taken w ∨ Sits s k p := by
    intro k p hp
    cases p with
    | queue j =>
      obtain ⟨e', he', hj⟩ := hp
      exact .inr ⟨e', hmem he', hj⟩
    | taken w' =>
      by_cases ew : w' = w
      · exact .inl (by rw [ew])
      · unfold Sits at hp ⊢
        simp only [hw, Function.update_of_ne ew] at hp
        exact .inr hp
    | fiber g =>
      rw [sits_fiber, hfib] at hp
      exact .inr hp
  refine h.frame (fun {k p} hp => ?_) ?_ (Nat.le_of_eq hnext.symm) ?_
  · rcases hold hp with rfl | hp'
    · -- the entry's function: it is nowhere else now
      obtain ⟨-, e', he', hj⟩ := hp
      rw [hself] at he'
      obtain rfl := Option.some.inj he'
      have hseat : Sits s k (.queue (s.workers w).sched) := ⟨e, takeFirst_mem htake, hj⟩
      refine .inr ⟨fun p hp => ?_, by rw [hnext]; exact h.lt hseat,
        by rw [htasks]; exact h.isOpen hseat trivial⟩
      rcases hold hp with rfl | hp'
      · rfl
      · obtain rfl := h.unique hp' hseat
        obtain ⟨e', he', hj'⟩ := hp
        rw [hqueue, if_pos rfl] at he'
        have hpos : 0 < q.countP (fun e => e.job == .func k) :=
          List.countP_pos_iff.mpr ⟨e', he', by simp [hj']⟩
        have hone := h.single k (s.workers w).sched
        have hc := hcount k
        simp only [hj, beq_self_eq_true, if_true] at hc
        omega
    · exact .inl hp'
  · intro k j
    rw [hqueue]
    split
    · have hone := h.single k (s.workers w).sched
      have hc := hcount k
      omega
    · exact h.single k j
  · intro k p _ _ hu
    rw [htasks]
    refine ⟨?_, rfl⟩
    cases p with
    | queue | taken => trivial
    | fiber g =>
      rw [unended_fiber, hfib] at hu
      exact hu

/-- A worker puts the function it took into a fiber without one. -/
theorem Seated.wrap (h : Seated s) {F : SFiber} {W : Worker} {t : Int} {b : Bool}
    (hpc : (s.workers w).pc = .dispatch) (hft : (s.workers w).ft = some ⟨.func k, t, b⟩)
    (hnone : (s.fibers f).func = none) (hF : F.func = some k)
    (hw : s'.workers = Function.update s.workers w W) (hW : W.ft = none)
    (hfib : s'.fibers = Function.update s.fibers f F) (hqueue : s'.queue = s.queue)
    (htasks : s'.tasks = s.tasks) (hnext : s'.nextTask = s.nextTask) : Seated s' := by
  have hself : s'.workers w = W := by simp [hw]
  have hseat : Sits s k (.taken w) := ⟨hpc, _, hft, rfl⟩
  have hold : ∀ {k' p}, Sits s' k' p → (k' = k ∧ p = .fiber f) ∨ (Sits s k' p ∧ p ≠ .taken w) := by
    intro k' p hp
    cases p with
    | queue j =>
      rw [sits_queue, hqueue] at hp
      exact .inr ⟨hp, by simp⟩
    | taken w' =>
      have ew : w' ≠ w := by
        rintro rfl
        exact not_taken (.inr (by rw [hself, hW])) hp
      simp only [sits_taken, hw, Function.update_of_ne ew] at hp
      exact .inr ⟨hp, by simpa using ew⟩
    | fiber g =>
      by_cases eg : g = f
      · subst eg
        rw [sits_fiber, hfib, Function.update_self, hF] at hp
        exact .inl ⟨(Option.some.inj hp).symm, rfl⟩
      · rw [sits_fiber, hfib, Function.update_of_ne eg] at hp
        exact .inr ⟨hp, by simp⟩
  refine h.frame (fun {k' p} hp => ?_) (by rw [hqueue]; exact h.single) (Nat.le_of_eq hnext.symm) ?_
  · rcases hold hp with ⟨rfl, rfl⟩ | ⟨hp', -⟩
    · refine .inr ⟨fun q hq => ?_, by rw [hnext]; exact h.lt hseat,
        by rw [htasks]; exact h.isOpen hseat trivial⟩
      rcases hold hq with ⟨-, rfl⟩ | ⟨hq', hne⟩
      · rfl
      · exact absurd (h.unique hq' hseat) hne
    · exact .inl hp'
  · intro k' p hp _ hu
    rw [htasks]
    refine ⟨?_, rfl⟩
    cases p with
    | queue | taken => trivial
    | fiber g =>
      have eg : g ≠ f := by
        rintro rfl
        rw [sits_fiber, hnone] at hp
        cases hp
      rw [unended_fiber, hfib, Function.update_of_ne eg] at hu
      exact hu

/-- A worker goes on with its visit, and its fiber keeps its function. -/
theorem Seated.next_stage (h : Seated s) {v : Via} {st : Stage} {F : SFiber}
    (hw : s'.workers = Function.update s.workers w ((s.workers w).goto (.exec v f st)))
    (hfib : s'.fibers = Function.update s.fibers f F) (hfunc : F.func = (s.fibers f).func)
    (hlive : F.state.ended = false → (s.fibers f).state.ended = false)
    (hnextF : s.nextFiber ≤ s'.nextFiber) (hqueue : s'.queue = s.queue)
    (hnext : s'.nextTask = s.nextTask) (hended : ∀ k, (s'.tasks k).ended = (s.tasks k).ended) :
    Seated s' := by
  have hF : s'.fibers f = F := by simp [hfib]
  refine h.touch (w := w) (f := f) ⟨fun w' hw' => by simp [hw, hw'], fun g hg => by simp [hfib, hg],
    hnextF⟩ ?_ ?_ ?_ (fun he _ => by rwa [hqueue] at he) (by rw [hqueue]; exact h.single) hnext hended
  · rw [hF]
    exact fun _ _ => hlive
  · rw [hF, hfunc]
    exact fun _ => id
  · intro k hk
    exact absurd hk (not_taken (.inl (by simp [hw])))

/-- A worker has no function in its `ft`, and no fiber changes. -/
theorem Seated.between (h : Seated s) {W : Worker} (hw : s'.workers = Function.update s.workers w W)
    (hfib : s'.fibers = s.fibers) (hW : W.pc ≠ .dispatch ∨ W.ft = none)
    (hnextF : s.nextFiber ≤ s'.nextFiber) (hqueue : s'.queue = s.queue)
    (hnext : s'.nextTask = s.nextTask) (htasks : s'.tasks = s.tasks) : Seated s' := by
  refine h.touch (w := w) (f := 0) ⟨fun w' hw' => by simp [hw, hw'], fun g _ => by rw [hfib],
    hnextF⟩ ?_ ?_ ?_ (fun he _ => by rwa [hqueue] at he) (by rw [hqueue]; exact h.single) hnext
    fun k => by rw [htasks]
  · rw [hfib]
    exact fun _ _ => id
  · rw [hfib]
    exact fun _ => id
  · intro k hk
    exact absurd hk (not_taken (by simpa [hw] using hW))

/-- The entry of a fiber brings no function. -/
theorem Seated.push (h : Seated s) (he : e.job.fiberId = some f) : Seated (s.push i e) := by
  have hjob : ∀ k, e.job ≠ .func k := by
    intro k hk
    rw [hk] at he
    cases he
  refine h.touch (w := 0) (f := 0) ⟨fun _ _ => rfl, fun _ _ => rfl, Nat.le_refl _⟩ (fun _ _ => id)
    (fun _ => id) (fun _ => id) (fun {j e' k} he' hj => ?_) (fun k j => ?_) rfl fun _ => rfl
  · rcases State.mem_of_mem_push _ _ _ _ he' with he' | ⟨-, rfl⟩
    · exact he'
    · exact absurd hj (hjob k)
  · rw [State.push_queue]
    split
    · simpa [List.countP_append, hjob k] using h.single k i
    · exact h.single k j

/-- **A worker's move keeps the tasks apart.** -/
theorem Seated.runMove (h : Seated s) (hH : Held s) (hm : RunMove s w s') : Seated s' := by
  have hst : ∀ {v f st}, (s.workers w).pc = .exec v f st → StageOk (s.fibers f) st :=
    fun hpc => (hH.excl.ok w).stage hpc
  cases hm with
  | take _ htake =>
    refine h.take htake rfl rfl rfl rfl fun i => ?_
    rw [State.setWorker_queue, State.setSched_queue]
  | reuseFunc hpc hft hf hF =>
    obtain ⟨-, rfl⟩ := Fiber.reset_eq_some_iff.mp hF
    exact h.wrap hpc hft (hH.cover.spare hf (by simp [hpc])) rfl rfl rfl rfl rfl rfl rfl
  | newFunc hpc hft hf =>
    exact h.wrap hpc hft (hH.cover.blank (Nat.le_refl _)) rfl rfl rfl rfl rfl rfl rfl
  | @begin v f k hpc hctx hk =>
    refine h.next_stage (F := (s.fibers f).resume) rfl rfl rfl (fun _ => (hst hpc).2) (Nat.le_refl _)
      rfl rfl fun k' => ?_
    by_cases e : k' = k
    · subst e
      simp
    · simp [e]
  | beginEmpty hpc _ _ =>
    exact h.next_stage rfl rfl rfl (fun _ => (hst hpc).2) (Nat.le_refl _) rfl rfl fun _ => rfl
  | resume hpc _ =>
    exact h.next_stage rfl rfl rfl (fun _ => (hst hpc).2) (Nat.le_refl _) rfl rfl fun _ => rfl
  | hold hpc he =>
    refine h.next_stage rfl rfl rfl (fun _ => ?_) (Nat.le_refl _) rfl rfl fun _ => rfl
    rw [he]
    rfl
  | save => exact h.next_stage rfl rfl rfl id (Nat.le_refl _) rfl rfl fun _ => rfl
  | saveBack =>
    exact h.next_stage rfl rfl rfl id (Nat.le_refl _) (State.setSched_queue_eq _ _ _ rfl) rfl
      fun _ => rfl
  | @endFunc f c hpc he =>
    -- an ended fiber is not ended any more, but its function is gone
    refine h.touch (w := w) (f := f) ⟨fun w' hw' => by simp [hw'], fun g hg => by simp [hg],
      Nat.le_refl _⟩ (fun k hk => ?_) (fun k hk => ?_) (fun k hk => ?_) (fun he _ => he) h.single rfl
      fun _ => rfl
    · simp [Fiber.construct] at hk
    · simp [Fiber.construct] at hk
    · exact absurd hk (not_taken (by simp))
  | lostFiber hpc hy he => exact (endState_ne_other (hst hpc).1 hy he).elim
  | lostFunc hpc hy he => exact (endState_ne_other (hst hpc).1 hy he).elim
  | leave =>
    refine h.between (W := (s.workers w).goto .left) (w := w) ?_ ?_ (.inl (by simp)) ?_ ?_ ?_ ?_
    all_goals simp
  | @requeueFiber f c hpc | @requeueFunc f c hpc =>
    have hpush : Seated (s.push (s.workers w).sched
        ⟨.fiber f (s.fibers f).func, -1, c != .suspended none⟩) := h.push rfl
    exact hpush.between rfl rfl (.inl (by simp)) (Nat.le_refl _) rfl rfl rfl
  | drop | idleInc | idleDec | decr =>
    exact h.between rfl rfl (.inl (by simp)) (Nat.le_refl _) (State.setSched_queue_eq s _ _ rfl) rfl rfl
  | noEntry => exact h.between rfl rfl (.inr rfl) (Nat.le_refl _) rfl rfl rfl
  | dropEnded | enterFiber | toIdle | keep | endFiber | idleIn | idleStop | idleWait =>
    exact h.between rfl rfl (.inl (by simp)) (Nat.le_refl _) rfl rfl rfl

/-- A fresh task has a place of its own. -/
theorem Seated.accept (h : Seated s) (hH : Held s) (i : SchedId) (sp : Spawn) (t : Int) :
    Seated (s.accept i sp t) := by
  have hblank : (s.fibers s.nextFiber).func = none := hH.cover.blank (Nat.le_refl _)
  -- the seat of the new task
  obtain ⟨p₀, hp₀⟩ : ∃ p₀, ∀ {k p}, Sits (s.accept i sp t) k p →
      Sits s k p ∨ (k = s.nextTask ∧ p = p₀) := by
    cases sp with
    | func =>
      refine ⟨.queue i, fun {k p} hp => ?_⟩
      cases p with
      | queue j =>
        obtain ⟨e, he, hj⟩ := hp
        rcases mem_of_mem_accept _ _ _ _ he with he | ⟨hji, rfl⟩
        · exact .inl ⟨e, he, hj⟩
        · exact .inr ⟨(Job.func.inj hj).symm, by rw [hji]⟩
      | taken w => exact .inl (by simpa using hp)
      | fiber g => exact .inl hp
    | fiber uc =>
      refine ⟨.fiber s.nextFiber, fun {k p} hp => ?_⟩
      cases p with
      | queue j =>
        obtain ⟨e, he, hj⟩ := hp
        rcases mem_of_mem_accept _ _ _ _ he with he | ⟨-, rfl⟩
        · exact .inl ⟨e, he, hj⟩
        · cases hj
      | taken w => exact .inl (by simpa using hp)
      | fiber g =>
        by_cases e : g = s.nextFiber
        · subst e
          rw [sits_fiber, accept_fiber_new] at hp
          exact .inr ⟨(Option.some.inj hp).symm, rfl⟩
        · rw [sits_fiber, accept_fibers s i (.fiber uc) t e] at hp
          exact .inl hp
  have hlt : ∀ {k p}, Sits s k p → k ≠ s.nextTask := fun hp => Nat.ne_of_lt (h.lt hp)
  refine h.frame (fun {k p} hp => ?_) (fun k j => ?_) (by rw [accept_nextTask]; exact Nat.le_succ _) ?_
  · rcases hp₀ hp with hp | ⟨rfl, rfl⟩
    · exact .inl hp
    · refine .inr ⟨fun q hq => ?_, by rw [accept_nextTask]; exact Nat.lt_succ_self _, by simp⟩
      rcases hp₀ hq with hq | ⟨-, rfl⟩
      · exact absurd rfl (hlt hq)
      · rfl
  · rw [accept_queue]
    split
    · rw [List.countP_append]
      by_cases hk : k = s.nextTask
      · have hzero : (s.queue i).countP (fun e => e.job == .func k) = 0 := by
          refine List.countP_eq_zero.mpr fun e he hj => ?_
          exact hlt (p := .queue i) ⟨e, he, by simpa using hj⟩ hk
        rw [hzero]
        exact Nat.le_trans (Nat.le_of_eq (Nat.zero_add _)) (List.countP_le_length)
      · have hnew : (acceptEntry s sp t).job ≠ .func k := by
          cases sp <;> simp [acceptEntry, Ne.symm hk]
        simpa [hnew] using h.single k i
    · exact h.single k j
  · intro k p hp _ hu
    rw [accept_tasks, Function.update_of_ne (hlt hp)]
    refine ⟨?_, rfl⟩
    cases p with
    | queue | taken => trivial
    | fiber g =>
      have hg : g ≠ s.nextFiber := by
        rintro rfl
        rw [sits_fiber, hblank] at hp
        cases hp
      rw [unended_fiber, accept_fibers s i sp t hg] at hu
      exact hu

theorem Held.acceptAll (hH : Held s) (i : SchedId) (sps : List Spawn) : Held (s.acceptAll i sps) :=
  ⟨hH.excl.acceptAll i sps, hH.cover.acceptAll hH.excl i sps⟩

theorem Seated.acceptAll (h : Seated s) (hH : Held s) (i : SchedId) (sps : List Spawn) :
    Seated (s.acceptAll i sps) :=
  (acceptAll_induction (I := fun s => Seated s ∧ Held s) s i sps ⟨h, hH⟩ fun _ sp h =>
    ⟨h.1.accept h.2 i sp (-1), h.2.excl.accept i sp (-1), h.2.cover.accept h.2.excl i sp (-1)⟩).1

/-- A body that ends leaves no function behind that could be gone on with. -/
theorem Seated.endBody (h : Seated s) {v : Via} {F : SFiber}
    (hkeep : ∀ k, F.func = some k → (s.fibers f).func = some k) (hF : F.state.ended = true) :
    Seated ((s.finishTask f).leaveBody w v f F .finished) := by
  have hself : ((s.finishTask f).leaveBody w v f F .finished).fibers f = F := by
    simp [State.leaveBody]
  have hother : ∀ g, g ≠ f → ((s.finishTask f).leaveBody w v f F .finished).fibers g = s.fibers g :=
    fun g hg => by simp [State.leaveBody, hg]
  have hqueue : ((s.finishTask f).leaveBody w v f F .finished).queue = s.queue := by
    simp [State.leaveBody]
  refine h.frame (fun {k p} hp => .inl ?_) (by rw [hqueue]; exact h.single)
    (Nat.le_of_eq (by simp [State.leaveBody])) fun {k p} hp hp' hu => ?_
  · cases p with
    | queue j =>
      rw [sits_queue, hqueue] at hp
      exact hp
    | taken w' =>
      by_cases e : w' = w
      · subst e
        exact absurd hp (not_taken (.inl (by simp [State.leaveBody])))
      · simpa [State.leaveBody, e] using hp
    | fiber g =>
      by_cases e : g = f
      · subst e
        rw [sits_fiber, hself] at hp
        exact hkeep k hp
      · rw [sits_fiber, hother g e] at hp
        exact hp
  · -- the task that ends had its one place in this fiber
    have hne : p ≠ .fiber f := by
      rintro rfl
      rw [unended_fiber, hself, hF] at hu
      cases hu
    have hk : (s.fibers f).func ≠ some k := fun hk => hne (h.unique hp hk)
    refine ⟨?_, ?_⟩
    · cases p with
      | queue | taken => trivial
      | fiber g =>
        have hg : g ≠ f := fun e => hne (by rw [e])
        rw [unended_fiber, hother g hg] at hu
        exact hu
    · show ((s.finishTask f).tasks k).ended = (s.tasks k).ended
      unfold State.finishTask
      split
      · rename_i k' hk'
        have hkk : k ≠ k' := by
          rintro rfl
          exact hk hk'
        simp [hkk]
      · rfl

/-- **A body's move keeps the tasks apart.** -/
theorem Seated.bodyMove (h : Seated s) (hH : Held s) {v : Via} {a : Action}
    (hpc : (s.workers w).pc = .exec v f .running) (hm : BodyMove s w v f a s') : Seated s' := by
  have hst : (s.fibers f).state = .exec := ((hH.excl.ok w).stage hpc).1
  have hlive : (s.fibers f).state.ended = false := by rw [hst]; rfl
  cases hm with
  | schedule => exact h.accept hH _ _ _
  | scheduleAll => exact h.acceptAll hH _ _
  | self => exact h.push rfl
  | stay =>
    exact h.between (w := w) (W := s.workers w) (by simp) rfl (.inl (by simp [hpc])) (Nat.le_refl _)
      rfl rfl rfl
  | @go _ l sw _ _ =>
    have hback : Seated ((s.setSwitchers f l).rehome f sw.target) := by
      have hgoto : ((s.setSwitchers f l).rehome f sw.target).workers =
          Function.update s.workers w ((s.workers w).goto (.exec v f .running)) := by
        rw [← hpc, rehome_workers]
        exact (Function.update_eq_self w s.workers).symm
      refine h.next_stage (F := s.fibers f) hgoto (by simp) rfl id (Nat.le_of_eq (by simp)) (by simp)
        ?_ fun k => ?_
      · exact rehome_nextTask _ _ _
      · exact (rehome_task (s.setSwitchers f l) f sw.target k).2.1
    have hpush := hback.push (i := sw.target)
      (e := ⟨.fiber f (s.fibers f).func, sw.thread, false⟩) rfl
    exact hpush.between rfl rfl (.inl (by simp)) (Nat.le_refl _) rfl rfl rfl
  | yield => exact h.next_stage rfl rfl rfl (fun _ => hlive) (Nat.le_refl _) rfl rfl fun _ => rfl
  | ret => exact h.endBody (fun k hk => by simp [Fiber.returned] at hk) rfl
  | throw => exact h.endBody (fun k hk => hk) rfl

/-! ### An entry and its fiber -/

/-- The entry was made for a task, and its fiber still has that task unless it has ended. -/
def State.Matches (s : State) (e : Entry) : Prop :=
  ∀ f t, e.job = .fiber f t →
    t ≠ none ∧ ((s.fibers f).state.ended = false → (s.fibers f).func = t)

/-- A worker is about to decide on the entry in its `ft`, or about to resume its fiber. -/
def Worker.deciding (W : Worker) : Prop :=
  W.pc = .dispatch ∨ ∃ f, W.pc = .exec .ft f .enter

structure Own (s : State) : Prop where
  entry : ∀ {i e}, e ∈ s.queue i → s.Matches e
  taken : ∀ {w e}, (s.workers w).deciding → (s.workers w).ft = some e → s.Matches e
  /-- a `func_fiber` that is not in use has no entry -/
  spare : ∀ {w f}, (s.workers w).funcFiber = some f → (∀ st, (s.workers w).pc ≠ .exec .func f st) →
    ∀ i, ∀ e ∈ s.queue i, e.job.fiberId ≠ some f
  live : ∀ {w v f st}, (s.workers w).pc = .exec v f st → st.live = true → (s.fibers f).func ≠ none

theorem State.Matches.of_fiber (h : s.Matches e)
    (hf : ∀ g, e.job.fiberId = some g → (s'.fibers g).state.ended = false →
      (s.fibers g).state.ended = false ∧ (s'.fibers g).func = (s.fibers g).func) : s'.Matches e := by
  intro g t hj
  obtain ⟨ht, hm⟩ := h g t hj
  refine ⟨ht, fun he => ?_⟩
  obtain ⟨hold, hsame⟩ := hf g (by rw [hj]; rfl) he
  rw [hsame]
  exact hm hold

/-- The fiber in the entry that a worker decides on is in the worker's hands. -/
theorem Worker.deciding.owns (hE : Exclusive s) (hd : (s.workers w).deciding)
    (hft : (s.workers w).ft = some e) (hj : e.job.fiberId = some f) : (s.workers w).Owns f := by
  rcases hd with hd | ⟨g, hpc⟩
  · exact .inl (by simp [Worker.hands, hd, hft, hj])
  · have hok := hE.ok w
    unfold WorkerOk at hok
    rw [hpc] at hok
    obtain ⟨-, -, -, e', he', hg⟩ := hok
    obtain rfl := Option.some.inj (hft.symm.trans he')
    obtain rfl := Option.some.inj (hj.symm.trans hg)
    exact owns_exec hpc

/-- The queues are kept, and worker `w` moves on fiber `f`. -/
theorem Own.touch (h : Own s) (hE : Exclusive s) (ht : Touches s s' w f)
    (hf : ∀ w', w' ≠ w → ¬(s.workers w').Owns f) (hqueue : s'.queue = s.queue)
    (hentry : ∀ {i e}, e ∈ s.queue i → e.job.fiberId = some f → s'.Matches e)
    (htaken : ∀ {e}, (s'.workers w).deciding → (s'.workers w).ft = some e → s'.Matches e)
    (hspare : ∀ {g}, (s'.workers w).funcFiber = some g →
      (∀ st, (s'.workers w).pc ≠ .exec .func g st) → ∀ i, ∀ e ∈ s.queue i, e.job.fiberId ≠ some g)
    (hlive : ∀ {v g st}, (s'.workers w).pc = .exec v g st → st.live = true →
      (s'.fibers g).func ≠ none) : Own s' := by
  have hkeep : ∀ {e}, s.Matches e → e.job.fiberId ≠ some f → s'.Matches e := by
    intro e hm hne
    refine hm.of_fiber fun g hg he => ?_
    have hgf : g ≠ f := by
      rintro rfl
      exact hne hg
    rw [ht.fibers g hgf] at he ⊢
    exact ⟨he, rfl⟩
  refine ⟨?_, ?_, ?_, ?_⟩
  · intro i e he
    rw [hqueue] at he
    by_cases hj : e.job.fiberId = some f
    · exact hentry he hj
    · exact hkeep (h.entry he) hj
  · intro w' e hd hft
    by_cases ew : w' = w
    · subst ew
      exact htaken hd hft
    · rw [ht.workers w' ew] at hd hft
      exact hkeep (h.taken hd hft) fun hj => hf w' ew (hd.owns hE hft hj)
  · intro w' g hg hpc
    rw [hqueue]
    by_cases ew : w' = w
    · subst ew
      exact hspare hg hpc
    · rw [ht.workers w' ew] at hg hpc
      exact h.spare hg hpc
  · intro w' v g st hpc hl
    by_cases ew : w' = w
    · subst ew
      exact hlive hpc hl
    · rw [ht.workers w' ew] at hpc
      have hgf : g ≠ f := by
        rintro rfl
        exact hf w' ew (owns_exec hpc)
      rw [ht.fibers g hgf]
      exact h.live hpc hl

/-- An entry is made for the task of a fiber that is no idle `func_fiber`. -/
theorem Own.push (h : Own s) (hm : s.Matches e)
    (hfree : ∀ g, e.job.fiberId = some g → ∀ w, (s.workers w).funcFiber = some g →
      ∃ st, (s.workers w).pc = .exec .func g st) : Own (s.push i e) := by
  have hmem : ∀ {j e'}, e' ∈ (s.push i e).queue j → e' ∈ s.queue j ∨ e' = e :=
    fun he' => (State.mem_of_mem_push _ _ _ _ he').imp_right And.right
  refine ⟨fun he' => ?_, h.taken, fun {w g} hg hpc j e' he' hj => ?_, h.live⟩
  · rcases hmem he' with he' | rfl
    · exact h.entry he'
    · exact hm
  · rcases hmem he' with he' | rfl
    · exact h.spare hg hpc j e' he' hj
    · obtain ⟨st, hst⟩ := hfree g hj w hg
      exact hpc st hst

/-- A worker goes on with its visit, and its fiber keeps its function or ends. -/
theorem Own.next_stage (h : Own s) (hE : Exclusive s) {v : Via} {st st' : Stage} {F : SFiber}
    (hpc : (s.workers w).pc = .exec v f st)
    (hw : s'.workers = Function.update s.workers w ((s.workers w).goto (.exec v f st')))
    (hfib : s'.fibers = Function.update s.fibers f F) (hnext : s.nextFiber ≤ s'.nextFiber)
    (hqueue : s'.queue = s.queue) (hst : st' ≠ .enter)
    (hF : F.state.ended = false → (s.fibers f).state.ended = false ∧ F.func = (s.fibers f).func)
    (hlive : st'.live = true → st.live = true ∧ F.func = (s.fibers f).func) : Own s' := by
  have howns : (s.workers w).Owns f := owns_exec hpc
  have hself : s'.workers w = (s.workers w).goto (.exec v f st') := by simp [hw]
  have hfF : s'.fibers f = F := by simp [hfib]
  refine h.touch hE (w := w) (f := f) ⟨fun w' hw' => by simp [hw, hw'], fun g hg => by simp [hfib, hg],
    hnext⟩ (fun w' hw' ho => hw' (hE.excl ho howns)) hqueue ?_ ?_ ?_ ?_
  · intro i e he hj
    refine (h.entry he).of_fiber fun g hg => ?_
    obtain rfl := Option.some.inj (hj.symm.trans hg)
    rw [hfF]
    exact hF
  · rintro e (hd | ⟨g, hd⟩) -
    · rw [hself] at hd
      cases hd
    · rw [hself] at hd
      injection hd with _ _ hd
      exact absurd hd hst
  · intro g hg hpc'
    rw [hself] at hg hpc'
    refine h.spare hg fun st'' hx => ?_
    rw [hpc] at hx
    injection hx with hv hfg _
    exact hpc' st' (by rw [hv, hfg]; rfl)
  · intro v' g st'' hpc' hl
    rw [hself] at hpc'
    obtain ⟨-, rfl, rfl⟩ : v = v' ∧ f = g ∧ st' = st'' := by simpa using hpc'
    obtain ⟨hl', hfunc⟩ := hlive hl
    rw [hfF, hfunc]
    exact h.live hpc hl'

/-- A worker ends its visit, or moves between two visits. -/
theorem Own.between (h : Own s) (hE : Exclusive s) {W : Worker}
    (hw : s'.workers = Function.update s.workers w W) (hfib : s'.fibers = s.fibers)
    (hnext : s'.nextFiber = s.nextFiber) (hqueue : s'.queue = s.queue)
    (hpc : ∀ v g st, W.pc ≠ .exec v g st) (hft : W.pc = .dispatch → W.ft = none)
    (hfunc : ∀ g, W.funcFiber = some g → (s.workers w).funcFiber = some g ∧
      ∀ st, (s.workers w).pc ≠ .exec .func g st) : Own s' := by
  have hself : s'.workers w = W := by simp [hw]
  refine h.touch hE (w := w) (f := s.nextFiber) ⟨fun w' hw' => by simp [hw, hw'],
    fun g _ => by rw [hfib], Nat.le_of_eq hnext.symm⟩
    (fun w' _ ho => Nat.lt_irrefl _ (hE.bound ho)) hqueue ?_ ?_ ?_ ?_
  · intro i e he hj
    exact absurd (hE.queued i e he _ hj) (Nat.lt_irrefl _)
  · rw [hself]
    rintro e (hd | ⟨g, hd⟩) he
    · rw [hft hd] at he
      cases he
    · exact absurd hd (hpc _ _ _)
  · rw [hself]
    intro g hg _
    obtain ⟨hg', hx⟩ := hfunc g hg
    exact h.spare hg' hx
  · rw [hself]
    intro v g st hx
    exact absurd hx (hpc _ _ _)

theorem Own.take (h : Own s) {q : List Entry} (hpc : (s.workers w).pc = .top)
    (htake : takeFirst (s.takes w) (s.queue (s.workers w).sched) = some (e, q))
    (hw : s'.workers = Function.update s.workers w
      { s.workers w with ft := some e, pc := .dispatch })
    (hfib : s'.fibers = s.fibers)
    (hqueue : ∀ i, s'.queue i = if i = (s.workers w).sched then q else s.queue i) : Own s' := by
  have hself : s'.workers w = { s.workers w with ft := some e, pc := .dispatch } := by simp [hw]
  have hother : ∀ {w'}, w' ≠ w → s'.workers w' = s.workers w' := fun hne => by simp [hw, hne]
  have hmem : ∀ {j e'}, e' ∈ s'.queue j → e' ∈ s.queue j := mem_queue_of_take htake hqueue
  have hkeep : ∀ {e}, s.Matches e → s'.Matches e := fun hm =>
    hm.of_fiber fun g _ he => by
      rw [hfib] at he ⊢
      exact ⟨he, rfl⟩
  refine ⟨fun he' => hkeep (h.entry (hmem he')), ?_, ?_, ?_⟩
  · intro w' e' hd hft
    by_cases ew : w' = w
    · rw [ew, hself] at hft
      obtain rfl := Option.some.inj hft
      exact hkeep (h.entry (takeFirst_mem htake))
    · rw [hother ew] at hd hft
      exact hkeep (h.taken hd hft)
  · intro w' g hg hx j e' he'
    refine h.spare (w := w') ?_ (fun st hst => ?_) j e' (hmem he')
    · by_cases ew : w' = w
      · rw [ew, hself] at hg
        rw [ew]
        exact hg
      · rwa [hother ew] at hg
    · by_cases ew : w' = w
      · rw [ew, hpc] at hst
        cases hst
      · rw [hother ew] at hx
        exact hx st hst
  · intro w' v g st hx hl
    rw [hfib]
    by_cases ew : w' = w
    · rw [ew, hself] at hx
      cases hx
    · rw [hother ew] at hx
      exact h.live hx hl

/-- A worker is about to resume the fiber in its entry: it has the entry's task. -/
theorem Own.enter (h : Own s) (hE : Exclusive s) {t : Option TaskId} {n : Int} {b : Bool}
    (hpc : (s.workers w).pc = .dispatch) (hft : (s.workers w).ft = some ⟨.fiber f t, n, b⟩)
    (he : (s.fibers f).state.ended = false) :
    Own (s.setWorker w ((s.workers w).goto (.exec .ft f .enter))) := by
  have hm := h.taken (.inl hpc) hft
  obtain ⟨ht, hfunc⟩ := hm f t rfl
  refine h.touch hE (w := w) (f := s.nextFiber) ⟨fun w' hw' => by simp [hw'], fun _ _ => rfl,
    Nat.le_refl _⟩ (fun w' _ ho => Nat.lt_irrefl _ (hE.bound ho)) rfl ?_ ?_ ?_ ?_
  · intro i e he hj
    exact absurd (hE.queued i e he _ hj) (Nat.lt_irrefl _)
  · intro e _ he
    simp only [State.setWorker_workers, Function.update_self, Worker.goto_ft] at he
    obtain rfl := Option.some.inj (hft.symm.trans he)
    exact hm
  · intro g hg _
    simp only [State.setWorker_workers, Function.update_self, Worker.goto_funcFiber] at hg
    exact h.spare hg (by simp [hpc])
  · intro v g st hx _
    obtain ⟨-, rfl, -⟩ : Via.ft = v ∧ f = g ∧ Stage.enter = st := by simpa using hx
    rw [State.setWorker_fibers, hfunc he]
    exact ht

/-- A worker puts the function it took into a fiber that no entry names. -/
theorem Own.wrap (h : Own s) (hE : Exclusive s) {F : SFiber} {W : Worker}
    (hf : ∀ w', w' ≠ w → ¬(s.workers w').Owns f)
    (hnone : ∀ i, ∀ e ∈ s.queue i, e.job.fiberId ≠ some f)
    (hw : s'.workers = Function.update s.workers w W) (hWpc : W.pc = .exec .func f .enter)
    (hWfunc : W.funcFiber = some f)
    (hfib : s'.fibers = Function.update s.fibers f F) (hnext : s.nextFiber ≤ s'.nextFiber)
    (hqueue : s'.queue = s.queue) (hF : F.func ≠ none) : Own s' := by
  have hself : s'.workers w = W := by simp [hw]
  refine h.touch hE (w := w) (f := f) ⟨fun w' hw' => by simp [hw, hw'], fun g hg => by simp [hfib, hg],
    hnext⟩ hf hqueue ?_ ?_ ?_ ?_
  · intro i e he hj
    exact absurd hj (hnone i e he)
  · rw [hself]
    rintro e (hd | ⟨g, hd⟩) - <;> rw [hWpc] at hd <;> cases hd
  · rw [hself]
    intro g hg hx
    obtain rfl := Option.some.inj (hWfunc.symm.trans hg)
    exact absurd hWpc (hx _)
  · rw [hself]
    intro v g st hx _
    obtain ⟨-, rfl, -⟩ : Via.func = v ∧ f = g ∧ Stage.enter = st := by simpa [hWpc] using hx
    simpa [hfib] using hF

/-- A worker schedules its fiber again and lets go of it. -/
theorem Own.requeue (h : Own s) (hE : Exclusive s) {v : Via} {c : FCtx} {W : Worker}
    (hpc : (s.workers w).pc = .exec v f (.requeue c)) (hW : W.pc = .top)
    (hfunc : ∀ g, W.funcFiber = some g → (s.workers w).funcFiber = some g ∧ g ≠ f) :
    Own ((s.push (s.workers w).sched
      ⟨.fiber f (s.fibers f).func, -1, c != .suspended none⟩).setWorker w W) := by
  have howns : (s.workers w).Owns f := owns_exec hpc
  obtain ⟨hy, hc, -⟩ := (hE.ok w).stage hpc
  have hlive : (Stage.requeue c).live = true := by
    cases c with
    | finished =>
      rw [EndState, FiberState.not_ended_of_yielded hy] at hc
      cases hc
    | entry | suspended => rfl
  -- first the worker lets go of the fiber, then the entry is made
  have hlet : Own (s.setWorker w W) := by
    refine h.between hE (W := W) (w := w) rfl rfl rfl rfl (by simp [hW]) (by simp [hW]) ?_
    intro g hg
    obtain ⟨hg', hne⟩ := hfunc g hg
    refine ⟨hg', fun st hx => ?_⟩
    rw [hpc] at hx
    injection hx with _ hfg _
    exact hne hfg.symm
  show Own ((s.setWorker w W).push (s.workers w).sched
    ⟨.fiber f (s.fibers f).func, -1, c != .suspended none⟩)
  refine hlet.push ?_ ?_
  · intro g t hj
    obtain ⟨rfl, rfl⟩ : f = g ∧ (s.fibers f).func = t := by simpa using hj
    exact ⟨h.live hpc hlive, fun _ => rfl⟩
  · intro g hg w' hw'
    exfalso
    obtain rfl := Option.some.inj hg
    by_cases ew : w' = w
    · rw [ew, State.setWorker_workers, Function.update_self] at hw'
      exact (hfunc f hw').2 rfl
    · rw [State.setWorker_workers, Function.update_of_ne ew] at hw'
      exact ew (hE.excl (.inr hw') howns)

/-- **A worker's move keeps entries and fibers in agreement.** -/
theorem Own.runMove (h : Own s) (hH : Held s) (hl : OwnRun s (.run w)) (hm : RunMove s w s') :
    Own s' := by
  have hE := hH.excl
  have hok := hE.ok w
  have hst : ∀ {v f st}, (s.workers w).pc = .exec v f st → StageOk (s.fibers f) st :=
    fun hpc => hok.stage hpc
  have hidle : ∀ {pc}, (s.workers w).pc = pc → (∀ v g st, pc ≠ .exec v g st) →
      ∀ g, (s.workers w).funcFiber = some g → (s.workers w).funcFiber = some g ∧
        ∀ st, (s.workers w).pc ≠ .exec .func g st :=
    fun hpc hx g hg => ⟨hg, fun st => by rw [hpc]; exact hx _ _ _⟩
  cases hm with
  | take hpc htake =>
    refine h.take hpc htake rfl rfl fun i => ?_
    rw [State.setWorker_queue, State.setSched_queue]
  | noEntry hpc _ =>
    exact h.between hE rfl rfl rfl rfl (by simp) (by simp) (hidle hpc (by simp))
  | dropEnded hpc hft _ =>
    exact h.between hE (W := (s.workers w).goto .drop) rfl rfl rfl rfl (by simp) (by simp)
      (hidle hpc (by simp))
  | enterFiber hpc hft he => exact h.enter hE hpc hft he
  | @reuseFunc k t b f F hpc hft hf hF =>
    obtain ⟨-, rfl⟩ := Fiber.reset_eq_some_iff.mp hF
    have howns : (s.workers w).Owns f := .inr hf
    exact h.wrap hE (F := Fiber.construct (some k) false) (fun w' hw' ho => hw' (hE.excl ho howns))
      (h.spare hf (by simp [hpc])) rfl rfl hf rfl (Nat.le_refl _) rfl (by simp [Fiber.construct])
  | @newFunc k t b hpc hft hf =>
    refine h.wrap hE (F := Fiber.construct (some k) false)
      (fun w' _ ho => Nat.lt_irrefl _ (hE.bound ho)) ?_ rfl rfl rfl rfl (Nat.le_succ _) rfl
      (by simp [Fiber.construct])
    intro i e he hj
    exact Nat.lt_irrefl _ (hE.queued i e he _ hj)
  | leave hpc hft hi =>
    refine h.between hE (W := (s.workers w).goto .left) (w := w) ?_ ?_ ?_ ?_ (by simp) (by simp)
      (hidle hpc (by simp))
    all_goals simp
  | toIdle hpc hft hi =>
    exact h.between hE (W := (s.workers w).goto .idleInc) rfl rfl rfl rfl (by simp) (by simp)
      (hidle hpc (by simp))
  | drop hpc | idleInc hpc | idleDec hpc =>
    exact h.between hE rfl rfl rfl (State.setSched_queue_eq s _ _ rfl) (by simp) (by simp)
      (hidle hpc (by simp))
  | idleIn hpc => exact h.between hE rfl rfl rfl rfl (by simp) (by simp) (hidle hpc (by simp))
  | idleStop hpc _ | idleWait hpc _ =>
    exact h.between hE rfl rfl rfl rfl (by simp) (by simp) (hidle hpc (by simp))
  | begin hpc _ hk =>
    exact h.next_stage hE hpc rfl rfl (Nat.le_refl _) rfl (by simp)
      (fun _ => ⟨(hst hpc).2, rfl⟩) fun _ => ⟨rfl, rfl⟩
  | beginEmpty hpc _ hk => exact absurd hk (h.live hpc rfl)
  | resume hpc _ =>
    exact h.next_stage hE hpc rfl rfl (Nat.le_refl _) rfl (by simp)
      (fun _ => ⟨(hst hpc).2, rfl⟩) fun _ => ⟨rfl, rfl⟩
  | hold hpc he =>
    refine h.next_stage hE hpc rfl rfl (Nat.le_refl _) rfl (by simp) (fun _ => ⟨?_, rfl⟩)
      fun _ => ⟨rfl, rfl⟩
    rw [he]
    rfl
  | save hpc _ =>
    exact h.next_stage hE hpc rfl rfl (Nat.le_refl _) rfl (by simp) (fun he => ⟨he, rfl⟩)
      fun hl => ⟨hl, rfl⟩
  | saveBack hpc _ _ =>
    exact h.next_stage hE hpc rfl rfl (Nat.le_refl _) (State.setSched_queue_eq _ _ _ rfl) (by simp)
      (fun he => ⟨he, rfl⟩) fun hl => ⟨hl, rfl⟩
  | @decr v f c hpc =>
    exact h.next_stage hE (F := s.fibers f) hpc rfl (by simp [State.decActive]) (Nat.le_refl _)
      (State.setSched_queue_eq s _ _ rfl) (by simp) (fun he => ⟨he, rfl⟩) fun hl => ⟨hl, rfl⟩
  | @keep v f c hpc hy =>
    exact h.next_stage hE (F := s.fibers f) hpc rfl (by simp) (Nat.le_refl _) rfl (by simp)
      (fun he => ⟨he, rfl⟩) fun hl => ⟨hl, rfl⟩
  | endFiber hpc he =>
    exact h.between hE (W := { s.workers w with ft := none, pc := .top }) rfl rfl rfl rfl (by simp)
      (by simp) fun g hg => ⟨hg, by simp [hpc]⟩
  | @endFunc f c hpc he =>
    -- the recycled fiber: by the condition nothing names it
    have howns : (s.workers w).Owns f := owns_exec hpc
    have hnone := hl.unqueued w f c rfl hpc he
    unfold WorkerOk at hok
    rw [hpc] at hok
    refine h.touch hE (w := w) (f := f) ⟨fun w' hw' => by simp [hw'], fun g hg => by simp [hg],
      Nat.le_refl _⟩ (fun w' hw' ho => hw' (hE.excl ho howns)) rfl ?_ ?_ ?_ (by simp)
    · intro i e he hj
      exact absurd hj (hnone i e he)
    · rintro e (hd | ⟨g, hd⟩) - <;> simp at hd
    · intro g hg _
      simp only [State.setWorker_workers, Function.update_self, Worker.goto_funcFiber] at hg
      obtain rfl := Option.some.inj (hok.2.symm.trans hg)
      exact hnone
  | lostFiber hpc hy he => exact (endState_ne_other (hst hpc).1 hy he).elim
  | lostFunc hpc hy he => exact (endState_ne_other (hst hpc).1 hy he).elim
  | @requeueFiber f c hpc =>
    unfold WorkerOk at hok
    rw [hpc] at hok
    refine h.requeue hE hpc rfl fun g hg => ⟨hg, ?_⟩
    rintro rfl
    exact hok.2.2.1 hg
  | requeueFunc hpc => exact h.requeue hE hpc rfl (by simp)

/-! ### The other moves -/

theorem Own.accept (h : Own s) (hE : Exclusive s) (i : SchedId) (sp : Spawn) (t : Int) :
    Own (s.accept i sp t) := by
  have hfresh : ∀ {w}, ¬(s.workers w).Owns s.nextFiber := fun ho => Nat.lt_irrefl _ (hE.bound ho)
  have hfib : ∀ g, g < s.nextFiber → (s.accept i sp t).fibers g = s.fibers g :=
    fun g hg => accept_fibers s i sp t (Nat.ne_of_lt hg)
  have hkeep : ∀ {e}, s.Matches e → (∀ g, e.job.fiberId = some g → g < s.nextFiber) →
      (s.accept i sp t).Matches e := fun hm hlt =>
    hm.of_fiber fun g hg he => by
      rw [hfib g (hlt g hg)] at he ⊢
      exact ⟨he, rfl⟩
  have hmem : ∀ {j e}, e ∈ (s.accept i sp t).queue j → e ∈ s.queue j ∨ e = acceptEntry s sp t :=
    fun he => (mem_of_mem_accept s i sp t he).imp_right And.right
  refine ⟨?_, ?_, ?_, ?_⟩
  · intro j e he
    rcases hmem he with he | rfl
    · exact hkeep (h.entry he) (hE.queued j e he)
    · intro g t' hj
      cases sp with
      | func => cases hj
      | fiber uc =>
        obtain ⟨rfl, rfl⟩ : s.nextFiber = g ∧ some s.nextTask = t' := by
          simpa [acceptEntry] using hj
        exact ⟨by simp, fun _ => by rw [accept_fiber_new]; rfl⟩
  · intro w e hd hft
    rw [accept_workers] at hd hft
    exact hkeep (h.taken hd hft) fun g hg => hE.bound (hd.owns hE hft hg)
  · intro w g hg hx j e he hj
    rw [accept_workers] at hg hx
    rcases hmem he with he | rfl
    · exact h.spare hg hx j e he hj
    · cases sp with
      | func => cases hj
      | fiber uc =>
        obtain rfl := Option.some.inj hj
        exact hfresh (.inr hg)
  · intro w v g st hx hl
    rw [accept_workers] at hx
    rw [hfib g (hE.bound (owns_exec hx))]
    exact h.live hx hl

theorem Own.acceptAll (h : Own s) (hE : Exclusive s) (i : SchedId) (sps : List Spawn) :
    Own (s.acceptAll i sps) :=
  (acceptAll_induction (I := fun s => Own s ∧ Exclusive s) s i sps ⟨h, hE⟩ fun _ sp h =>
    ⟨h.1.accept h.2 i sp (-1), h.2.accept i sp (-1)⟩).1

/-- The workers, the fibers and the queues are kept. -/
theorem Own.congr (h : Own s) (hw : s'.workers = s.workers) (hfib : s'.fibers = s.fibers)
    (hqueue : s'.queue = s.queue) : Own s' := by
  have hkeep : ∀ {e}, s.Matches e → s'.Matches e := fun hm =>
    hm.of_fiber fun g _ he => by
      rw [hfib] at he ⊢
      exact ⟨he, rfl⟩
  refine ⟨?_, ?_, ?_, ?_⟩
  · rw [hqueue]
    exact fun he => hkeep (h.entry he)
  · rw [hw]
    exact fun hd hft => hkeep (h.taken hd hft)
  · rw [hw, hqueue]
    exact h.spare
  · rw [hw, hfib]
    exact h.live

/-- The fiber that a body runs in is no idle `func_fiber`. -/
theorem in_use (hE : Exclusive s) {v : Via} {st : Stage} (hpc : (s.workers w).pc = .exec v f st)
    {w' : ThreadId} (hw' : (s.workers w').funcFiber = some f) :
    w' = w ∧ v = .func := by
  obtain rfl : w' = w := hE.excl (.inr hw') (owns_exec hpc)
  refine ⟨rfl, ?_⟩
  have hok := hE.ok w'
  unfold WorkerOk at hok
  rw [hpc] at hok
  cases v with
  | ft => exact absurd hw' hok.2.2.1
  | func => rfl

/-- **A body's move keeps entries and fibers in agreement.** -/
theorem Own.bodyMove (h : Own s) (hE : Exclusive s) {v : Via} {a : Action}
    (hpc : (s.workers w).pc = .exec v f .running) (hm : BodyMove s w v f a s') : Own s' := by
  have hst : (s.fibers f).state = .exec := ((hE.ok w).stage hpc).1
  have hlive : (s.fibers f).state.ended = false := by rw [hst]; rfl
  have hfunc : (s.fibers f).func ≠ none := h.live hpc rfl
  have hend : ∀ {F : SFiber}, s' = (s.finishTask f).leaveBody w v f F .finished →
      s'.workers = Function.update s.workers w ((s.workers w).goto (.exec v f (.leaving .finished))) →
      F.state.ended = true → Own s' := by
    intro F hs hw hF
    subst hs
    refine h.next_stage hE (F := F) hpc hw (by simp [State.leaveBody])
      (Nat.le_of_eq (by simp [State.leaveBody])) (by simp [State.leaveBody]) (by simp) ?_ ?_
    · intro he
      rw [hF] at he
      cases he
    · intro hl
      cases hl
  cases hm with
  | schedule => exact h.accept hE _ _ _
  | scheduleAll => exact h.acceptAll hE _ _
  | self =>
    refine h.push ?_ ?_
    · intro g t hj
      obtain ⟨rfl, rfl⟩ : f = g ∧ (s.fibers f).func = t := by simpa using hj
      exact ⟨hfunc, fun _ => rfl⟩
    · intro g hg w' hw'
      obtain rfl := Option.some.inj hg
      obtain ⟨rfl, rfl⟩ := in_use hE hpc hw'
      exact ⟨_, hpc⟩
  | stay => exact h.congr rfl rfl rfl
  | @go _ l sw _ _ =>
    have hin : Own (((s.setSwitchers f l).rehome f sw.target).setWorker w
        ((s.workers w).goto (.exec v f (.switching sw)))) := by
      have hw : (((s.setSwitchers f l).rehome f sw.target).setWorker w
          ((s.workers w).goto (.exec v f (.switching sw)))).workers =
          Function.update s.workers w ((s.workers w).goto (.exec v f (.switching sw))) := by simp
      exact h.next_stage hE (F := s.fibers f) hpc hw (by simp) (Nat.le_of_eq (by simp)) (by simp)
        (by simp) (fun he => ⟨he, rfl⟩) fun _ => ⟨rfl, rfl⟩
    refine hin.push ?_ ?_
    · intro g t hj
      obtain ⟨rfl, rfl⟩ : f = g ∧ (s.fibers f).func = t := by simpa using hj
      exact ⟨hfunc, fun _ => by simp⟩
    · intro g hg w' hw'
      obtain rfl := Option.some.inj hg
      have hw₀ : (s.workers w').funcFiber = some f := by
        by_cases ew : w' = w
        · rw [ew] at hw' ⊢
          simpa using hw'
        · simpa [ew] using hw'
      obtain ⟨rfl, rfl⟩ := in_use hE hpc hw₀
      exact ⟨.switching sw, by simp⟩
  | @yield _ st hy he =>
    exact h.next_stage hE (F := { s.fibers f with state := st }) hpc rfl rfl (Nat.le_refl _) rfl
      (by simp) (fun _ => ⟨hlive, rfl⟩) fun _ => ⟨rfl, rfl⟩
  | ret => exact hend rfl (by simp [State.leaveBody]) rfl
  | throw => exact hend rfl (by simp [State.leaveBody]) rfl

theorem Seated.launch (h : Seated s) {j : SchedId} {ws : List ThreadId}
    (hw : s'.workers = fun w => if w ∈ ws then Worker.fresh j false else s.workers w)
    (hfib : s'.fibers = s.fibers) (hqueue : s'.queue = s.queue) (hnext : s'.nextTask = s.nextTask)
    (htasks : s'.tasks = s.tasks) : Seated s' := by
  refine h.frame (fun {k p} hp => .inl ?_) (by rw [hqueue]; exact h.single) (Nat.le_of_eq hnext.symm) ?_
  · cases p with
    | queue i =>
      rw [sits_queue, hqueue] at hp
      exact hp
    | taken w =>
      by_cases hmem : w ∈ ws
      · exact absurd hp (not_taken (.inl (by simp [hw, hmem, Worker.fresh])))
      · simpa [hw, hmem] using hp
    | fiber g =>
      rw [sits_fiber, hfib] at hp
      exact hp
  · intro k p _ _ hu
    rw [htasks]
    refine ⟨?_, rfl⟩
    cases p with
    | queue | taken => trivial
    | fiber g =>
      rw [unended_fiber, hfib] at hu
      exact hu

theorem Seated.congr (h : Seated s) (hw : s'.workers = s.workers) (hfib : s'.fibers = s.fibers)
    (hqueue : s'.queue = s.queue) (hnext : s'.nextTask = s.nextTask) (htasks : s'.tasks = s.tasks) :
    Seated s' := by
  have hlaunch : s'.workers =
      fun w => if w ∈ ([] : List ThreadId) then Worker.fresh 0 false else s.workers w := by
    simp [hw]
  exact h.launch hlaunch hfib hqueue hnext htasks

theorem Own.launch (h : Own s) {j : SchedId} {ws : List ThreadId}
    (hw : s'.workers = fun w => if w ∈ ws then Worker.fresh j false else s.workers w)
    (hfib : s'.fibers = s.fibers) (hqueue : s'.queue = s.queue) : Own s' := by
  have hkeep : ∀ w, s'.workers w = s.workers w ∨ s'.workers w = Worker.fresh j false := by
    intro w
    by_cases hmem : w ∈ ws <;> simp [hw, hmem]
  have hmatch : ∀ {e}, s.Matches e → s'.Matches e := fun hm =>
    hm.of_fiber fun g _ he => by
      rw [hfib] at he ⊢
      exact ⟨he, rfl⟩
  refine ⟨?_, ?_, ?_, ?_⟩
  · rw [hqueue]
    exact fun he => hmatch (h.entry he)
  · intro w e hd hft
    rcases hkeep w with hsame | hfresh
    · rw [hsame] at hd hft
      exact hmatch (h.taken hd hft)
    · rw [hfresh] at hft
      cases hft
  · intro w g hg hx
    rw [hqueue]
    rcases hkeep w with hsame | hfresh
    · rw [hsame] at hg hx
      exact h.spare hg hx
    · rw [hfresh] at hg
      cases hg
  · intro w v g st hx hl
    rw [hfib]
    rcases hkeep w with hsame | hfresh
    · rw [hsame] at hx
      exact h.live hx hl
    · rw [hfresh] at hx
      cases hx

/-- What such runs keep: tasks apart, and entries and fibers in agreement. -/
structure Recycled (s : State) : Prop where
  held : Held s
  seated : Seated s
  own : Own s

/-- **Every such move keeps it.** -/
theorem Recycled.step {l : Label} (h : Recycled s) (hl : OwnRun s l)
    (hs : Scheduler.step s l = some s') : Recycled s' := by
  obtain ⟨hH, hS, hO⟩ := h
  have hE := hH.excl
  suffices hrest : Seated s' ∧ Own s' from ⟨hH.step hl.free hs, hrest.1, hrest.2⟩
  cases move_of_step hs with
  | run _ hm => exact ⟨hS.runMove hH hm, hO.runMove hH hl hm⟩
  | body _ hpc hm => exact ⟨hS.bodyMove hH hpc hm, hO.bodyMove hE hpc hm⟩
  | schedule => exact ⟨hS.accept hH _ _ _, hO.accept hE _ _ _⟩
  | scheduleAll => exact ⟨hS.acceptAll hH _ _, hO.acceptAll hE _ _⟩
  | @reschedule i f t => exact absurd rfl (hl.handle i f t)
  | startAgain => exact ⟨hS, hO⟩
  | @launch i ws =>
    have hq := start_queue hs
    exact ⟨hS.launch (j := i) rfl rfl hq rfl rfl, hO.launch (j := i) rfl rfl hq⟩
  | stop _ hm | owner _ hm =>
    obtain ⟨S, rfl, -⟩ := hm.frame
    exact ⟨hS.congr rfl rfl hm.queue rfl rfl, hO.congr rfl rfl hm.queue⟩

theorem Seated.init (u : Setup) : Seated u.init := by
  have hnone : ∀ {k p}, ¬Sits u.init k p := by
    intro k p hp
    cases p with
    | queue i => simp [init_queue] at hp
    | taken w => rcases init_workers u w with hw | ⟨i, hw⟩ <;> simp [hw, Worker.absent, Worker.fresh] at hp
    | fiber f => cases hp
  exact ⟨fun hp => absurd hp hnone, fun _ _ => Nat.zero_le _, fun hp => absurd hp hnone,
    fun hp => absurd hp hnone⟩

theorem Own.init (u : Setup) : Own u.init where
  entry he := by simp [init_queue] at he
  taken {w e} _ hft := by
    rcases init_workers u w with hw | ⟨i, hw⟩ <;> rw [hw] at hft <;> cases hft
  spare _ _ i e he := by simp [init_queue] at he
  live {w v f st} hpc := by
    rcases init_workers u w with hw | ⟨i, hw⟩ <;> rw [hw] at hpc <;> cases hpc

theorem Recycled.reach {u : Setup} (h : Reach Scheduler.step OwnRun u.init s) : Recycled s :=
  h.invariant ⟨⟨Exclusive.init u, Cover.init u⟩, Seated.init u, Own.init u⟩
    fun hI hP hs => hI.step hP hs

/-! ### Resumes through entries -/

/-- What a fiber entry is for. -/
structure ResumesOwn (s : State) : Prop where
  /-- a resume through an entry goes on with the task that the entry was made for, which has not
  ended -/
  own : ∀ w f e, (s.workers w).pc = .exec .ft f .enter → (s.workers w).ft = some e →
    ∃ k, e.job = .fiber f (some k) ∧ (s.fibers f).func = some k ∧ (s.tasks k).ended = false
  /-- no fiber is started without a function -/
  filled : ∀ w v f, (s.workers w).pc = .exec v f .enter → (s.fibers f).func ≠ none

/-- **An entry resumes its own task** in every run that recycles a fiber only when no entry is left
for it. -/
theorem resumes_own {u : Setup} (h : Reach Scheduler.step OwnRun u.init s) : ResumesOwn s := by
  obtain ⟨hH, hS, hO⟩ := Recycled.reach h
  refine ⟨fun w f e hpc hft => ?_, fun w v f hpc => hO.live hpc rfl⟩
  have hok := hH.excl.ok w
  unfold WorkerOk at hok
  rw [hpc] at hok
  obtain ⟨⟨-, hn⟩, -, -, e', he', hjob⟩ := hok
  obtain rfl := Option.some.inj (hft.symm.trans he')
  cases hj : e.job with
  | func k =>
    rw [hj] at hjob
    cases hjob
  | fiber g t =>
    obtain rfl : g = f := by simpa [hj, Job.fiberId] using hjob
    obtain ⟨ht, hfunc⟩ := hO.taken (.inr ⟨g, hpc⟩) hft g t hj
    obtain ⟨k, rfl⟩ := Option.ne_none_iff_exists'.mp ht
    exact ⟨k, rfl, hfunc hn, hS.isOpen (p := .fiber g) (hfunc hn) hn⟩

/-- `OwnRun`, as a test for runs with the threads of a list on scheduler 0. -/
def OwnRun.check (s : State) (l : Label) : Bool :=
  takesFreeCheck [0] s l &&
    match l with
    | .run w =>
      match (s.workers w).pc with
      | .exec .func _ (.after c) => c != .finished
      | _ => true
    | .reschedule .. => false
    | _ => true

theorem OwnRun.of_check {l : Label} (hE : Exclusive s) (ho : OnlyThreads [0] s)
    (h : OwnRun.check s l = true) (hs : Scheduler.step s l = some s') :
    OwnRun s l ∧ Exclusive s' ∧ OnlyThreads [0] s' := by
  obtain ⟨htake, h⟩ := Bool.and_eq_true_iff.mp h
  obtain ⟨hfree, hrest⟩ := takesFree_of_check hE ho htake hs
  refine ⟨⟨hfree, ?_, ?_⟩, hrest⟩
  · rintro i f t rfl
    cases h
  · rintro w f c rfl hpc he
    simp only [hpc, bne_iff_ne] at h
    exact absurd (finished_of_ended ((hE.ok w).stage hpc).1 he) h

/-- One worker; a function schedules its own handle and yields, and is gone on with through that
entry. -/
def handleRun : List Label :=
  [.start 0 [0], .schedule 0 .func (-1)] ++ runWorker 0 3 ++
    [.body 0 (.scheduleSelf 0 (-1)), .body 0 .yieldToHold] ++ runWorker 0 6

theorem resumes_own_handle :
    ∃ s, runs (guarded Scheduler.step OwnRun.check) (Setup.pool 1 (by decide)).init handleRun =
      some s ∧ ResumesOwn s := by
  obtain ⟨s, hr, -⟩ := exists_of_runs (guarded Scheduler.step OwnRun.check)
    (Setup.pool 1 (by decide)).init handleRun
    (fun s => (s.workers 0).pc == .exec .ft 0 .enter) (by decide +kernel)
  obtain ⟨hreach, -⟩ := Reach.of_guarded (I := fun s => Exclusive s ∧ OnlyThreads [0] s) .refl
    ⟨Exclusive.init _, OnlyThreads.init fun _ _ => rfl⟩
    (fun hI hp hs => OwnRun.of_check hI.1 hI.2 hp hs) hr
  exact ⟨s, hr, resumes_own hreach⟩

/-- Fresh tasks from outside; inside, the tasks compute, yield, end, schedule fresh tasks and their
own handles. -/
def Label.selfScheduling : Label → Bool
  | .body _ (.scheduleSelf ..) => true
  | l => l.plain

/-- The function ends before its handle is taken, and the worker resets the fiber. -/
def staleRun : List Label :=
  [.start 0 [0], .schedule 0 .func (-1)] ++ runWorker 0 3 ++
    [.body 0 (.scheduleSelf 0 (-1)), .body 0 .ret] ++ runWorker 0 3 ++ runWorker 0 2

/-- A stale entry starts a fiber without a function. -/
theorem not_resumes_own :
    ¬∀ (u : Setup) (s : State),
      Reach Scheduler.step (fun _ l => l.selfScheduling) u.init s → ResumesOwn s := by
  intro h
  obtain ⟨s, hs, hc⟩ := exists_of_runs Scheduler.step (Setup.pool 1 (by decide)).init staleRun
    (fun s => (s.workers 0).pc == .exec .ft 0 .enter && (s.fibers 0).func == none)
    (by decide +kernel)
  simp only [Bool.and_eq_true, beq_iff_eq] at hc
  obtain ⟨hpc, hfunc⟩ := hc
  exact (h _ s (.of_runs .refl (by decide) hs)).filled 0 _ 0 hpc hfunc

end LioNet.Scheduler
