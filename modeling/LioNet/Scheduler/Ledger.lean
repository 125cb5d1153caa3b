import LioNet.Scheduler.Hands

/-!
# Accounting for tasks

In a plain run (fresh tasks only, whose bodies compute, yield, end and schedule fresh tasks) an
accepted task that has not ended is one entry of its scheduler's `m_fibers` or in the hands of one of
its workers.  `Ledger` is the invariant; it also pins down what the entry or the worker knows about
the task, so that a body is begun once.

A task's token moves in four kinds of steps: `schedule()` makes it, a dequeue carries it from queue
to worker, a re-enqueue carries it back, and the end of the body retires it.  Every other move leaves
the tokens where they are (`Ledger.same_tokens`).
-/

namespace LioNet.Scheduler

open LioNet.Lib

/-- The body of the fiber being handled has not ended. -/
def Stage.live : Stage → Bool
  | .enter | .running | .switching _ => true
  | .leaving c | .dec c | .after c | .requeue c => c != .finished

/-- The unfinished task in the hands of worker `w`. -/
def State.holdsTask (s : State) (w : ThreadId) : Option TaskId :=
  match (s.workers w).pc with
  | .dispatch => (s.workers w).ft.bind Entry.task
  | .exec _ f st => if st.live then (s.fibers f).func else none
  | _ => none

/-- Task `k` is accepted, unfinished, and belongs to scheduler `i`. -/
def Open (s : State) (k : TaskId) (i : SchedId) : Prop :=
  (s.tasks k).accepted = true ∧ (s.tasks k).ended = false ∧ (s.tasks k).home = i

/-- An entry's job is the task `k`, ready to be begun or to go on. -/
def JobOk (s : State) (j : Job) (k : TaskId) : Prop :=
  match j with
  | .func k' => k' = k ∧ (s.tasks k).started = 0
  | .fiber f t =>
    t = some k ∧ (s.fibers f).func = some k ∧ (s.fibers f).state.ended = false ∧
      ((s.fibers f).ctx = .entry → (s.tasks k).started = 0)

/-- What a worker knows about the task it handles. -/
def Visit (s : State) (w : ThreadId) : Prop :=
  match (s.workers w).pc with
  | .dispatch => ∀ e, (s.workers w).ft = some e → ∃ k, e.task = some k ∧ JobOk s e.job k
  | .exec _ f st =>
    st.live = true → ∃ k, (s.fibers f).func = some k ∧
      (st = .enter → (s.fibers f).ctx = .entry → (s.tasks k).started = 0)
  | _ => True

/-- An entry of the queue of scheduler `i`. -/
structure Queued (s : State) (i : SchedId) (e : Entry) (k : TaskId) : Prop where
  task : e.task = some k
  isOpen : Open s k i
  job : JobOk s e.job k
  unheld : ∀ w, s.holdsTask w ≠ some k
  unowned : ∀ f, e.job.fiberId = some f → ∀ w, ¬(s.workers w).Owns f

structure Ledger (s : State) : Prop where
  nodup : ∀ i, ((s.queue i).map Entry.task).Nodup
  queued : ∀ {i e}, e ∈ s.queue i → ∃ k, Queued s i e k
  held : ∀ {w k}, s.holdsTask w = some k → Open s k (s.workers w).sched
  held_inj : ∀ {w w' k}, s.holdsTask w = some k → s.holdsTask w' = some k → w = w'
  visit : ∀ w, Visit s w
  cover : ∀ {k}, (s.tasks k).accepted = true → (s.tasks k).ended = false →
    (∃ e ∈ s.queue (s.tasks k).home, e.task = some k) ∨ ∃ w, s.holdsTask w = some k
  once : ∀ k, (s.tasks k).started ≤ 1
  fresh : ∀ {k}, (s.tasks k).accepted = true → k < s.nextTask
  unbegun : ∀ {k}, (s.tasks k).accepted = false → (s.tasks k).started = 0

variable {s s' : State} {w : ThreadId} {f : FiberId}

/-! ### Frames -/

theorem holdsTask_congr (hw : s'.workers w = s.workers w)
    (hf : ∀ g, (s.workers w).Owns g → s'.fibers g = s.fibers g) :
    s'.holdsTask w = s.holdsTask w := by
  unfold State.holdsTask
  rw [hw]
  cases hpc : (s.workers w).pc with
  | exec v g st => simp only [hf g (owns_exec hpc)]
  | _ => rfl

theorem JobOk.congr {j : Job} {k : TaskId} (h : JobOk s j k)
    (hf : ∀ g, j.fiberId = some g → s'.fibers g = s.fibers g)
    (hk : (s'.tasks k).started = (s.tasks k).started) : JobOk s' j k := by
  cases j with
  | func k' => exact ⟨h.1, by rw [hk]; exact h.2⟩
  | fiber g t =>
    have hg : s'.fibers g = s.fibers g := hf g rfl
    simp only [JobOk, hg, hk] at h ⊢
    exact h

theorem Visit.congr (h : Visit s w) (hw : s'.workers w = s.workers w)
    (hf : ∀ g, (s.workers w).Owns g → s'.fibers g = s.fibers g)
    (hk : ∀ k, s.holdsTask w = some k → (s'.tasks k).started = (s.tasks k).started) :
    Visit s' w := by
  unfold Visit at h ⊢
  rw [hw]
  cases hpc : (s.workers w).pc with
  | dispatch =>
    rw [hpc] at h
    intro e he
    obtain ⟨k, hek, hj⟩ := h e he
    refine ⟨k, hek, hj.congr (fun g hg => hf g (.inl ?_)) (hk k ?_)⟩
    · simp [Worker.hands, hpc, he, hg]
    · simp [State.holdsTask, hpc, he, hek]
  | exec v g st =>
    rw [hpc] at h
    intro hlive
    obtain ⟨k, hgk, hb⟩ := h hlive
    have hg := hf g (owns_exec hpc)
    refine ⟨k, by rw [hg]; exact hgk, fun hst hctx => ?_⟩
    rw [hk k (by simp [State.holdsTask, hpc, hlive, hgk])]
    exact hb hst (by rw [hg] at hctx; exact hctx)
  | _ => trivial

/-- The ledger's accepting, homing and ending columns agree. -/
def SameTasks (s s' : State) : Prop :=
  ∀ k, (s'.tasks k).accepted = (s.tasks k).accepted ∧ (s'.tasks k).home = (s.tasks k).home ∧
    (s'.tasks k).ended = (s.tasks k).ended

theorem SameTasks.isOpen (h : SameTasks s s') {k : TaskId} {i : SchedId} :
    Open s' k i ↔ Open s k i := by
  unfold Open
  rw [(h k).1, (h k).2.1, (h k).2.2]

theorem SameTasks.refl (s : State) : SameTasks s s := fun _ => ⟨rfl, rfl, rfl⟩

theorem SameTasks.of_eq (h : s'.tasks = s.tasks) : SameTasks s s' := by
  intro k
  rw [h]
  exact ⟨rfl, rfl, rfl⟩

/-- An entry stays what it was when its task and its fiber do, and no worker comes to have them. -/
theorem Queued.congr {i : SchedId} {e : Entry} {k : TaskId} (hq : Queued s i e k)
    (hopen : Open s' k i) (hf : ∀ g, e.job.fiberId = some g → s'.fibers g = s.fibers g)
    (hstart : (s'.tasks k).started = (s.tasks k).started)
    (hheld : ∀ w', s'.holdsTask w' = some k → s.holdsTask w' = some k)
    (howned : ∀ g, e.job.fiberId = some g → ∀ w', (s'.workers w').Owns g →
      (s.workers w').Owns g) : Queued s' i e k where
  task := hq.task
  isOpen := hopen
  job := hq.job.congr hf hstart
  unheld w' hk := hq.unheld w' (hheld w' hk)
  unowned g hg w' ho := hq.unowned g hg w' (howned g hg w' ho)

/-- One worker lets go of its task. -/
theorem holdsTask_letGo (hnone : s'.holdsTask w = none)
    (hother : ∀ w', w' ≠ w → s'.holdsTask w' = s.holdsTask w') {w' : ThreadId} {k : TaskId}
    (hk : s'.holdsTask w' = some k) : w' ≠ w ∧ s.holdsTask w' = some k := by
  have hne : w' ≠ w := by
    intro e
    rw [e, hnone] at hk
    cases hk
  exact ⟨hne, (hother w' hne).symm.trans hk⟩

/-- One worker comes to own nothing new, and the others do not change. -/
theorem owns_of_others (hw : ∀ w', w' ≠ w → s'.workers w' = s.workers w')
    (hown : ∀ g, (s'.workers w).Owns g → (s.workers w).Owns g) {w' : ThreadId} {g : FiberId}
    (ho : (s'.workers w').Owns g) : (s.workers w').Owns g := by
  by_cases e : w' = w
  · subst e
    exact hown g ho
  · rwa [hw w' e] at ho

/-- The columns of the ledger that say nothing about places. -/
theorem Ledger.columns (h : Ledger s) (htasks : s'.tasks = s.tasks)
    (hnext : s'.nextTask = s.nextTask) :
    (∀ k, (s'.tasks k).started ≤ 1) ∧
      (∀ {k}, (s'.tasks k).accepted = true → k < s'.nextTask) ∧
        ∀ {k}, (s'.tasks k).accepted = false → (s'.tasks k).started = 0 := by
  rw [htasks, hnext]
  exact ⟨h.once, h.fresh, h.unbegun⟩

/-- **Moves that leave the tokens where they are.**  Worker `w` and a fiber `f` of its own (or one
that nobody has) may change, and the task `w` holds may be begun. -/
theorem Ledger.same_tokens (h : Ledger s) (hqueue : s'.queue = s.queue)
    (hw : ∀ w', w' ≠ w → s'.workers w' = s.workers w')
    (hfib : ∀ g, g ≠ f → s'.fibers g = s.fibers g)
    (hf : ∀ w', w' ≠ w → ¬(s.workers w').Owns f)
    (hfq : ∀ i, ∀ e ∈ s.queue i, e.job.fiberId ≠ some f)
    (hown : ∀ g, g ≠ f → (s'.workers w).Owns g → (s.workers w).Owns g)
    (hsched : (s'.workers w).sched = (s.workers w).sched)
    (hhold : s'.holdsTask w = s.holdsTask w) (hvisit : Visit s' w) (htasks : SameTasks s s')
    (hstart : ∀ k, s.holdsTask w ≠ some k → (s'.tasks k).started = (s.tasks k).started)
    (honce : ∀ k, s.holdsTask w = some k → (s'.tasks k).started ≤ 1)
    (hnext : s'.nextTask = s.nextTask) : Ledger s' := by
  have hholds : ∀ w', s'.holdsTask w' = s.holdsTask w' := by
    intro w'
    by_cases e : w' = w
    · rw [e, hhold]
    · refine holdsTask_congr (hw w' e) fun g hg => hfib g ?_
      rintro rfl
      exact hf w' e hg
  refine ⟨?_, ?_, ?_, ?_, ?_, ?_, ?_, ?_, ?_⟩
  · intro i
    rw [hqueue]
    exact h.nodup i
  · intro i e he
    rw [hqueue] at he
    obtain ⟨k, hq⟩ := h.queued he
    have hgf : ∀ g, e.job.fiberId = some g → g ≠ f := by
      rintro g hg rfl
      exact hfq i e he hg
    refine ⟨k, hq.congr (htasks.isOpen.mpr hq.isOpen) (fun g hg => hfib g (hgf g hg))
      (hstart k (hq.unheld w)) (fun w' hk => by rwa [hholds] at hk) fun g hg w' ho => ?_⟩
    by_cases e' : w' = w
    · subst e'
      exact hown g (hgf g hg) ho
    · rwa [hw w' e'] at ho
  · intro w' k hk
    rw [hholds] at hk
    refine htasks.isOpen.mpr ?_
    by_cases e : w' = w
    · rw [e, hsched]
      exact h.held (e ▸ hk)
    · rw [hw w' e]
      exact h.held hk
  · intro w₁ w₂ k h₁ h₂
    rw [hholds] at h₁ h₂
    exact h.held_inj h₁ h₂
  · intro w'
    by_cases e : w' = w
    · rw [e]
      exact hvisit
    · refine (h.visit w').congr (hw w' e) (fun g hg => hfib g ?_) fun k hk => hstart k fun hk' => ?_
      · rintro rfl
        exact hf w' e hg
      · exact e (h.held_inj hk hk')
  · intro k ha he
    rw [(htasks k).1] at ha
    rw [(htasks k).2.2] at he
    rw [(htasks k).2.1, hqueue]
    rcases h.cover ha he with hq | ⟨w', hw'⟩
    · exact .inl hq
    · exact .inr ⟨w', by rw [hholds]; exact hw'⟩
  · intro k
    by_cases hk : s.holdsTask w = some k
    · exact honce k hk
    · rw [hstart k hk]
      exact h.once k
  · intro k ha
    rw [(htasks k).1] at ha
    rw [hnext]
    exact h.fresh ha
  · intro k ha
    rw [(htasks k).1] at ha
    rw [hstart k ?_]
    · exact h.unbegun ha
    · intro hk
      rw [(h.held hk).1] at ha
      cases ha

/-- A worker that changes nothing but its own locals, in a way the tokens do not see. -/
theorem Ledger.same_worker (h : Ledger s) (hH : Hands s) (hqueue : s'.queue = s.queue)
    (hw : ∀ w', w' ≠ w → s'.workers w' = s.workers w') (hfib : s'.fibers = s.fibers)
    (hown : ∀ g, (s'.workers w).Owns g → (s.workers w).Owns g)
    (hsched : (s'.workers w).sched = (s.workers w).sched)
    (hhold : s'.holdsTask w = s.holdsTask w) (hvisit : Visit s' w) (htasks : s'.tasks = s.tasks)
    (hq : QueueBound s) (hnext : s'.nextTask = s.nextTask) : Ledger s' := by
  refine h.same_tokens (w := w) (f := s.nextFiber) hqueue hw (fun g _ => by rw [hfib])
    (fun w' _ ho => Nat.lt_irrefl _ (hH.bound ho)) ?_ (fun g _ => hown g) hsched hhold hvisit
    (fun k => by rw [htasks]; exact ⟨rfl, rfl, rfl⟩) (fun k _ => by rw [htasks]) ?_ hnext
  · intro i e he hg
    exact Nat.lt_irrefl _ (hq i e he _ hg)
  · intro k _
    rw [htasks]
    exact h.once k

/-- A fiber that some worker has is in no queue. -/
theorem Ledger.not_queued (h : Ledger s) (ho : (s.workers w).Owns f) :
    ∀ i, ∀ e ∈ s.queue i, e.job.fiberId ≠ some f := by
  intro i e he hf
  obtain ⟨k, hq⟩ := h.queued he
  exact hq.unowned f hf w ho

/-! ### The four moves of a token -/

theorem holdsTask_top (hpc : (s.workers w).pc = .top) : s.holdsTask w = none := by
  simp [State.holdsTask, hpc]

/-- From queue to worker. -/
theorem Ledger.take (h : Ledger s) {e : Entry} {q : List Entry}
    (hpc : (s.workers w).pc = .top)
    (htake : takeFirst (s.takes w) (s.queue (s.workers w).sched) = some (e, q))
    (hw : s'.workers = Function.update s.workers w
      { s.workers w with ft := some e, pc := .dispatch })
    (hfib : s'.fibers = s.fibers) (htasks : s'.tasks = s.tasks) (hnext : s'.nextTask = s.nextTask)
    (hqueue : ∀ i, s'.queue i = if i = (s.workers w).sched then q else s.queue i) :
    Ledger s' := by
  obtain ⟨k, hqk⟩ := h.queued (takeFirst_mem htake)
  obtain ⟨hnd, hrest⟩ := takeFirst_nodup (h.nodup _) htake
  have hself : s'.workers w = { s.workers w with ft := some e, pc := .dispatch } := by simp [hw]
  have hmem : ∀ {i e'}, e' ∈ s'.queue i → e' ∈ s.queue i ∧ e'.task ≠ some k := by
    intro i e' he'
    rw [hqueue] at he'
    split at he'
    · rename_i hi
      subst hi
      exact ⟨mem_of_mem_takeFirst htake he', hqk.task ▸ hrest e' he'⟩
    · rename_i hi
      refine ⟨he', fun hk => hi ?_⟩
      obtain ⟨k', hq'⟩ := h.queued he'
      obtain rfl : k' = k := Option.some.inj (hq'.task.symm.trans hk)
      exact hq'.isOpen.2.2.symm.trans hqk.isOpen.2.2
  have hholds : s'.holdsTask w = some k := by
    simp [State.holdsTask, hself, hqk.task]
  have hother : ∀ w', w' ≠ w → s'.holdsTask w' = s.holdsTask w' := fun w' hw' =>
    holdsTask_congr (by simp [hw, hw']) fun g _ => by rw [hfib]
  have hopen : ∀ k' i, Open s' k' i ↔ Open s k' i := by
    intro k' i
    unfold Open
    rw [htasks]
  obtain ⟨honce, hfresh, hunbegun⟩ := h.columns htasks hnext
  refine ⟨?_, ?_, ?_, ?_, ?_, ?_, honce, hfresh, hunbegun⟩
  · intro i
    rw [hqueue]
    split
    · exact hnd
    · exact h.nodup i
  · intro i e' he'
    obtain ⟨hold, hne⟩ := hmem he'
    obtain ⟨k', hq'⟩ := h.queued hold
    refine ⟨k', hq'.congr ((hopen k' i).mpr hq'.isOpen) (fun g _ => by rw [hfib])
      (by rw [htasks]) ?_ ?_⟩
    · intro w' hk'
      by_cases ew : w' = w
      · rw [ew, hholds] at hk'
        exact absurd (hq'.task.trans hk'.symm) hne
      · rwa [hother w' ew] at hk'
    · intro g hg w' ho
      by_cases ew : w' = w
      · subst ew
        rw [hself] at ho
        rcases ho with ho | ho
        · -- the same fiber twice in the queue would be the same task twice
          have hge : e.job.fiberId = some g := by simpa [Worker.hands] using ho
          have hjob := hq'.job
          have hjob' := hqk.job
          cases hj : e.job with
          | func k'' => rw [hj] at hge; cases hge
          | fiber g' t' =>
            cases hj' : e'.job with
            | func k'' => rw [hj'] at hg; cases hg
            | fiber g'' t'' =>
              rw [hj] at hge hjob'
              rw [hj'] at hg hjob
              obtain rfl := Option.some.inj hge
              obtain rfl := Option.some.inj hg
              obtain rfl : k' = k := Option.some.inj (hjob.2.1.symm.trans hjob'.2.1)
              exact absurd hq'.task hne
        · exact .inr ho
      · simpa only [hw, Function.update_of_ne ew] using ho
  · intro w' k' hk'
    rw [hopen]
    by_cases ew : w' = w
    · subst ew
      obtain rfl : k = k' := Option.some.inj (hholds.symm.trans hk')
      rw [hself]
      exact hqk.isOpen
    · rw [hother w' ew] at hk'
      have := h.held hk'
      simpa [hw, ew] using this
  · intro w₁ w₂ k' h₁ h₂
    have hone : ∀ w', w' ≠ w → s'.holdsTask w' = some k' → s'.holdsTask w = some k' → False := by
      intro w' hw' h' hk
      rw [hother w' hw'] at h'
      obtain rfl : k = k' := Option.some.inj (hholds.symm.trans hk)
      exact hqk.unheld w' h'
    by_cases e₁ : w₁ = w
    · by_cases e₂ : w₂ = w
      · rw [e₁, e₂]
      · exact (hone w₂ e₂ h₂ (e₁ ▸ h₁)).elim
    · by_cases e₂ : w₂ = w
      · exact (hone w₁ e₁ h₁ (e₂ ▸ h₂)).elim
      · rw [hother w₁ e₁] at h₁
        rw [hother w₂ e₂] at h₂
        exact h.held_inj h₁ h₂
  · intro w'
    by_cases ew : w' = w
    · subst ew
      unfold Visit
      rw [hself]
      intro e' he'
      obtain rfl := Option.some.inj he'
      exact ⟨k, hqk.task, hqk.job.congr (fun g _ => by rw [hfib]) (by rw [htasks])⟩
    · exact (h.visit w').congr (by simp [hw, ew]) (fun g _ => by rw [hfib])
        fun k' _ => by rw [htasks]
  · intro k' ha he
    rw [htasks] at ha he
    rw [htasks]
    rcases h.cover ha he with ⟨e', he', hk'⟩ | ⟨w', hw'⟩
    · by_cases hkk : k' = k
      · exact .inr ⟨w, by rw [hkk]; exact hholds⟩
      · left
        refine ⟨e', ?_, hk'⟩
        rw [hqueue]
        split
        · rename_i hi
          rw [hi] at he'
          rcases mem_takeFirst_or htake he' with rfl | hmem'
          · exact absurd (Option.some.inj (hk'.symm.trans hqk.task)) hkk
          · exact hmem'
        · exact he'
    · right
      refine ⟨w', ?_⟩
      have ew : w' ≠ w := by
        rintro rfl
        rw [holdsTask_top hpc] at hw'
        cases hw'
      rw [hother w' ew]
      exact hw'

/-- From worker to queue: a suspended fiber is scheduled again. -/
theorem Ledger.giveBack (h : Ledger s) {k : TaskId} {e : Entry}
    (hhold : s.holdsTask w = some k) (he : e.job = .fiber f (some k))
    (hfunc : (s.fibers f).func = some k) (hstate : (s.fibers f).state.ended = false)
    (hctx : (s.fibers f).ctx ≠ .entry)
    (hw : ∀ w', w' ≠ w → s'.workers w' = s.workers w')
    (hpc : (s'.workers w).pc = .top) (hsched : (s'.workers w).sched = (s.workers w).sched)
    (hown : ∀ g, (s'.workers w).Owns g → (s.workers w).Owns g)
    (hfree : ∀ w', ¬(s'.workers w').Owns f)
    (hfib : s'.fibers = s.fibers) (htasks : s'.tasks = s.tasks) (hnext : s'.nextTask = s.nextTask)
    (hqueue : ∀ i, s'.queue i =
      if i = (s.workers w).sched then s.queue i ++ [e] else s.queue i) : Ledger s' := by
  have hopen : ∀ k' i, Open s' k' i ↔ Open s k' i := by
    intro k' i
    unfold Open
    rw [htasks]
  have hek : e.task = some k := by simp [Entry.task, he, Job.task]
  have hother : ∀ w', w' ≠ w → s'.holdsTask w' = s.holdsTask w' := fun w' hw' =>
    holdsTask_congr (hw w' hw') fun g _ => by rw [hfib]
  have hnone : s'.holdsTask w = none := holdsTask_top hpc
  have hback : ∀ {w' k'}, s'.holdsTask w' = some k' → w' ≠ w ∧ s.holdsTask w' = some k' :=
    fun hk => holdsTask_letGo hnone hother hk
  have hnew : ∀ w', s'.holdsTask w' ≠ some k := by
    intro w' hk
    exact (hback hk).1 (h.held_inj (hback hk).2 hhold)
  have hkeep : ∀ {i e'}, e' ∈ s.queue i → ∃ k', Queued s' i e' k' := by
    intro i e' he'
    obtain ⟨k', hq'⟩ := h.queued he'
    exact ⟨k', hq'.congr ((hopen k' i).mpr hq'.isOpen) (fun g _ => by rw [hfib])
      (by rw [htasks]) (fun w' hk => (hback hk).2) fun g _ w' ho => owns_of_others hw hown ho⟩
  obtain ⟨honce, hfresh, hunbegun⟩ := h.columns htasks hnext
  refine ⟨?_, ?_, ?_, ?_, ?_, ?_, honce, hfresh, hunbegun⟩
  · intro i
    rw [hqueue]
    split
    · rw [List.map_append, List.nodup_append]
      refine ⟨h.nodup i, by simp, ?_⟩
      intro a ha b hb hab
      obtain ⟨e', he', rfl⟩ := List.mem_map.mp ha
      obtain rfl : e.task = b := by simpa [eq_comm] using hb
      obtain ⟨k', hq'⟩ := h.queued he'
      obtain rfl : k' = k := Option.some.inj (hq'.task.symm.trans (hab.trans hek))
      exact hq'.unheld w hhold
    · exact h.nodup i
  · intro i e' he'
    rw [hqueue] at he'
    split at he'
    · rename_i hi
      rcases List.mem_append.mp he' with he' | he'
      · exact hkeep he'
      · obtain rfl := List.mem_singleton.mp he'
        refine ⟨k, hek, (hopen k i).mpr (hi ▸ h.held hhold), ?_, hnew, ?_⟩
        · rw [he]
          refine ⟨rfl, by rw [hfib]; exact hfunc, by rw [hfib]; exact hstate, fun hc => ?_⟩
          rw [hfib] at hc
          exact absurd hc hctx
        · intro g hg
          rw [he] at hg
          obtain rfl := Option.some.inj hg
          exact hfree
    · exact hkeep he'
  · intro w' k' hk'
    rw [hopen]
    obtain ⟨ew, hold⟩ := hback hk'
    rw [hw w' ew]
    exact h.held hold
  · intro w₁ w₂ k' h₁ h₂
    exact h.held_inj (hback h₁).2 (hback h₂).2
  · intro w'
    by_cases ew : w' = w
    · subst ew
      simp only [Visit, hpc]
    · exact (h.visit w').congr (hw w' ew) (fun g _ => by rw [hfib]) fun k' _ => by rw [htasks]
  · intro k' ha hend
    rw [htasks] at ha hend
    rw [htasks]
    rcases h.cover ha hend with ⟨e', he', hk'⟩ | ⟨w', hw'⟩
    · refine .inl ⟨e', ?_, hk'⟩
      rw [hqueue]
      split
      · exact List.mem_append_left _ he'
      · exact he'
    · by_cases ew : w' = w
      · subst ew
        obtain rfl : k = k' := Option.some.inj (hhold.symm.trans hw')
        refine .inl ⟨e, ?_, hek⟩
        rw [hqueue, if_pos (h.held hhold).2.2]
        exact List.mem_append_right _ (List.mem_singleton.mpr rfl)
      · exact .inr ⟨w', by rw [hother w' ew]; exact hw'⟩

/-- A fresh token in a queue. -/
theorem Ledger.accept (h : Ledger s) (hE : Exclusive s) (i : SchedId) (sp : Spawn) (t : Int) :
    Ledger (s.accept i sp t) := by
  have hfresh : (s.tasks s.nextTask).accepted = false := by
    by_contra hc
    exact Nat.lt_irrefl _ (h.fresh (by simpa using hc))
  have hne : ∀ {k}, (s.tasks k).accepted = true → k ≠ s.nextTask := by
    rintro k hk rfl
    rw [hfresh] at hk
    cases hk
  have htask : ∀ {k}, k ≠ s.nextTask → (s.accept i sp t).tasks k = s.tasks k := by
    intro k hk
    simp [hk]
  have hnew : (s.accept i sp t).tasks s.nextTask = ⟨true, i, t, 0, false⟩ := by simp
  have hown : ∀ w, ¬(s.workers w).Owns s.nextFiber := fun w ho => Nat.lt_irrefl _ (hE.bound ho)
  have hholds : ∀ w, (s.accept i sp t).holdsTask w = s.holdsTask w := fun w =>
    holdsTask_congr (by simp) fun g hg =>
      accept_fibers s i sp t fun hgf => hown w (hgf ▸ hg)
  have hopen : ∀ {k j}, Open s k j → Open (s.accept i sp t) k j := by
    intro k j ho
    unfold Open
    rw [htask (hne ho.1)]
    exact ho
  have hheld : ∀ {w k}, s.holdsTask w = some k → k ≠ s.nextTask := fun hk => hne (h.held hk).1
  have hek : (acceptEntry s sp t).task = some s.nextTask := by cases sp <;> rfl
  have hkeep : ∀ {j e}, e ∈ s.queue j → ∃ k, Queued (s.accept i sp t) j e k := by
    intro j e he
    obtain ⟨k, hq⟩ := h.queued he
    refine ⟨k, hq.congr (hopen hq.isOpen) ?_ (by rw [htask (hne hq.isOpen.1)])
      (fun w hk => by rwa [hholds] at hk) fun g _ w ho => by rwa [accept_workers] at ho⟩
    intro g hg
    apply accept_fibers s i sp t
    intro hgf
    subst hgf
    exact Nat.lt_irrefl _ (hE.queued j e he _ hg)
  refine ⟨?_, ?_, ?_, ?_, ?_, ?_, ?_, ?_, ?_⟩
  · intro j
    rw [accept_queue]
    split
    · rw [List.map_append, List.nodup_append]
      refine ⟨h.nodup i, by simp, ?_⟩
      intro a ha b hb hab
      obtain ⟨e', he', rfl⟩ := List.mem_map.mp ha
      obtain rfl : (acceptEntry s sp t).task = b := by simpa [eq_comm] using hb
      obtain ⟨k', hq'⟩ := h.queued he'
      exact hne hq'.isOpen.1 (Option.some.inj (hq'.task.symm.trans (hab.trans hek)))
    · exact h.nodup j
  · intro j e he
    rcases mem_of_mem_accept s i sp t he with he | ⟨rfl, rfl⟩
    · exact hkeep he
    · refine ⟨s.nextTask, hek, ?_, ?_, ?_, ?_⟩
      · unfold Open
        rw [hnew]
        exact ⟨rfl, rfl, rfl⟩
      · cases sp with
        | func => exact ⟨rfl, by rw [hnew]⟩
        | fiber uc =>
          refine ⟨rfl, ?_, ?_, fun _ => by rw [hnew]⟩
          · rw [accept_fiber_new]
            rfl
          · rw [accept_fiber_new]
            rfl
      · intro w hk
        rw [hholds] at hk
        exact hheld hk rfl
      · intro g hg w
        rw [accept_workers]
        cases sp with
        | func => cases hg
        | fiber uc =>
          obtain rfl := Option.some.inj hg
          exact hown w
  · intro w k hk
    rw [hholds] at hk
    rw [accept_workers]
    exact hopen (h.held hk)
  · intro w₁ w₂ k h₁ h₂
    rw [hholds] at h₁ h₂
    exact h.held_inj h₁ h₂
  · intro w
    refine (h.visit w).congr (by simp) (fun g hg => ?_) fun k hk => ?_
    · exact accept_fibers s i sp t fun hgf => hown w (hgf ▸ hg)
    · rw [htask (hheld hk)]
  · intro k ha hend
    by_cases hk : k = s.nextTask
    · subst hk
      refine .inl ⟨acceptEntry s sp t, ?_, hek⟩
      rw [hnew, accept_queue, if_pos rfl]
      exact List.mem_append_right _ (List.mem_singleton.mpr rfl)
    · rw [htask hk] at ha hend ⊢
      rcases h.cover ha hend with ⟨e, he, hek'⟩ | ⟨w, hw⟩
      · refine .inl ⟨e, ?_, hek'⟩
        rw [accept_queue]
        split
        · rename_i hi
          rw [hi] at he
          exact List.mem_append_left _ he
        · exact he
      · exact .inr ⟨w, by rw [hholds]; exact hw⟩
  · intro k
    by_cases hk : k = s.nextTask
    · rw [hk, hnew]
      exact Nat.zero_le _
    · rw [htask hk]
      exact h.once k
  · intro k ha
    rw [accept_nextTask]
    by_cases hk : k = s.nextTask
    · rw [hk]
      exact Nat.lt_succ_self _
    · rw [htask hk] at ha
      exact Nat.lt_succ_of_lt (h.fresh ha)
  · intro k ha
    by_cases hk : k = s.nextTask
    · rw [hk, hnew]
    · rw [htask hk] at ha ⊢
      exact h.unbegun ha

/-- The end of a body retires its token. -/
theorem Ledger.finish (h : Ledger s) {k : TaskId}
    (hhold : s.holdsTask w = some k) (hnone : s'.holdsTask w = none)
    (hw : ∀ w', w' ≠ w → s'.workers w' = s.workers w')
    (hfib : ∀ g, g ≠ f → s'.fibers g = s.fibers g) (howns : (s.workers w).Owns f)
    (hexcl : ∀ w', (s.workers w').Owns f → w' = w)
    (hown : ∀ g, (s'.workers w).Owns g → (s.workers w).Owns g) (hvisit : Visit s' w)
    (hqueue : s'.queue = s.queue)
    (htasks : s'.tasks = Function.update s.tasks k { s.tasks k with ended := true })
    (hnext : s'.nextTask = s.nextTask) : Ledger s' := by
  have htask : ∀ {k'}, k' ≠ k → s'.tasks k' = s.tasks k' := by
    intro k' hk
    simp [htasks, hk]
  have hk : s'.tasks k = { s.tasks k with ended := true } := by simp [htasks]
  have hstart : ∀ k', (s'.tasks k').started = (s.tasks k').started := by
    intro k'
    by_cases e : k' = k
    · rw [e, hk]
    · rw [htask e]
  have hacc : ∀ k', (s'.tasks k').accepted = (s.tasks k').accepted := by
    intro k'
    by_cases e : k' = k
    · rw [e, hk]
    · rw [htask e]
  have hopen : ∀ {k' i}, k' ≠ k → Open s k' i → Open s' k' i := by
    intro k' i e ho
    unfold Open
    rw [htask e]
    exact ho
  have hother : ∀ w', w' ≠ w → s'.holdsTask w' = s.holdsTask w' := fun w' hw' =>
    holdsTask_congr (hw w' hw') fun g hg => hfib g fun hgf => hw' (hexcl w' (hgf ▸ hg))
  have hback : ∀ {w' k'}, s'.holdsTask w' = some k' → w' ≠ w ∧ s.holdsTask w' = some k' :=
    fun hk => holdsTask_letGo hnone hother hk
  refine ⟨?_, ?_, ?_, ?_, ?_, ?_, ?_, ?_, ?_⟩
  · intro i
    rw [hqueue]
    exact h.nodup i
  · intro i e he
    rw [hqueue] at he
    obtain ⟨k', hq⟩ := h.queued he
    have hkk : k' ≠ k := by
      rintro rfl
      exact hq.unheld w hhold
    refine ⟨k', hq.congr (hopen hkk hq.isOpen) ?_ (hstart k') (fun w' hk => (hback hk).2)
      fun g _ w' ho => owns_of_others hw hown ho⟩
    intro g hg
    apply hfib g
    intro hgf
    exact hq.unowned g hg w (hgf ▸ howns)
  · intro w' k' hk'
    obtain ⟨ew, hold⟩ := hback hk'
    have hkk : k' ≠ k := by
      intro hkk
      subst hkk
      exact ew (h.held_inj hold hhold)
    rw [hw w' ew]
    exact hopen hkk (h.held hold)
  · intro w₁ w₂ k' h₁ h₂
    exact h.held_inj (hback h₁).2 (hback h₂).2
  · intro w'
    by_cases ew : w' = w
    · rw [ew]
      exact hvisit
    · exact (h.visit w').congr (hw w' ew) (fun g hg => hfib g fun hgf => ew (hexcl w' (hgf ▸ hg)))
        fun k' _ => hstart k'
  · intro k' ha hend
    have hkk : k' ≠ k := by
      rintro rfl
      rw [hk] at hend
      cases hend
    rw [htask hkk] at ha hend ⊢
    rw [hqueue]
    rcases h.cover ha hend with hq | ⟨w', hw'⟩
    · exact .inl hq
    · refine .inr ⟨w', ?_⟩
      have ew : w' ≠ w := by
        rintro rfl
        exact hkk (Option.some.inj (hw'.symm.trans hhold))
      rw [hother w' ew]
      exact hw'
  · intro k'
    rw [hstart]
    exact h.once k'
  · intro k' ha
    rw [hacc] at ha
    rw [hnext]
    exact h.fresh ha
  · intro k' ha
    rw [hacc] at ha
    rw [hstart]
    exact h.unbegun ha

end LioNet.Scheduler
