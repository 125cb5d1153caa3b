import LioNet.Scheduler.Accounting

/-!
# No task is lost, whatever the tasks do

`Ledger` describes plain runs.  When tasks also switch schedulers or schedule their own handle, a
task can have several entries, in several queues, and only a weaker law is left: an unfinished task
has an entry in the queue of the scheduler it belongs to, or one of that scheduler's workers handles
it.  `Cover` is that law with what its proof needs.  It holds in every run that takes only fibers in
nobody's hands.
-/

namespace LioNet.Scheduler

open LioNet.Lib

/-- Task `k` is the function of fiber `f`, and has not ended there. -/
def Carries (s : State) (f : FiberId) (k : TaskId) : Prop :=
  (s.fibers f).func = some k ∧ (s.fibers f).state.ended = false

/-- Scheduler `i` has task `k`: in its queue, or in the hands of one of its workers. -/
inductive Kept (s : State) (k : TaskId) (i : SchedId) : Prop
  | queuedFunc {e : Entry} : e ∈ s.queue i → e.job = .func k → Kept s k i
  | takenFunc {w : ThreadId} {e : Entry} : (s.workers w).sched = i → (s.workers w).pc = .dispatch →
      (s.workers w).ft = some e → e.job = .func k → Kept s k i
  | queued {f : FiberId} {e : Entry} : Carries s f k → e ∈ s.queue i →
      e.job.fiberId = some f → Kept s k i
  | held {w : ThreadId} {f : FiberId} : Carries s f k → (s.workers w).sched = i →
      (s.workers w).hands = some f → Kept s k i

structure Cover (s : State) : Prop where
  kept : ∀ {k}, (s.tasks k).accepted = true → (s.tasks k).ended = false →
    Kept s k (s.tasks k).home
  /-- a `func_fiber` that is not in use has no function -/
  spare : ∀ {w f}, (s.workers w).funcFiber = some f → (∀ st, (s.workers w).pc ≠ .exec .func f st) →
    (s.fibers f).func = none
  fresh : ∀ {k}, (s.tasks k).accepted = true → k < s.nextTask
  blank : ∀ {f}, s.nextFiber ≤ f → (s.fibers f).func = none

variable {s s' : State} {w : ThreadId} {f : FiberId} {k : TaskId} {i : SchedId}

/-! ### Frames -/

theorem Carries.congr (h : Carries s f k) (hf : s'.fibers f = s.fibers f) : Carries s' f k := by
  unfold Carries
  rw [hf]
  exact h

/-- One worker moves and the queues keep their entries: only what that worker had needs a look. -/
theorem Kept.frame (h : Kept s k i) (hqueue : ∀ e ∈ s.queue i, e ∈ s'.queue i)
    (hfunc : ∀ g, Carries s g k → Carries s' g k)
    (hother : ∀ w', w' ≠ w → s'.workers w' = s.workers w')
    (htaken : (s.workers w).sched = i → (s.workers w).pc = .dispatch →
      ∀ e, (s.workers w).ft = some e → e.job = .func k → Kept s' k i)
    (hheld : (s.workers w).sched = i →
      ∀ g, (s.workers w).hands = some g → Carries s g k → Kept s' k i) :
    Kept s' k i := by
  cases h with
  | queuedFunc he hj => exact .queuedFunc (hqueue _ he) hj
  | @takenFunc w' e hw hpc hft hj =>
    by_cases hww : w' = w
    · subst hww
      exact htaken hw hpc e hft hj
    · have hsame := hother w' hww
      exact .takenFunc (w := w') (by rw [hsame]; exact hw) (by rw [hsame]; exact hpc)
        (by rw [hsame]; exact hft) hj
  | queued hf he hj => exact .queued (hfunc _ hf) (hqueue _ he) hj
  | @held w' g hf hw hhands =>
    by_cases hww : w' = w
    · subst hww
      exact hheld hw g hhands hf
    · have hsame := hother w' hww
      exact .held (w := w') (hfunc _ hf) (by rw [hsame]; exact hw) (by rw [hsame]; exact hhands)

/-- A worker outside its visits has nothing that `Kept` could mean. -/
theorem Kept.frame_idle (h : Kept s k i) (hqueue : s'.queue = s.queue)
    (hfib : s'.fibers = s.fibers) (hother : ∀ w', w' ≠ w → s'.workers w' = s.workers w')
    (hhands : (s.workers w).hands = none)
    (hft : (s.workers w).pc = .dispatch → (s.workers w).ft = none) : Kept s' k i := by
  refine h.frame (w := w) (fun e he => by rw [hqueue]; exact he) (fun g hg => hg.congr (by rw [hfib]))
    hother ?_ ?_
  · intro _ hpc e he _
    rw [hft hpc] at he
    cases he
  · intro _ g hg _
    rw [hhands] at hg
    cases hg

/-- The unfinished tasks and where they belong are the same. -/
theorem Cover.kept_of (h : Cover s) (hk : ∀ k i, (s.tasks k).ended = false → Kept s k i → Kept s' k i)
    (htasks : SameTasks s s') {k : TaskId} (ha : (s'.tasks k).accepted = true)
    (he : (s'.tasks k).ended = false) : Kept s' k (s'.tasks k).home := by
  rw [(htasks k).1] at ha
  rw [(htasks k).2.2] at he
  rw [(htasks k).2.1]
  exact hk k _ he (h.kept ha he)

/-- A worker outside its visits changes its locals but not its `func_fiber`. -/
theorem Cover.between (h : Cover s) {W : Worker}
    (hhands : (s.workers w).hands = none)
    (hexec : ∀ v g st, (s.workers w).pc ≠ .exec v g st)
    (hft : (s.workers w).pc = .dispatch → (s.workers w).ft = none)
    (hw : s'.workers = Function.update s.workers w W) (hfib : s'.fibers = s.fibers)
    (hfunc : W.funcFiber = (s.workers w).funcFiber) (hqueue : s'.queue = s.queue)
    (htasks : s'.tasks = s.tasks) (hnext : s'.nextTask = s.nextTask)
    (hnextF : s'.nextFiber = s.nextFiber) : Cover s' where
  kept := by
    refine h.kept_of (fun k i _ hk => ?_) (.of_eq htasks)
    exact hk.frame_idle (w := w) hqueue hfib (fun w' hw' => by simp [hw, hw']) hhands hft
  spare {w' f} hf hpc := by
    rw [hfib]
    by_cases e : w' = w
    · subst e
      refine h.spare (w := w') ?_ fun st => hexec _ _ _
      simpa [hw, hfunc] using hf
    · simp only [hw, Function.update_of_ne e] at hf hpc
      exact h.spare hf hpc
  fresh ha := by
    rw [htasks] at ha
    rw [hnext]
    exact h.fresh ha
  blank hf := by
    rw [hnextF] at hf
    rw [hfib]
    exact h.blank hf

/-- A worker goes on with its visit: its fiber keeps its function, or the function has ended. -/
theorem Cover.visit (h : Cover s) (hH : Hands s) {v : Via} {st st' : Stage} {F : SFiber}
    (hpc : (s.workers w).pc = .exec v f st)
    (hw : s'.workers = Function.update s.workers w ((s.workers w).goto (.exec v f st')))
    (hfib : s'.fibers = Function.update s.fibers f F)
    (hfunc : ∀ k, Carries s f k → (s'.tasks k).ended = false →
      F.func = some k ∧ F.state.ended = false)
    (hqueue : s'.queue = s.queue)
    (htasks : ∀ k, (s'.tasks k).accepted = (s.tasks k).accepted ∧
      (s'.tasks k).home = (s.tasks k).home ∧ ((s.tasks k).ended = true → (s'.tasks k).ended = true))
    (hnext : s'.nextTask = s.nextTask) (hnextF : s'.nextFiber = s.nextFiber) : Cover s' := by
  have howns : (s.workers w).Owns f := owns_exec hpc
  have hself : s'.workers w = (s.workers w).goto (.exec v f st') := by simp [hw]
  have hF : s'.fibers f = F := by simp [hfib]
  have hg : ∀ {g}, g ≠ f → s'.fibers g = s.fibers g := fun hne => by simp [hfib, hne]
  refine ⟨?_, ?_, ?_, ?_⟩
  · intro k ha he
    rw [(htasks k).1] at ha
    rw [(htasks k).2.1]
    have he' : (s.tasks k).ended = false := by
      cases hs : (s.tasks k).ended with
      | false => rfl
      | true => rw [(htasks k).2.2 hs] at he; cases he
    have hfunc' : ∀ g, Carries s g k → Carries s' g k := by
      intro g hgk
      by_cases e : g = f
      · subst e
        unfold Carries
        rw [hF]
        exact hfunc k hgk he
      · exact hgk.congr (hg e)
    refine (h.kept ha he').frame (w := w) (fun e hmem => by rw [hqueue]; exact hmem) hfunc'
      (fun w' hw' => by simp [hw, hw']) ?_ ?_
    · intro _ hd
      rw [hpc] at hd
      cases hd
    · intro hi g hh hgk
      refine .held (w := w) (hfunc' g hgk) (by rw [hself]; exact hi) ?_
      rw [hself]
      simpa [Worker.hands, hpc] using hh
  · intro w' g hgf hne
    have hgf' : g ≠ f := by
      rintro rfl
      have ho : (s'.workers w').funcFiber = (s.workers w').funcFiber := by
        by_cases e : w' = w
        · subst e
          rw [hself]
          rfl
        · simp [hw, e]
      have hw' : w' = w := hH.excl (.inr (ho ▸ hgf)) howns
      subst hw'
      cases v with
      | func => exact hne st' (by rw [hself]; rfl)
      | ft =>
        have hok := hH.ok w'
        unfold WorkerOk at hok
        rw [hpc] at hok
        exact hok.2.2.1 (ho ▸ hgf)
    rw [hg hgf']
    by_cases e : w' = w
    · subst e
      refine h.spare (w := w') (by simpa [hself] using hgf) fun st₁ hc => ?_
      rw [hpc] at hc
      injection hc with _ hc
      exact hgf' hc.symm
    · simp only [hw, Function.update_of_ne e] at hgf hne
      exact h.spare hgf hne
  · intro k ha
    rw [(htasks k).1] at ha
    rw [hnext]
    exact h.fresh ha
  · intro g hle
    rw [hnextF] at hle
    have hgf : g ≠ f := by
      rintro rfl
      exact Nat.not_lt_of_le hle (hH.bound howns)
    rw [hg hgf]
    exact h.blank hle

/-- A visit that leaves the tasks alone. -/
theorem Cover.visit' (h : Cover s) (hH : Hands s) {v : Via} {st st' : Stage} {F : SFiber}
    (hpc : (s.workers w).pc = .exec v f st)
    (hw : s'.workers = Function.update s.workers w ((s.workers w).goto (.exec v f st')))
    (hfib : s'.fibers = Function.update s.fibers f F) (hfunc : F.func = (s.fibers f).func)
    (hend : (s.fibers f).state.ended = false → F.state.ended = false)
    (hqueue : s'.queue = s.queue) (htasks : s'.tasks = s.tasks)
    (hnext : s'.nextTask = s.nextTask) (hnextF : s'.nextFiber = s.nextFiber) : Cover s' :=
  h.visit hH hpc hw hfib (fun k hk _ => ⟨hfunc.trans hk.1, hend hk.2⟩) hqueue
    (fun k => by rw [htasks]; exact ⟨rfl, rfl, id⟩) hnext hnextF

/-! ### The moves of a worker -/

/-- A worker takes an entry. -/
theorem Cover.take (h : Cover s) {e : Entry} {q : List Entry} (hpc : (s.workers w).pc = .top)
    (htake : takeFirst (s.takes w) (s.queue (s.workers w).sched) = some (e, q))
    (hw : s'.workers = Function.update s.workers w
      { s.workers w with ft := some e, pc := .dispatch })
    (hfib : s'.fibers = s.fibers) (htasks : s'.tasks = s.tasks) (hnext : s'.nextTask = s.nextTask)
    (hnextF : s'.nextFiber = s.nextFiber)
    (hqueue : ∀ i, s'.queue i = if i = (s.workers w).sched then q else s.queue i) :
    Cover s' := by
  have hself : s'.workers w = { s.workers w with ft := some e, pc := .dispatch } := by simp [hw]
  have hmem : ∀ {i e'}, e' ∈ s.queue i → e' ∈ s'.queue i ∨ (i = (s.workers w).sched ∧ e' = e) := by
    intro i e' he'
    rw [hqueue]
    split
    · rename_i hi
      subst hi
      rcases mem_takeFirst_or htake he' with rfl | hq
      · exact .inr ⟨rfl, rfl⟩
      · exact .inl hq
    · exact .inl he'
  refine ⟨?_, ?_, ?_, ?_⟩
  · refine h.kept_of (fun k i _ hk => ?_) (.of_eq htasks)
    cases hk with
    | queuedFunc he' hj =>
      rcases hmem he' with hq | ⟨rfl, rfl⟩
      · exact .queuedFunc hq hj
      · exact .takenFunc (w := w) (by rw [hself]) (by rw [hself]) (by rw [hself]) hj
    | queued hf he' hj =>
      rcases hmem he' with hq | ⟨rfl, rfl⟩
      · exact .queued (hf.congr (by rw [hfib])) hq hj
      · refine .held (w := w) (hf.congr (by rw [hfib])) (by rw [hself]) ?_
        rw [hself]
        simpa [Worker.hands] using hj
    | @takenFunc w' e' hw' hpc' hft hj =>
      have hne : w' ≠ w := by
        rintro rfl
        rw [hpc] at hpc'
        cases hpc'
      have hsame : s'.workers w' = s.workers w' := by simp [hw, hne]
      exact .takenFunc (w := w') (by rw [hsame]; exact hw') (by rw [hsame]; exact hpc')
        (by rw [hsame]; exact hft) hj
    | @held w' g hg hw' hh =>
      have hne : w' ≠ w := by
        rintro rfl
        simp [Worker.hands, hpc] at hh
      have hsame : s'.workers w' = s.workers w' := by simp [hw, hne]
      exact .held (w := w') (hg.congr (by rw [hfib])) (by rw [hsame]; exact hw')
        (by rw [hsame]; exact hh)
  · intro w' g hg hne
    rw [hfib]
    by_cases e' : w' = w
    · subst e'
      exact h.spare (w := w') (by simpa [hself] using hg) (by simp [hpc])
    · simp only [hw, Function.update_of_ne e'] at hg hne
      exact h.spare hg hne
  · intro k ha
    rw [htasks] at ha
    rw [hnext]
    exact h.fresh ha
  · intro g hg
    rw [hnextF] at hg
    rw [hfib]
    exact h.blank hg

/-- A worker gives a fiber to a function it took. -/
theorem Cover.wrap (h : Cover s) {k : TaskId} {t : Int} {b : Bool} {W : Worker}
    (hpc : (s.workers w).pc = .dispatch) (hft : (s.workers w).ft = some ⟨.func k, t, b⟩)
    (hf : (s.fibers f).func = none) (hfw : ∀ w', w' ≠ w → (s.workers w').funcFiber ≠ some f)
    (hW : W.pc = .exec .func f .enter) (hfunc : W.funcFiber = some f)
    (hsched : W.sched = (s.workers w).sched) (hw : s'.workers = Function.update s.workers w W)
    (hfib : s'.fibers = Function.update s.fibers f (Fiber.construct (some k) false))
    (hlt : f < s'.nextFiber) (hnextF : s.nextFiber ≤ s'.nextFiber) (hqueue : s'.queue = s.queue)
    (htasks : s'.tasks = s.tasks) (hnext : s'.nextTask = s.nextTask) : Cover s' := by
  have hself : s'.workers w = W := by simp [hw]
  have hF : s'.fibers f = Fiber.construct (some k) false := by simp [hfib]
  have hg : ∀ {g}, g ≠ f → s'.fibers g = s.fibers g := fun hne => by simp [hfib, hne]
  have hkeep : ∀ {g k'}, Carries s g k' → Carries s' g k' := by
    intro g k' hgk
    refine hgk.congr (hg ?_)
    rintro rfl
    rw [Carries, hf] at hgk
    cases hgk.1
  refine ⟨?_, ?_, ?_, ?_⟩
  · refine h.kept_of (fun k' i _ hk => ?_) (.of_eq htasks)
    refine hk.frame (w := w) (fun e he => by rw [hqueue]; exact he)
      (fun g hgk => hkeep hgk) (fun w' hw' => by simp [hw, hw']) ?_ ?_
    · intro hi _ e he hj
      obtain rfl : ⟨.func k, t, b⟩ = e := Option.some.inj (hft.symm.trans he)
      obtain rfl : k = k' := Job.func.inj hj
      refine .held (w := w) (f := f) (by rw [Carries, hF]; exact ⟨rfl, rfl⟩)
        (by rw [hself, hsched]; exact hi) ?_
      rw [hself]
      simp [Worker.hands, hW]
    · intro _ g hh _
      simp [Worker.hands, hpc, hft, Job.fiberId] at hh
  · intro w' g hgf hne
    by_cases e : w' = w
    · subst e
      rw [hself] at hgf hne
      obtain rfl : f = g := Option.some.inj (hfunc.symm.trans hgf)
      exact (hne .enter hW).elim
    · simp only [hw, Function.update_of_ne e] at hgf hne
      have hgf' : g ≠ f := by
        rintro rfl
        exact hfw w' e hgf
      rw [hg hgf']
      exact h.spare hgf hne
  · intro k' ha
    rw [htasks] at ha
    rw [hnext]
    exact h.fresh ha
  · intro g hle
    have hgf : g ≠ f := by
      rintro rfl
      exact Nat.not_lt_of_le hle hlt
    rw [hg hgf]
    exact h.blank (Nat.le_trans hnextF hle)

/-- A worker is done with its fiber, whose function has ended or whose entry is in the queue. -/
theorem Cover.putDown (h : Cover s) (hH : Hands s) {W : Worker} {F : SFiber}
    (hhands : (s.workers w).hands = some f) (hw : s'.workers = Function.update s.workers w W)
    (hfib : s'.fibers = Function.update s.fibers f F)
    (hfunc : F = s.fibers f ∨ (s.fibers f).state.ended = true)
    (hff : ∀ g, W.funcFiber = some g → (s.workers w).funcFiber = some g ∧
      (g = f → F.func = none))
    (hqueue : ∀ i, ∀ e ∈ s.queue i, e ∈ s'.queue i)
    (hback : (s.fibers f).state.ended = true ∨
      ∃ e ∈ s'.queue (s.workers w).sched, e.job.fiberId = some f)
    (htasks : s'.tasks = s.tasks) (hnext : s'.nextTask = s.nextTask)
    (hnextF : s'.nextFiber = s.nextFiber) : Cover s' := by
  have howns : (s.workers w).Owns f := .inl hhands
  have hself : s'.workers w = W := by simp [hw]
  have hF : s'.fibers f = F := by simp [hfib]
  have hg : ∀ {g}, g ≠ f → s'.fibers g = s.fibers g := fun hne => by simp [hfib, hne]
  refine ⟨?_, ?_, ?_, ?_⟩
  · refine h.kept_of (fun k i _ hk => ?_) (.of_eq htasks)
    have hkeep : ∀ g, Carries s g k → Carries s' g k := by
      intro g hgk
      by_cases e : g = f
      · subst e
        rcases hfunc with rfl | hend
        · exact hgk.congr hF
        · rw [Carries, hend] at hgk
          cases hgk.2
      · exact hgk.congr (hg e)
    refine hk.frame (w := w) (hqueue i) hkeep (fun w' hw' => by simp [hw, hw']) ?_ ?_
    · intro _ hd e he hj
      simp [Worker.hands, hd, he, hj, Job.fiberId] at hhands
    · intro hi g hh hgk
      obtain rfl : f = g := Option.some.inj (hhands.symm.trans hh)
      rcases hback with hend | ⟨e, he, hj⟩
      · rw [Carries, hend] at hgk
        cases hgk.2
      · exact .queued (hkeep f hgk) (hi ▸ he) hj
  · intro w' g hgf hne
    by_cases e : w' = w
    · subst e
      rw [hself] at hgf
      obtain ⟨hold, hnone⟩ := hff g hgf
      by_cases eg : g = f
      · rw [eg, hF]
        exact hnone eg
      · rw [hg eg]
        refine h.spare (w := w') hold fun st hc => eg ?_
        simpa [Worker.hands, hc] using hhands
    · simp only [hw, Function.update_of_ne e] at hgf hne
      have hgf' : g ≠ f := by
        rintro rfl
        exact e (hH.excl (.inr hgf) howns)
      rw [hg hgf']
      exact h.spare hgf hne
  · intro k ha
    rw [htasks] at ha
    rw [hnext]
    exact h.fresh ha
  · intro g hle
    rw [hnextF] at hle
    have hgf : g ≠ f := by
      rintro rfl
      exact Nat.not_lt_of_le hle (hH.bound howns)
    rw [hg hgf]
    exact h.blank hle

/-- **A worker's move keeps the cover.** -/
theorem Cover.runMove (h : Cover s) (hE : Exclusive s) (hm : RunMove s w s') : Cover s' := by
  have hH := hE.toHands
  have hst : ∀ {v f st}, (s.workers w).pc = .exec v f st → StageOk (s.fibers f) st :=
    fun hpc => (hH.ok w).stage hpc
  cases hm with
  | @take e q hpc htake =>
    refine h.take hpc htake rfl rfl rfl rfl rfl fun i => ?_
    rw [State.setWorker_queue, State.setSched_queue]
  | noEntry hpc _ =>
    exact h.between (by simp [Worker.hands, hpc]) (by simp [hpc]) (by simp [hpc]) rfl rfl rfl rfl rfl
      rfl rfl
  | @dropEnded f k t b hpc hft he =>
    have hhands : (s.workers w).hands = some f := by
      simp [Worker.hands, hpc, hft, Job.fiberId]
    have hok := hH.ok w
    unfold WorkerOk at hok
    rw [hpc] at hok
    obtain ⟨-, hne⟩ := hok.2 _ f hft rfl
    refine h.putDown hH hhands rfl (by simp) (.inl rfl) (fun g hg => ⟨hg, ?_⟩) (fun i e he => he)
      (.inl he) rfl rfl rfl
    rintro rfl
    exact absurd hg hne
  | @enterFiber f k t b hpc hft he =>
    have hW : ((s.workers w).goto (.exec .ft f .enter)).hands = (s.workers w).hands := by
      simp [Worker.hands, hpc, hft, Job.fiberId]
    refine ⟨?_, ?_, h.fresh, h.blank⟩
    · refine h.kept_of (fun k i _ hk => ?_) (by exact .of_eq rfl)
      refine hk.frame (w := w) (fun e he => he) (fun g hg => hg) (fun w' hw' => by simp [hw']) ?_ ?_
      · intro _ _ e he hj
        obtain rfl := Option.some.inj (hft.symm.trans he)
        cases hj
      · intro hi g hh hg
        exact .held (w := w) hg (by simpa using hi) (by simpa [hW] using hh)
    · intro w' g hg hne
      by_cases e : w' = w
      · subst e
        exact h.spare (w := w') (by simpa using hg) (by simp [hpc])
      · simp only [State.setWorker_workers, Function.update_of_ne e] at hg hne
        exact h.spare hg hne
  | @reuseFunc k t b f F hpc hft hf hF =>
    obtain ⟨-, rfl⟩ := Fiber.reset_eq_some_iff.mp hF
    have howns : (s.workers w).Owns f := .inr hf
    refine h.wrap (W := { s.workers w with ft := none, pc := .exec .func f .enter }) hpc hft
      (h.spare hf (by simp [hpc])) ?_ rfl hf rfl rfl rfl (hH.bound howns) (Nat.le_refl _) rfl rfl rfl
    intro w' hw' hf'
    exact hw' (hH.excl (.inr hf') howns)
  | @newFunc k t b hpc hft hf =>
    refine h.wrap
      (W := { s.workers w with
        ft := none, funcFiber := some s.nextFiber, pc := .exec .func s.nextFiber .enter })
      hpc hft (h.blank (Nat.le_refl _)) ?_ rfl rfl rfl rfl rfl (Nat.lt_succ_self _) (Nat.le_succ _)
      rfl rfl rfl
    intro w' _ hf'
    exact Nat.lt_irrefl _ (hH.bound (.inr hf'))
  | leave hpc hft hi =>
    refine h.between (W := (s.workers w).goto .left) (by simp [Worker.hands, hpc, hft])
      (by simp [hpc]) (fun _ => hft) ?_ ?_ rfl ?_ ?_ ?_ ?_
    all_goals simp
  | toIdle hpc hft hi =>
    exact h.between (by simp [Worker.hands, hpc, hft]) (by simp [hpc]) (fun _ => hft) rfl rfl rfl rfl
      rfl rfl rfl
  | drop hpc =>
    exact h.between (by simp [Worker.hands, hpc]) (by simp [hpc]) (by simp [hpc]) rfl rfl rfl
      (State.setSched_queue_eq s _ _ rfl) rfl rfl rfl
  | @begin v f k hpc hctx hk =>
    refine h.visit hH (F := (s.fibers f).resume) hpc rfl rfl (fun k' hk' _ => ⟨hk'.1, rfl⟩) rfl ?_
      rfl rfl
    intro k'
    by_cases e : k' = k
    · subst e
      simp
    · simp [e]
  | @beginEmpty v f hpc hctx hk =>
    refine h.visit hH (F := (s.fibers f).resume.threw) hpc rfl rfl ?_ rfl (fun _ => ⟨rfl, rfl, id⟩)
      rfl rfl
    intro k' hk'
    rw [Carries, hk] at hk'
    cases hk'.1
  | @resume v f sw hpc hctx =>
    exact h.visit' hH (F := (s.fibers f).resume) hpc rfl rfl rfl (fun _ => rfl) rfl rfl rfl rfl
  | hold hpc he => exact h.visit' hH hpc rfl rfl rfl (fun _ => rfl) rfl rfl rfl rfl
  | @save v f c hpc hc => exact h.visit' hH hpc rfl rfl rfl id rfl rfl rfl rfl
  | @saveBack v f hpc _ _ =>
    exact h.visit' hH hpc rfl rfl rfl id (State.setSched_queue_eq _ _ _ rfl) rfl rfl rfl
  | @decr v f c hpc =>
    exact h.visit' hH (F := s.fibers f) hpc rfl (by simp [State.decActive]) rfl id
      (State.setSched_queue_eq s _ _ rfl) rfl rfl rfl
  | @keep v f c hpc hy =>
    exact h.visit' hH (F := s.fibers f) hpc rfl (by simp) rfl id rfl rfl rfl rfl
  | @endFiber f c hpc he =>
    have hok := hH.ok w
    unfold WorkerOk at hok
    rw [hpc] at hok
    refine h.putDown hH (f := f) (by simp [Worker.hands, hpc]) rfl (by simp) (.inl rfl)
      (fun g hg => ⟨hg, ?_⟩) (fun i e he => he) (.inl he) rfl rfl rfl
    rintro rfl
    exact absurd hg hok.2.2.1
  | @endFunc f c hpc he =>
    exact h.putDown hH (f := f) (by simp [Worker.hands, hpc]) rfl rfl
      (.inr he) (fun g hg => ⟨hg, fun _ => rfl⟩) (fun i e he => he)
      (.inl he) rfl rfl rfl
  | lostFiber hpc hy he => exact (endState_ne_other (hst hpc).1 hy he).elim
  | lostFunc hpc hy he => exact (endState_ne_other (hst hpc).1 hy he).elim
  | @requeueFiber f c hpc =>
    have hok := hH.ok w
    unfold WorkerOk at hok
    rw [hpc] at hok
    refine h.putDown hH (f := f) (by simp [Worker.hands, hpc]) rfl (by simp) (.inl rfl)
      (fun g hg => ⟨hg, ?_⟩) (fun i e he => State.mem_push _ _ _ _ he)
      (.inr ⟨_, State.mem_push_self _ _ _, rfl⟩) rfl rfl rfl
    rintro rfl
    exact absurd hg hok.2.2.1
  | @requeueFunc f c hpc =>
    exact h.putDown hH (f := f) (by simp [Worker.hands, hpc]) rfl (by simp) (.inl rfl)
      (fun g hg => by cases hg) (fun i e he => State.mem_push _ _ _ _ he)
      (.inr ⟨_, State.mem_push_self _ _ _, rfl⟩) rfl rfl rfl
  | idleInc hpc =>
    exact h.between (by simp [Worker.hands, hpc]) (by simp [hpc]) (by simp [hpc]) rfl rfl rfl
      (State.setSched_queue_eq s _ _ rfl) rfl rfl rfl
  | idleIn hpc =>
    exact h.between (by simp [Worker.hands, hpc]) (by simp [hpc]) (by simp [hpc]) rfl rfl rfl rfl
      rfl rfl rfl
  | idleStop hpc _ =>
    exact h.between (by simp [Worker.hands, hpc]) (by simp [hpc]) (by simp [hpc]) rfl rfl rfl rfl
      rfl rfl rfl
  | idleWait hpc _ =>
    exact h.between (by simp [Worker.hands, hpc]) (by simp [hpc]) (by simp [hpc]) rfl rfl rfl rfl
      rfl rfl rfl
  | idleDec hpc =>
    exact h.between (by simp [Worker.hands, hpc]) (by simp [hpc]) (by simp [hpc]) rfl rfl rfl
      (State.setSched_queue_eq s _ _ rfl) rfl rfl rfl

/-! ### The other moves -/

/-- The queues grow and nothing else changes. -/
theorem Cover.grow (h : Cover s) (hqueue : ∀ i, ∀ e ∈ s.queue i, e ∈ s'.queue i)
    (hw : s'.workers = s.workers) (hfib : s'.fibers = s.fibers) (htasks : s'.tasks = s.tasks)
    (hnext : s'.nextTask = s.nextTask) (hnextF : s'.nextFiber = s.nextFiber) : Cover s' where
  kept := h.kept_of (fun k i _ hk => hk.frame (w := 0) (hqueue i) (fun g hg => hg.congr (by rw [hfib]))
      (fun w' _ => by rw [hw])
      (fun hi hd e he hj => .takenFunc (w := 0) (by rw [hw]; exact hi) (by rw [hw]; exact hd)
        (by rw [hw]; exact he) hj)
      (fun hi g hh hg => .held (w := 0) (hg.congr (by rw [hfib])) (by rw [hw]; exact hi)
        (by rw [hw]; exact hh))) (.of_eq htasks)
  spare hf hpc := by
    rw [hw] at hf hpc
    rw [hfib]
    exact h.spare hf hpc
  fresh ha := by
    rw [htasks] at ha
    rw [hnext]
    exact h.fresh ha
  blank hf := by
    rw [hnextF] at hf
    rw [hfib]
    exact h.blank hf

theorem Cover.accept (h : Cover s) (hE : Exclusive s) (i : SchedId) (sp : Spawn) (t : Int) :
    Cover (s.accept i sp t) := by
  have hqueue : ∀ j, ∀ e ∈ s.queue j, e ∈ (s.accept i sp t).queue j := by
    intro j e he
    rw [accept_queue]
    split
    · rename_i hj
      exact List.mem_append_left _ (hj ▸ he)
    · exact he
  have hnew : (s.accept i sp t).tasks s.nextTask = ⟨true, i, t, 0, false⟩ := by simp
  have hold : ∀ {k}, k ≠ s.nextTask → (s.accept i sp t).tasks k = s.tasks k := by
    intro k hk
    simp [hk]
  have hfib : ∀ {g k}, Carries s g k → Carries (s.accept i sp t) g k := by
    intro g k hg
    refine hg.congr (accept_fibers s i sp t ?_)
    rintro rfl
    rw [Carries, h.blank (Nat.le_refl _)] at hg
    cases hg.1
  refine ⟨?_, ?_, ?_, ?_⟩
  · intro k ha he
    by_cases hk : k = s.nextTask
    · subst hk
      rw [hnew]
      have hmem : acceptEntry s sp t ∈ (s.accept i sp t).queue i := by
        rw [accept_queue, if_pos rfl]
        exact List.mem_append_right _ (List.mem_singleton.mpr rfl)
      cases sp with
      | func => exact .queuedFunc hmem rfl
      | fiber uc =>
        refine .queued (f := s.nextFiber) ?_ hmem rfl
        rw [Carries, accept_fiber_new]
        exact ⟨rfl, rfl⟩
    · rw [hold hk] at ha he ⊢
      refine (h.kept ha he).frame (w := 0) (hqueue _) (fun g hg => hfib hg)
        (fun w' _ => by rw [accept_workers]) ?_ ?_
      · intro hi hd e he' hj
        exact .takenFunc (w := 0) (by simpa using hi) (by simpa using hd) (by simpa using he') hj
      · intro hi g hh hg
        exact .held (w := 0) (hfib hg) (by simpa using hi) (by simpa using hh)
  · intro w g hg hne
    rw [accept_workers] at hg hne
    rw [accept_fibers s i sp t ?_]
    · exact h.spare hg hne
    · rintro rfl
      exact Nat.lt_irrefl _ (hE.bound (.inr hg))
  · intro k ha
    rw [accept_nextTask]
    by_cases hk : k = s.nextTask
    · rw [hk]
      exact Nat.lt_succ_self _
    · rw [hold hk] at ha
      exact Nat.lt_succ_of_lt (h.fresh ha)
  · intro g hg
    have hlt : s.nextFiber ≤ g := Nat.le_trans (accept_nextFiber s i sp t) hg
    by_cases hgn : g = s.nextFiber
    · subst hgn
      cases sp with
      | func => exact h.blank hlt
      | fiber uc => exact absurd hg (Nat.not_succ_le_self _)
    · rw [accept_fibers s i sp t hgn]
      exact h.blank hlt

theorem Cover.acceptAll (h : Cover s) (hE : Exclusive s) (i : SchedId) (sps : List Spawn) :
    Cover (s.acceptAll i sps) := by
  have hboth := acceptAll_induction (I := fun s => Cover s ∧ Exclusive s) s i sps ⟨h, hE⟩
    fun _ sp h => ⟨h.1.accept h.2 i sp (-1), h.2.accept i sp (-1)⟩
  exact hboth.1

theorem Cover.push (h : Cover s) (i : SchedId) (e : Entry) : Cover (s.push i e) :=
  h.grow (fun _ _ he => State.mem_push _ _ _ _ he) rfl rfl rfl rfl rfl

theorem rehome_tasks (hk : (s.fibers f).func = some k) :
    (s.rehome f i).tasks = Function.update s.tasks k { s.tasks k with home := i } := by
  simp [State.rehome, hk]

@[simp] theorem rehome_nextTask (s : State) (f : FiberId) (i : SchedId) :
    (s.rehome f i).nextTask = s.nextTask := by
  unfold State.rehome
  split <;> rfl

/-- `rehome` changes where the fiber's own task belongs, and nothing else of the ledger. -/
theorem rehome_task (s : State) (f : FiberId) (i : SchedId) (k : TaskId) :
    ((s.rehome f i).tasks k).accepted = (s.tasks k).accepted ∧
      ((s.rehome f i).tasks k).ended = (s.tasks k).ended ∧
      (((s.rehome f i).tasks k).home = (s.tasks k).home ∨
        (s.fibers f).func = some k ∧ ((s.rehome f i).tasks k).home = i) := by
  cases hf : (s.fibers f).func with
  | none => simp [State.rehome, hf]
  | some k' =>
    rw [rehome_tasks hf]
    by_cases e : k = k'
    · subst e
      simp
    · simp [e]

/-- A task changes its scheduler, and its fiber's entry goes to the new queue. -/
theorem Cover.rehome (h : Cover s) (hst : (s.fibers f).state.ended = false) {i : SchedId}
    {e : Entry} (he : e.job.fiberId = some f) : Cover ((s.rehome f i).push i e) := by
  have hqueue : ∀ j, ∀ e' ∈ s.queue j, e' ∈ ((s.rehome f i).push i e).queue j := by
    intro j e' he'
    refine State.mem_push _ _ _ _ ?_
    rwa [rehome_queue]
  refine ⟨?_, ?_, ?_, ?_⟩
  · intro k ha hopen
    obtain ⟨hacc, hend, hhome⟩ := rehome_task s f i k
    rw [State.push_tasks] at ha hopen ⊢
    rcases hhome with hsame | ⟨hk, hnew⟩
    · rw [hsame]
      refine (h.kept (hacc ▸ ha) (hend ▸ hopen)).frame (w := 0) (hqueue _)
        (fun g hg => hg.congr (by simp)) (fun w' _ => by simp) ?_ ?_
      · intro hi hd e' he' hj
        exact .takenFunc (w := 0) (by simpa using hi) (by simpa using hd) (by simpa using he') hj
      · intro hi g hh hg
        exact .held (w := 0) (hg.congr (by simp)) (by simpa using hi) (by simpa using hh)
    · rw [hnew]
      refine .queued (f := f) ?_ (State.mem_push_self _ _ _) he
      rw [Carries, State.push_fibers, rehome_fibers]
      exact ⟨hk, hst⟩
  · intro w g hg hne
    simp only [State.push_workers, rehome_workers, State.push_fibers, rehome_fibers] at hg hne ⊢
    exact h.spare hg hne
  · intro k ha
    rw [State.push_tasks, (rehome_task s f i k).1] at ha
    rw [State.push_nextTask, rehome_nextTask]
    exact h.fresh ha
  · intro g hg
    rw [State.push_nextFiber, rehome_nextFiber] at hg
    rw [State.push_fibers, rehome_fibers]
    exact h.blank hg

/-- What `finishTask` writes, seen from one task. -/
theorem finishTask_task (s : State) (f : FiberId) (k : TaskId) :
    ((s.finishTask f).tasks k).accepted = (s.tasks k).accepted ∧
      ((s.finishTask f).tasks k).home = (s.tasks k).home ∧
      ((s.tasks k).ended = true → ((s.finishTask f).tasks k).ended = true) ∧
      ((s.fibers f).func = some k → ((s.finishTask f).tasks k).ended = true) := by
  cases hf : (s.fibers f).func with
  | none => simp [State.finishTask, hf]
  | some k' =>
    rw [finishTask_tasks hf]
    by_cases e : k = k'
    · subst e
      simp
    · simp [e, Ne.symm e]

/-- A body returns or throws. -/
theorem Cover.endBody (h : Cover s) (hH : Hands s) {v : Via} {F : SFiber}
    (hpc : (s.workers w).pc = .exec v f .running) :
    Cover ((s.finishTask f).leaveBody w v f F .finished) := by
  have hw : ((s.finishTask f).leaveBody w v f F .finished).workers =
      Function.update s.workers w ((s.workers w).goto (.exec v f (.leaving .finished))) := by
    simp [State.leaveBody]
  have hfib : ((s.finishTask f).leaveBody w v f F .finished).fibers =
      Function.update s.fibers f F := by
    simp [State.leaveBody]
  refine h.visit hH hpc hw hfib ?_ (by simp [State.leaveBody]) ?_ (by simp [State.leaveBody])
    (by simp [State.leaveBody])
  · intro k hk hopen
    have hend := (finishTask_task s f k).2.2.2 hk.1
    have hopen' : ((s.finishTask f).tasks k).ended = false := hopen
    rw [hend] at hopen'
    cases hopen'
  · intro k
    obtain ⟨hacc, hhome, hend, -⟩ := finishTask_task s f k
    exact ⟨hacc, hhome, hend⟩

theorem Cover.bodyMove (h : Cover s) (hE : Exclusive s) {v : Via} {a : Action}
    (hpc : (s.workers w).pc = .exec v f .running) (hm : BodyMove s w v f a s') : Cover s' := by
  have hst : (s.fibers f).state = .exec := ((hE.ok w).stage hpc).1
  cases hm with
  | schedule => exact h.accept hE _ _ _
  | scheduleAll => exact h.acceptAll hE _ _
  | self => exact h.push _ _
  | stay => exact h.grow (fun _ _ he => he) rfl rfl rfl rfl rfl
  | @go _ l sw _ _ =>
    have hs : Cover (s.setSwitchers f l) := h.grow (fun _ _ he => he) rfl rfl rfl rfl rfl
    have hr := hs.rehome (f := f) (i := sw.target)
      (e := ⟨.fiber f (s.fibers f).func, sw.thread, false⟩) (by simp [hst, FiberState.ended]) rfl
    have hH : Hands (((s.setSwitchers f l).rehome f sw.target).push sw.target
        ⟨.fiber f (s.fibers f).func, sw.thread, false⟩) :=
      hE.toHands.touch_none (by simp) (by simp) (by simp)
    have hpc' : ((((s.setSwitchers f l).rehome f sw.target).push sw.target
        ⟨.fiber f (s.fibers f).func, sw.thread, false⟩).workers w).pc = .exec v f .running := by
      simpa using hpc
    exact hr.visit' hH (F := s.fibers f) hpc' (by simp; rfl) (by simp) (by simp)
      (fun he => by simpa using he) rfl rfl rfl rfl
  | @yield _ st hy he =>
    exact h.visit' hE.toHands (F := { s.fibers f with state := st }) hpc rfl rfl rfl
      (fun _ => FiberState.not_ended_of_yielded hy) rfl rfl rfl rfl
  | ret hl => exact h.endBody hE.toHands hpc
  | throw hl => exact h.endBody hE.toHands hpc

theorem Cover.launch (h : Cover s) {i : SchedId} {ws : List ThreadId}
    (habsent : ∀ w ∈ ws, (s.workers w).pc = .absent)
    (hw : s'.workers = fun w => if w ∈ ws then Worker.fresh i false else s.workers w)
    (hfib : s'.fibers = s.fibers) (hqueue : s'.queue = s.queue) (htasks : s'.tasks = s.tasks)
    (hnext : s'.nextTask = s.nextTask) (hnextF : s'.nextFiber = s.nextFiber) : Cover s' := by
  have hold : ∀ {w}, (s.workers w).pc ≠ .absent → s'.workers w = s.workers w := by
    intro w hne
    have hmem : w ∉ ws := fun hmem => hne (habsent w hmem)
    simp [hw, hmem]
  refine ⟨?_, ?_, ?_, ?_⟩
  · refine h.kept_of (fun k j _ hk => ?_) (.of_eq htasks)
    cases hk with
    | queuedFunc he hj => exact .queuedFunc (by rw [hqueue]; exact he) hj
    | @takenFunc w e hi hd hft hj =>
      have hsame := hold (w := w) (by rw [hd]; simp)
      exact .takenFunc (w := w) (by rw [hsame]; exact hi) (by rw [hsame]; exact hd)
        (by rw [hsame]; exact hft) hj
    | queued hg he hj => exact .queued (hg.congr (by rw [hfib])) (by rw [hqueue]; exact he) hj
    | @held w g hg hi hh =>
      have hne : (s.workers w).pc ≠ .absent := by
        intro hc
        simp [Worker.hands, hc] at hh
      have hsame := hold hne
      exact .held (w := w) (hg.congr (by rw [hfib])) (by rw [hsame]; exact hi)
        (by rw [hsame]; exact hh)
  · intro w g hg hne
    rw [hfib]
    by_cases hmem : w ∈ ws
    · simp only [hw, hmem, if_true] at hg
      cases hg
    · simp only [hw, hmem, if_false] at hg hne
      exact h.spare hg hne
  · intro k ha
    rw [htasks] at ha
    rw [hnext]
    exact h.fresh ha
  · intro g hg
    rw [hnextF] at hg
    rw [hfib]
    exact h.blank hg

/-- `Exclusive` and `Cover` together: the invariant of the runs that take only fibers in nobody's
hands. -/
structure Held (s : State) : Prop where
  excl : Exclusive s
  cover : Cover s

/-- **Every such move keeps the cover.** -/
theorem Held.step {l : Label} (h : Held s) (htake : TakesFree s l) (hs : step s l = some s') :
    Held s' := by
  refine ⟨h.excl.step htake hs, ?_⟩
  cases move_of_step hs with
  | run _ hm => exact h.cover.runMove h.excl hm
  | body _ hpc hm => exact h.cover.bodyMove h.excl hpc hm
  | schedule => exact h.cover.accept h.excl _ _ _
  | scheduleAll => exact h.cover.acceptAll h.excl _ _
  | reschedule => exact h.cover.push _ _
  | startAgain => exact h.cover
  | @launch i ws _ _ _ _ _ habs =>
    exact h.cover.launch (i := i) habs rfl rfl (State.setSched_queue_eq s i _ rfl) rfl rfl rfl
  | stop _ hm | owner _ hm =>
    have hq := hm.queue
    obtain ⟨S, rfl, -⟩ := hm.frame
    exact h.cover.grow (fun j e he => by rw [hq]; exact he) rfl rfl rfl rfl rfl

theorem Cover.init (u : Setup) : Cover u.init where
  kept ha := by simp [Setup.init, Task.none] at ha
  spare {w f} hf := by
    rcases init_workers u w with hw | ⟨i, hw⟩ <;> rw [hw] at hf <;> cases hf
  fresh ha := by simp [Setup.init, Task.none] at ha
  blank _ := rfl

theorem Held.reach {u : Setup} (h : Reach Scheduler.step TakesFree u.init s) : Held s :=
  h.invariant ⟨Exclusive.init u, Cover.init u⟩ fun hI hP hs => hI.step hP hs

/-- A plain run takes only fibers in nobody's hands. -/
theorem takesFree_of_plain {u : Setup} (h : Reach Scheduler.step (fun _ l => l.plain) u.init s) :
    Reach Scheduler.step TakesFree u.init s :=
  h.mono' fun hr _ => (Books.reach hr).ledger.takesFree _

end LioNet.Scheduler
