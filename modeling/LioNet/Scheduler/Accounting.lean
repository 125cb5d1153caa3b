import LioNet.Scheduler.Ledger

/-!
# Every accepted task is in exactly one place

The moves of a plain run keep the `Ledger`: each move of a worker or a body either carries a token
or leaves it where it is.  The ledger also says that an entry's fiber is in nobody's hands, so a
plain run meets `TakesFree` by itself.
-/

namespace LioNet.Scheduler

open LioNet.Lib

variable {s s' : State} {w : ThreadId} {f : FiberId}

/-! ### The moves of a worker -/

theorem holdsTask_exec {v : Via} {st : Stage} (hpc : (s.workers w).pc = .exec v f st) :
    s.holdsTask w = if st.live then (s.fibers f).func else none := by
  simp [State.holdsTask, hpc]

theorem Visit.live {v : Via} {st : Stage} (h : Visit s w) (hpc : (s.workers w).pc = .exec v f st)
    (hlive : st.live = true) :
    ∃ k, (s.fibers f).func = some k ∧
      (st = .enter → (s.fibers f).ctx = .entry → (s.tasks k).started = 0) := by
  unfold Visit at h
  rw [hpc] at h
  exact h hlive

/-- A worker goes to another stage of its visit, and the fiber keeps its function. -/
theorem Ledger.next_stage (h : Ledger s) (hH : Hands s) {v : Via} {st st' : Stage} {F : SFiber}
    (hpc : (s.workers w).pc = .exec v f st)
    (hw : s'.workers = Function.update s.workers w ((s.workers w).goto (.exec v f st')))
    (hfib : s'.fibers = Function.update s.fibers f F) (hfunc : F.func = (s.fibers f).func)
    (hlive : st'.live = st.live) (hst : st' ≠ .enter) (hqueue : s'.queue = s.queue)
    (htasks : SameTasks s s')
    (hstart : ∀ k, s.holdsTask w ≠ some k → (s'.tasks k).started = (s.tasks k).started)
    (honce : ∀ k, s.holdsTask w = some k → (s'.tasks k).started ≤ 1)
    (hnext : s'.nextTask = s.nextTask) : Ledger s' := by
  have howns : (s.workers w).Owns f := owns_exec hpc
  have hself : s'.workers w = (s.workers w).goto (.exec v f st') := by simp [hw]
  have hpc' : (s'.workers w).pc = .exec v f st' := by rw [hself]; rfl
  have hf : (s'.fibers f).func = (s.fibers f).func := by simp [hfib, hfunc]
  refine h.same_tokens (w := w) (f := f) hqueue (fun w' hw' => by simp [hw, hw'])
    (fun g hg => by simp [hfib, hg]) (fun w' hw' ho => hw' (hH.excl ho howns))
    (h.not_queued howns) ?_ (by rw [hself]; rfl) ?_ ?_ htasks hstart honce hnext
  · intro g _ ho
    rw [hself, owns_goto_exec hpc] at ho
    exact ho
  · rw [holdsTask_exec hpc', holdsTask_exec hpc, hlive, hf]
  · unfold Visit
    rw [hpc']
    intro hl
    obtain ⟨k, hk, -⟩ := (h.visit w).live hpc (hlive ▸ hl)
    exact ⟨k, hf.trans hk, fun he => absurd he hst⟩

/-- Between its visits a worker holds no task. -/
theorem Ledger.between (h : Ledger s) (hE : Exclusive s) {W : Worker}
    (hhold : s.holdsTask w = none) (hw : s'.workers = Function.update s.workers w W)
    (hfib : s'.fibers = s.fibers) (hsched : W.sched = (s.workers w).sched)
    (hpc : (∀ v g st, W.pc ≠ .exec v g st) ∧ (W.pc = .dispatch → W.ft = none))
    (hfunc : W.funcFiber = (s.workers w).funcFiber) (hqueue : s'.queue = s.queue)
    (htasks : s'.tasks = s.tasks) (hnext : s'.nextTask = s.nextTask) : Ledger s' := by
  have hself : s'.workers w = W := by simp [hw]
  refine h.same_worker (w := w) hE.toHands hqueue (fun w' hw' => by simp [hw, hw']) hfib ?_
    (by rw [hself, hsched]) ?_ ?_ htasks hE.queued hnext
  · intro g ho
    rw [hself] at ho
    rcases ho with ho | ho
    · unfold Worker.hands at ho
      split at ho
      · rename_i hW
        exact absurd hW (hpc.1 _ _ _)
      · rename_i hW
        rw [hpc.2 hW] at ho
        cases ho
      · cases ho
    · exact .inr (hfunc ▸ ho)
  · rw [hhold]
    unfold State.holdsTask
    rw [hself]
    split
    · rename_i hW
      rw [hpc.2 hW]
      rfl
    · rename_i hW
      exact absurd hW (hpc.1 _ _ _)
    · rfl
  · unfold Visit
    rw [hself]
    split
    · rename_i hW
      intro e he
      rw [hpc.2 hW] at he
      cases he
    · rename_i hW
      exact absurd hW (hpc.1 _ _ _)
    · trivial

/-- A stage that touches no task. -/
theorem Ledger.next_stage' (h : Ledger s) (hH : Hands s) {v : Via} {st st' : Stage} {F : SFiber}
    (hpc : (s.workers w).pc = .exec v f st)
    (hw : s'.workers = Function.update s.workers w ((s.workers w).goto (.exec v f st')))
    (hfib : s'.fibers = Function.update s.fibers f F) (hfunc : F.func = (s.fibers f).func)
    (hlive : st'.live = st.live) (hst : st' ≠ .enter) (hqueue : s'.queue = s.queue)
    (htasks : s'.tasks = s.tasks) (hnext : s'.nextTask = s.nextTask) : Ledger s' :=
  h.next_stage hH hpc hw hfib hfunc hlive hst hqueue (.of_eq htasks) (fun _ _ => by rw [htasks])
    (fun k _ => by rw [htasks]; exact h.once k) hnext

/-- A fiber about to be scheduled again still has its task, begun and not ended. -/
theorem Ledger.requeued (h : Ledger s) (hH : Hands s) {v : Via} {c : FCtx}
    (hpc : (s.workers w).pc = .exec v f (.requeue c)) :
    ∃ k, s.holdsTask w = some k ∧ (s.fibers f).func = some k ∧
      (s.fibers f).state.ended = false ∧ (s.fibers f).ctx ≠ .entry := by
  obtain ⟨hy, hc, -, hctx⟩ := (hH.ok w).stage hpc
  have hn := FiberState.not_ended_of_yielded hy
  have hcf : c ≠ .finished := by
    rintro rfl
    rw [EndState, hn] at hc
    cases hc
  have hce : c ≠ .entry := by
    rintro rfl
    exact hc
  have hlive : (Stage.requeue c).live = true := by simpa [Stage.live] using hcf
  obtain ⟨k, hk, -⟩ := (h.visit w).live hpc hlive
  refine ⟨k, ?_, hk, hn, ?_⟩
  · rw [holdsTask_exec hpc, if_pos hlive, hk]
  · rw [hctx]
    exact hce

/-- A worker schedules its fiber again and lets go of it. -/
theorem Ledger.requeue (h : Ledger s) (hE : Exclusive s) {v : Via} {c : FCtx} {W : Worker}
    (hpc : (s.workers w).pc = .exec v f (.requeue c))
    (hs : s' = (s.push (s.workers w).sched
      ⟨.fiber f (s.fibers f).func, -1, c != .suspended none⟩).setWorker w W)
    (hW : W.pc = .top) (hsched : W.sched = (s.workers w).sched)
    (hfunc : ∀ g, W.funcFiber = some g → (s.workers w).funcFiber = some g)
    (hne : W.funcFiber ≠ some f) (htasks : s'.tasks = s.tasks)
    (hnext : s'.nextTask = s.nextTask) : Ledger s' := by
  have howns : (s.workers w).Owns f := owns_exec hpc
  have hWowns : ∀ g, W.Owns g → W.funcFiber = some g := by
    intro g ho
    simpa [Worker.Owns, Worker.hands, hW] using ho
  obtain ⟨k, hhold, hk, hn, hctx⟩ := h.requeued hE.toHands hpc
  subst hs
  refine h.giveBack (f := f) (k := k) (e := ⟨.fiber f (some k), -1, c != .suspended none⟩) hhold rfl
    hk hn hctx (fun w' hw' => by simp [hw']) (by simpa using hW) (by simpa using hsched) ?_ ?_ rfl
    htasks hnext fun i => ?_
  · intro g ho
    simp only [State.setWorker_workers, Function.update_self] at ho
    exact .inr (hfunc g (hWowns g ho))
  · intro w' ho
    by_cases e : w' = w
    · subst e
      simp only [State.setWorker_workers, Function.update_self] at ho
      exact hne (hWowns f ho)
    · simp only [State.setWorker_workers, Function.update_of_ne e] at ho
      exact e (hE.excl ho howns)
  · rw [State.setWorker_queue, State.push_queue, hk]
    split
    · rename_i hi
      rw [hi]
    · rfl

theorem finished_of_ended {c : FCtx} {st : FiberState} (hc : EndState c st)
    (he : st.ended = true) : c = .finished := by
  cases c with
  | entry => exact hc.elim
  | suspended b => rw [EndState] at hc; rw [FiberState.not_ended_of_yielded hc] at he; cases he
  | finished => rfl

/-- A worker begins a function it took out of the queue. -/
theorem Ledger.wrap (h : Ledger s) {k : TaskId} {t : Int} {b : Bool} {W : Worker}
    (hpc : (s.workers w).pc = .dispatch) (hft : (s.workers w).ft = some ⟨.func k, t, b⟩)
    (hW : W.pc = .exec .func f .enter) (hfunc : W.funcFiber = some f)
    (hsched : W.sched = (s.workers w).sched)
    (hf : ∀ w', w' ≠ w → ¬(s.workers w').Owns f)
    (hfq : ∀ i, ∀ e ∈ s.queue i, e.job.fiberId ≠ some f)
    (hw : s'.workers = Function.update s.workers w W)
    (hfib : s'.fibers = Function.update s.fibers f (Fiber.construct (some k) false))
    (hqueue : s'.queue = s.queue) (htasks : s'.tasks = s.tasks)
    (hnext : s'.nextTask = s.nextTask) : Ledger s' := by
  have hself : s'.workers w = W := by simp [hw]
  have hfF : s'.fibers f = Fiber.construct (some k) false := by simp [hfib]
  have hjob : (s.tasks k).started = 0 := by
    have hv := h.visit w
    unfold Visit at hv
    rw [hpc] at hv
    obtain ⟨k', hk', hj⟩ := hv _ hft
    obtain rfl : k = k' := Option.some.inj hk'
    exact hj.2
  have hhold : s.holdsTask w = some k := by
    simp [State.holdsTask, hpc, hft, Entry.task, Job.task]
  refine h.same_tokens (w := w) (f := f) hqueue (fun w' hw' => by simp [hw, hw'])
    (fun g hg => by simp [hfib, hg]) hf hfq ?_ (by rw [hself, hsched]) ?_ ?_ (.of_eq htasks)
    (fun _ _ => by rw [htasks]) (fun k' _ => by rw [htasks]; exact h.once k') hnext
  · intro g hg ho
    rw [hself] at ho
    simp only [Worker.Owns, Worker.hands, hW, hfunc, or_self] at ho
    exact absurd (Option.some.inj ho).symm hg
  · rw [hhold, holdsTask_exec (hself ▸ hW), hfF]
    rfl
  · unfold Visit
    rw [hself, hW]
    intro _
    rw [hfF, htasks]
    exact ⟨k, rfl, fun _ _ => hjob⟩

theorem Visit.dispatch {f : FiberId} {k : Option TaskId} {t : Int} {b : Bool} (h : Visit s w)
    (hpc : (s.workers w).pc = .dispatch) (hft : (s.workers w).ft = some ⟨.fiber f k, t, b⟩) :
    ∃ k', k = some k' ∧ (s.fibers f).func = some k' ∧ (s.fibers f).state.ended = false ∧
      ((s.fibers f).ctx = .entry → (s.tasks k').started = 0) := by
  unfold Visit at h
  rw [hpc] at h
  obtain ⟨k', -, hj⟩ := h _ hft
  exact ⟨k', hj⟩

/-- **A worker's move keeps the ledger.** -/
theorem Ledger.runMove (h : Ledger s) (hE : Exclusive s) (hm : RunMove s w s') : Ledger s' := by
  have hH := hE.toHands
  have hst : ∀ {v f st}, (s.workers w).pc = .exec v f st → StageOk (s.fibers f) st :=
    fun hpc => (hH.ok w).stage hpc
  cases hm with
  | @take e q hpc htake =>
    refine h.take hpc htake rfl rfl rfl rfl fun i => ?_
    rw [State.setWorker_queue, State.setSched_queue]
  | noEntry hpc _ =>
    exact h.between hE (holdsTask_top hpc) rfl rfl rfl ⟨by simp, fun _ => rfl⟩ rfl rfl rfl rfl
  | dropEnded hpc hft he =>
    obtain ⟨k', -, -, hn, -⟩ := (h.visit w).dispatch hpc hft
    rw [hn] at he
    cases he
  | @enterFiber f k t b hpc hft he =>
    obtain ⟨k', rfl, hk, -, hs⟩ := (h.visit w).dispatch hpc hft
    refine h.same_worker (w := w) hH rfl (fun w' hw' => by simp [hw']) rfl ?_ (by simp [Worker.goto])
      ?_ ?_ rfl hE.queued rfl
    · intro g ho
      simpa [Worker.Owns, Worker.hands, Worker.goto, hpc, hft, Job.fiberId] using ho
    · simp [State.holdsTask, hpc, hft, Worker.goto, Stage.live, Entry.task, Job.task, hk]
    · simp only [Visit, Worker.goto, State.setWorker_workers, Function.update_self]
      exact fun _ => ⟨k', hk, fun _ => hs⟩
  | @reuseFunc k t b f F hpc hft hf hF =>
    obtain ⟨-, rfl⟩ := Fiber.reset_eq_some_iff.mp hF
    have howns : (s.workers w).Owns f := .inr hf
    exact h.wrap (W := { s.workers w with ft := none, pc := .exec .func f .enter }) hpc hft rfl hf
      rfl (fun w' hw' ho => hw' (hH.excl ho howns)) (h.not_queued howns) rfl rfl rfl rfl rfl
  | @newFunc k t b hpc hft hf =>
    refine h.wrap
      (W := { s.workers w with
        ft := none, funcFiber := some s.nextFiber, pc := .exec .func s.nextFiber .enter })
      hpc hft rfl rfl rfl (fun w' _ ho => Nat.lt_irrefl _ (hH.bound ho)) ?_ rfl rfl rfl rfl rfl
    intro i e he hg
    exact Nat.lt_irrefl _ (hE.queued i e he _ hg)
  | leave hpc hft hi =>
    have hnone : s.holdsTask w = none := by simp [State.holdsTask, hpc, hft]
    refine h.between (W := (s.workers w).goto .left) hE hnone ?_ ?_ rfl
      ⟨by simp [Worker.goto], by simp [Worker.goto]⟩ rfl ?_ ?_ ?_
    all_goals simp
  | toIdle hpc hft hi =>
    exact h.between hE (by simp [State.holdsTask, hpc, hft]) rfl rfl rfl
      ⟨by simp [Worker.goto], by simp [Worker.goto]⟩ rfl rfl rfl rfl
  | drop hpc =>
    exact h.between hE (by simp [State.holdsTask, hpc]) rfl rfl rfl
      ⟨by simp [Worker.goto], by simp [Worker.goto]⟩ rfl (State.setSched_queue_eq s _ _ rfl) rfl rfl
  | @begin v f k hpc hctx hk =>
    -- the one move that counts a start: the ledger says it is the first
    obtain ⟨k', hk', hs⟩ := (h.visit w).live hpc rfl
    obtain rfl : k = k' := Option.some.inj (hk.symm.trans hk')
    have hhold : s.holdsTask w = some k := by
      rw [holdsTask_exec hpc, hk]
      rfl
    refine h.next_stage hH (F := (s.fibers f).resume) hpc rfl rfl rfl rfl (by simp) rfl ?_ ?_ ?_ rfl
    · intro k'
      by_cases e : k' = k
      · subst e
        simp
      · simp [e]
    · intro k' hne
      have e : k' ≠ k := by
        rintro rfl
        exact hne hhold
      simp [e]
    · intro k' hk'
      obtain rfl : k = k' := Option.some.inj (hhold.symm.trans hk')
      simp [hs rfl hctx]
  | beginEmpty hpc hctx hk =>
    obtain ⟨k', hk', -⟩ := (h.visit w).live hpc rfl
    rw [hk] at hk'
    cases hk'
  | @resume v f sw hpc hctx =>
    exact h.next_stage' hH (F := (s.fibers f).resume) hpc rfl rfl rfl rfl (by simp) rfl rfl rfl
  | hold hpc he => exact h.next_stage' hH hpc rfl rfl rfl rfl (by simp) rfl rfl rfl
  | @save v f c hpc hc => exact h.next_stage' hH hpc rfl rfl rfl rfl (by simp) rfl rfl rfl
  | @saveBack v f hpc _ _ =>
    exact h.next_stage' hH hpc rfl rfl rfl rfl (by simp) (State.setSched_queue_eq _ _ _ rfl) rfl rfl
  | @decr v f c hpc =>
    exact h.next_stage' hH (F := s.fibers f) hpc rfl (by simp [State.decActive]) rfl rfl (by simp)
      (State.setSched_queue_eq s _ _ rfl) rfl rfl
  | @keep v f c hpc hy =>
    exact h.next_stage' hH (F := s.fibers f) hpc rfl (by simp) rfl rfl (by simp) rfl rfl rfl
  | @endFiber f c hpc he =>
    obtain rfl := finished_of_ended (hst hpc).1 he
    exact h.between hE (by rw [holdsTask_exec hpc]; rfl) rfl rfl rfl ⟨by simp, by simp⟩ rfl rfl rfl rfl
  | @endFunc f c hpc he =>
    obtain rfl := finished_of_ended (hst hpc).1 he
    have howns : (s.workers w).Owns f := owns_exec hpc
    refine h.same_tokens (w := w) (f := f) rfl (fun w' hw' => by simp [hw'])
      (fun g hg => by simp [hg]) (fun w' hw' ho => hw' (hH.excl ho howns)) (h.not_queued howns) ?_
      (by simp [Worker.goto]) ?_ ?_ (.refl s) (fun _ _ => rfl) (fun k _ => h.once k) rfl
    · intro g _ ho
      simp only [State.setWorker_workers, Function.update_self] at ho
      rcases ho with ho | ho
      · cases ho
      · exact .inr ho
    · rw [holdsTask_exec hpc, holdsTask_top (by simp [Worker.goto])]
      rfl
    · simp [Visit, Worker.goto]
  | lostFiber hpc hy he => exact (endState_ne_other (hst hpc).1 hy he).elim
  | lostFunc hpc hy he => exact (endState_ne_other (hst hpc).1 hy he).elim
  | @requeueFiber f c hpc =>
    have hok := hH.ok w
    unfold WorkerOk at hok
    rw [hpc] at hok
    exact h.requeue hE hpc rfl rfl rfl (fun g hg => hg) hok.2.2.1 rfl rfl
  | requeueFunc hpc => exact h.requeue hE hpc rfl rfl rfl (by simp) (by simp) rfl rfl
  | idleInc hpc =>
    exact h.between hE (by simp [State.holdsTask, hpc]) rfl rfl rfl
      ⟨by simp [Worker.goto], by simp [Worker.goto]⟩ rfl (State.setSched_queue_eq s _ _ rfl) rfl rfl
  | idleIn hpc =>
    exact h.between hE (by simp [State.holdsTask, hpc]) rfl rfl rfl ⟨by simp, by simp⟩ rfl rfl rfl rfl
  | idleStop hpc _ =>
    exact h.between hE (by simp [State.holdsTask, hpc]) rfl rfl rfl ⟨by simp, by simp⟩ rfl rfl rfl rfl
  | idleWait hpc _ =>
    exact h.between hE (by simp [State.holdsTask, hpc]) rfl rfl rfl ⟨by simp, by simp⟩ rfl rfl rfl rfl
  | idleDec hpc =>
    exact h.between hE (by simp [State.holdsTask, hpc]) rfl rfl rfl ⟨by simp, by simp⟩ rfl
      (State.setSched_queue_eq s _ _ rfl) rfl rfl

/-! ### The other moves -/

theorem Ledger.acceptAll (h : Ledger s) (hE : Exclusive s) (i : SchedId) (sps : List Spawn) :
    Ledger (s.acceptAll i sps) ∧ Exclusive (s.acceptAll i sps) :=
  acceptAll_induction (I := fun s => Ledger s ∧ Exclusive s) s i sps ⟨h, hE⟩ fun _ sp h =>
    ⟨h.1.accept h.2 i sp (-1), h.2.accept i sp (-1)⟩

theorem finishTask_tasks {k : TaskId} (hk : (s.fibers f).func = some k) :
    (s.finishTask f).tasks = Function.update s.tasks k { s.tasks k with ended := true } := by
  simp [State.finishTask, hk]

@[simp] theorem finishTask_nextTask (s : State) (f : FiberId) :
    (s.finishTask f).nextTask = s.nextTask := by
  unfold State.finishTask
  split <;> rfl

/-- A body returns or throws. -/
theorem Ledger.endBody (h : Ledger s) (hH : Hands s) {v : Via} {F : SFiber}
    (hpc : (s.workers w).pc = .exec v f .running) :
    Ledger ((s.finishTask f).leaveBody w v f F .finished) := by
  have howns : (s.workers w).Owns f := owns_exec hpc
  obtain ⟨k, hk, -⟩ := (h.visit w).live hpc rfl
  have hhold : s.holdsTask w = some k := by
    rw [holdsTask_exec hpc, hk]
    rfl
  have hself : ((s.finishTask f).leaveBody w v f F .finished).workers w =
      (s.workers w).goto (.exec v f (.leaving .finished)) := by
    simp [State.leaveBody]
  refine h.finish (w := w) (f := f) hhold ?_ (fun w' hw' => by simp [State.leaveBody, hw'])
    (fun g hg => by simp [State.leaveBody, hg]) howns (fun w' ho => hH.excl ho howns) ?_ ?_
    (by simp [State.leaveBody]) ?_ (by simp [State.leaveBody])
  · unfold State.holdsTask
    rw [hself]
    rfl
  · intro g ho
    rw [hself, owns_goto_exec hpc] at ho
    exact ho
  · unfold Visit
    rw [hself]
    intro hl
    cases hl
  · exact finishTask_tasks hk

/-- **A plain body's move keeps the ledger.** -/
theorem Ledger.bodyMove (h : Ledger s) (hE : Exclusive s) {v : Via} {a : Action}
    (ha : a.plain = true) (hpc : (s.workers w).pc = .exec v f .running)
    (hm : BodyMove s w v f a s') : Ledger s' := by
  cases hm with
  | schedule => exact h.accept hE _ _ _
  | scheduleAll => exact (h.acceptAll hE _ _).1
  | self => cases ha
  | stay hn => exact absurd ha (Action.not_plain hn)
  | go hn => exact absurd ha (Action.not_plain hn)
  | @yield _ st hy he =>
    exact h.next_stage' hE.toHands (F := { s.fibers f with state := st }) hpc rfl rfl rfl rfl (by simp)
      rfl rfl rfl
  | ret hl => exact h.endBody hE.toHands hpc
  | throw hl => exact h.endBody hE.toHands hpc

/-- A state with the same tokens, in the same places. -/
theorem Ledger.congr (h : Ledger s) (hw : s'.workers = s.workers) (hfib : s'.fibers = s.fibers)
    (hqueue : s'.queue = s.queue) (htasks : s'.tasks = s.tasks)
    (hnext : s'.nextTask = s.nextTask) (hE : Exclusive s) : Ledger s' :=
  h.same_worker (w := 0) hE.toHands hqueue (fun _ _ => by rw [hw]) hfib (fun g ho => by rwa [hw] at ho)
    (by rw [hw]) (holdsTask_congr (by rw [hw]) fun g _ => by rw [hfib])
    ((h.visit 0).congr (by rw [hw]) (fun g _ => by rw [hfib]) fun k _ => by rw [htasks]) htasks
    hE.queued hnext

/-- The threads that `start()` launches hold nothing, and took the places of ones that held
nothing. -/
theorem Ledger.launch (h : Ledger s) {i : SchedId} {ws : List ThreadId}
    (habsent : ∀ w ∈ ws, (s.workers w).pc = .absent)
    (hw : s'.workers = fun w => if w ∈ ws then Worker.fresh i false else s.workers w)
    (hfib : s'.fibers = s.fibers) (hqueue : s'.queue = s.queue) (htasks : s'.tasks = s.tasks)
    (hnext : s'.nextTask = s.nextTask) : Ledger s' := by
  have hholds : ∀ w, s'.holdsTask w = s.holdsTask w := by
    intro w
    by_cases hmem : w ∈ ws
    · simp [State.holdsTask, hw, hmem, Worker.fresh, habsent w hmem]
    · exact holdsTask_congr (by simp [hw, hmem]) fun g _ => by rw [hfib]
  have hopen : ∀ k j, Open s' k j ↔ Open s k j := fun k j => (SameTasks.of_eq htasks).isOpen
  have hown : ∀ w g, (s'.workers w).Owns g → (s.workers w).Owns g := by
    intro w g ho
    by_cases hmem : w ∈ ws
    · simp only [hw, hmem, if_true] at ho
      rcases ho with ho | ho <;> cases ho
    · simpa [hw, hmem] using ho
  obtain ⟨honce, hfresh, hunbegun⟩ := h.columns htasks hnext
  refine ⟨?_, ?_, ?_, ?_, ?_, ?_, honce, hfresh, hunbegun⟩
  · intro j
    rw [hqueue]
    exact h.nodup j
  · intro j e he
    rw [hqueue] at he
    obtain ⟨k, hq⟩ := h.queued he
    exact ⟨k, hq.congr ((hopen k j).mpr hq.isOpen) (fun g _ => by rw [hfib]) (by rw [htasks])
      (fun w hk => by rwa [hholds] at hk) fun g _ w ho => hown w g ho⟩
  · intro w k hk
    rw [hholds] at hk
    have hmem : w ∉ ws := by
      intro hmem
      rw [State.holdsTask, habsent w hmem] at hk
      cases hk
    simpa [hopen, hw, hmem] using h.held hk
  · intro w₁ w₂ k h₁ h₂
    rw [hholds] at h₁ h₂
    exact h.held_inj h₁ h₂
  · intro w
    by_cases hmem : w ∈ ws
    · simp [Visit, hw, hmem, Worker.fresh]
    · exact (h.visit w).congr (by simp [hw, hmem]) (fun g _ => by rw [hfib])
        fun k _ => by rw [htasks]
  · intro k ha hend
    rw [htasks] at ha hend
    rw [htasks, hqueue]
    rcases h.cover ha hend with hq | ⟨w, hk⟩
    · exact .inl hq
    · exact .inr ⟨w, by rw [hholds]; exact hk⟩

/-- In a state with a ledger, the fiber taken next is in nobody's hands. -/
theorem Ledger.takesFree (h : Ledger s) (l : Label) : TakesFree s l := by
  cases l with
  | run w =>
    intro _ e q htake f hf w'
    obtain ⟨k, hq⟩ := h.queued (takeFirst_mem htake)
    exact hq.unowned f hf w'
  | _ => trivial

/-- The two invariants of plain runs together. -/
structure Books (s : State) : Prop where
  excl : Exclusive s
  ledger : Ledger s

/-- **Every plain move keeps the books.** -/
theorem Books.step {l : Label} (h : Books s) (hl : l.plain = true) (hs : step s l = some s') :
    Books s' := by
  refine ⟨h.excl.step (h.ledger.takesFree l) hs, ?_⟩
  cases move_of_step hs with
  | run _ hm => exact h.ledger.runMove h.excl hm
  | body _ hpc hm => exact h.ledger.bodyMove h.excl hl hpc hm
  | schedule => exact h.ledger.accept h.excl _ _ _
  | scheduleAll => exact (h.ledger.acceptAll h.excl _ _).1
  | reschedule => cases hl
  | startAgain => exact h.ledger
  | @launch i ws _ _ _ _ _ habs =>
    exact h.ledger.launch (i := i) habs rfl rfl (State.setSched_queue_eq s i _ rfl) rfl rfl
  | stop _ hm | owner _ hm =>
    obtain ⟨S, rfl, -⟩ := hm.frame
    exact h.ledger.congr rfl rfl hm.queue rfl rfl h.excl

theorem init_holdsTask (u : Setup) (w : ThreadId) : u.init.holdsTask w = none := by
  rcases init_workers u w with hw | ⟨i, hw⟩ <;> simp [State.holdsTask, hw, Worker.fresh, Worker.absent]

theorem init_queue (u : Setup) (i : SchedId) : u.init.queue i = [] := rfl

theorem Ledger.init (u : Setup) : Ledger u.init where
  nodup i := by simp [init_queue]
  queued he := by simp [init_queue] at he
  held hk := by simp [init_holdsTask] at hk
  held_inj hk := by simp [init_holdsTask] at hk
  visit w := by
    rcases init_workers u w with hw | ⟨i, hw⟩ <;> simp [Visit, hw, Worker.fresh, Worker.absent]
  cover ha := by simp [Setup.init, Task.none] at ha
  once k := Nat.zero_le _
  fresh ha := by simp [Setup.init, Task.none] at ha
  unbegun _ := rfl

/-- The books, in every plain run. -/
theorem Books.reach {u : Setup} (h : Reach Scheduler.step (fun _ l => l.plain) u.init s) : Books s :=
  h.invariant ⟨Exclusive.init u, Ledger.init u⟩ fun hI hP hs => hI.step hP hs

/-! ### One place for each task -/

/-- Where an accepted task can be. -/
inductive Place
  /-- the `n`-th entry of `m_fibers` of scheduler `i` -/
  | queue (i : SchedId) (n : Nat)
  /-- in the hands of worker `w` -/
  | hands (w : ThreadId)
  /-- its body has returned or thrown -/
  | finished

/-- Task `k` is at the place. -/
def At (s : State) (k : TaskId) : Place → Prop
  | .queue i n => ∃ e, (s.queue i)[n]? = some e ∧ e.task = some k
  | .hands w => s.holdsTask w = some k
  | .finished => (s.tasks k).ended = true

theorem Ledger.at_open (h : Ledger s) {k : TaskId} {p : Place} (hp : At s k p)
    (hne : p ≠ .finished) : (s.tasks k).ended = false := by
  cases p with
  | queue i n =>
    obtain ⟨e, he, hk⟩ := hp
    obtain ⟨k', hq⟩ := h.queued (List.mem_of_getElem? he)
    obtain rfl : k' = k := Option.some.inj (hq.task.symm.trans hk)
    exact hq.isOpen.2.1
  | hands w => exact (h.held hp).2.1
  | finished => exact absurd rfl hne

/-- A task is at one place at most. -/
theorem Ledger.at_unique (h : Ledger s) {k : TaskId} {p q : Place} (hp : At s k p)
    (hq : At s k q) : p = q := by
  have hfin : ∀ {p}, At s k p → (s.tasks k).ended = true → p = .finished := by
    intro p hp hk
    by_contra hne
    rw [h.at_open hp hne] at hk
    cases hk
  have hmixed : ∀ {i n w}, At s k (.queue i n) → At s k (.hands w) → False := by
    rintro i n w ⟨e, he, hk⟩ hw
    obtain ⟨k', hqk⟩ := h.queued (List.mem_of_getElem? he)
    obtain rfl : k' = k := Option.some.inj (hqk.task.symm.trans hk)
    exact hqk.unheld w hw
  cases p with
  | finished => exact (hfin hq hp).symm
  | hands w =>
    cases q with
    | finished => exact hfin hp hq
    | hands w' => rw [h.held_inj hp hq]
    | queue i n => exact (hmixed hq hp).elim
  | queue i n =>
    cases q with
    | finished => exact hfin hp hq
    | hands w => exact (hmixed hp hq).elim
    | queue j m =>
      obtain ⟨e, he, hk⟩ := hp
      obtain ⟨e', he', hk'⟩ := hq
      obtain ⟨k₁, hq₁⟩ := h.queued (List.mem_of_getElem? he)
      obtain ⟨k₂, hq₂⟩ := h.queued (List.mem_of_getElem? he')
      obtain rfl : k₁ = k := Option.some.inj (hq₁.task.symm.trans hk)
      obtain rfl : k₂ = k₁ := Option.some.inj (hq₂.task.symm.trans hk')
      obtain rfl : i = j := hq₁.isOpen.2.2.symm.trans hq₂.isOpen.2.2
      have hn : ((s.queue i).map Entry.task)[n]? = some (some k₂) := by simp [he, hk]
      have hm : ((s.queue i).map Entry.task)[m]? = some (some k₂) := by simp [he', hk']
      obtain ⟨hlt, -⟩ := List.getElem?_eq_some_iff.mp hn
      rw [(List.getElem?_inj hlt (h.nodup i)).mp (hn.trans hm.symm)]

/-- An accepted task is somewhere. -/
theorem Ledger.at_exists (h : Ledger s) {k : TaskId} (ha : (s.tasks k).accepted = true) :
    ∃ p, At s k p := by
  cases he : (s.tasks k).ended with
  | true => exact ⟨.finished, he⟩
  | false =>
    rcases h.cover ha he with ⟨e, hmem, hk⟩ | ⟨w, hw⟩
    · obtain ⟨n, hn⟩ := List.getElem?_of_mem hmem
      exact ⟨.queue _ n, e, hn, hk⟩
    · exact ⟨.hands w, hw⟩

/-- What the scheduler promises about the tasks it accepted. -/
structure TasksKept (s : State) : Prop where
  /-- every accepted task is in exactly one place -/
  place : ∀ k, (s.tasks k).accepted = true → ∃! p, At s k p
  /-- each function body is begun at most once -/
  once : ∀ k, (s.tasks k).started ≤ 1
  /-- no fiber is executed by two workers -/
  alone : ∀ w w' f, s.Executes w f → s.Executes w' f → w = w'

/-- **Every accepted task is in exactly one place**, in every state that any number of workers reach
in any order with plain tasks. -/
theorem tasks_kept {u : Setup} (h : Reach Scheduler.step (fun _ l => l.plain) u.init s) :
    TasksKept s := by
  have hB := Books.reach h
  refine ⟨fun k ha => ?_, hB.ledger.once, fun w w' f => hB.excl.toHands.executes_unique⟩
  obtain ⟨p, hp⟩ := hB.ledger.at_exists ha
  exact ⟨p, hp, fun q hq => hB.ledger.at_unique hq hp⟩

/-- Two workers, a function that returns and a fiber that yields. -/
def twoWorkersRun : List Label :=
  [.start 0 [0, 1], .schedule 0 .func (-1), .schedule 0 (.fiber false) 1] ++
    runWorker 0 3 ++ runWorker 1 3 ++ [.body 1 .yieldToHold, .body 0 .ret] ++
    runWorker 1 4 ++ runWorker 0 3

theorem tasks_kept_two_workers :
    ∃ s, runs Scheduler.step (Setup.pool 2 (by decide)).init twoWorkersRun = some s ∧
      TasksKept s := by
  obtain ⟨s, hs, -⟩ := exists_of_runs Scheduler.step (Setup.pool 2 (by decide)).init twoWorkersRun
    (fun s => (s.tasks 0).ended && (s.queue 0).length == 1) (by decide +kernel)
  exact ⟨s, hs, tasks_kept (.of_runs .refl (by decide) hs)⟩

end LioNet.Scheduler
