import Mathlib.Data.Set.Card
import LioNet.Scheduler.Drain

/-!
# `start()` and `stop()` without tasks

`start()` and `stop()` talk to each other through `m_stopping`, `m_threads` and `m_threadIds`.  The
constructor leaves `m_stopping` to the memory the object is built in, and nothing ever takes an id
out of `m_threadIds`.

`Tenure` is what holds of the three in every run without tasks: the workers of the scheduler that
execute `run()` are threads of `m_threads` (or are being joined), and `m_threadIds` begins with the
root thread.  `StartOk` is what one `start()` has to find for the threads and the ids to come out
right; `Roll` is the invariant of the runs in which each `start()` finds it.
-/

namespace LioNet.Scheduler

open LioNet.Lib

/-- Nobody schedules anything. -/
def Label.taskFree : Label → Bool
  | .run _ | .start .. | .stop _ | .owner _ => true
  | .body .. | .schedule .. | .scheduleAll .. | .reschedule .. => false

/-- Thread `w` executes `run()` of scheduler `i`; in the root fiber that takes a
`m_rootFiber->call()`. -/
def State.Live (s : State) (i : SchedId) (w : ThreadId) : Prop :=
  (s.workers w).sched = i ∧ (s.workers w).pc ≠ .absent ∧ (s.workers w).pc ≠ .left ∧
    ((s.workers w).root = true → (s.scheds i).rootFiber = .exec)

/-- The scheduler has its `m_threadCount` workers, and `m_threadIds` lists them and the root
thread. -/
structure Started (i : SchedId) (s : State) : Prop where
  workers : {w | s.Live i w}.encard = (s.scheds i).threadCount
  nodup : (s.scheds i).threadIds.Nodup
  ids : ∀ w, w ∈ (s.scheds i).threadIds ↔ (s.scheds i).rootThread = some w ∨ s.Live i w

/-- `Started` until the owner calls `stop()`, and a further `start()` changes nothing. -/
def StaysStarted (i : SchedId) (s : State) : Prop :=
  ∀ t, Reach step (fun _ l => l.taskFree ∧ l ≠ .stop i) s t →
    Started i t ∧ ∀ ws t', step t (.start i ws) = some t' → t' = t

/-- No worker executes `run()` until the owner calls `start()`. -/
def StaysEmpty (i : SchedId) (s : State) : Prop :=
  ∀ t, Reach step (fun _ l => l.taskFree ∧ ∀ ws, l ≠ .start i ws) s t → ∀ w, ¬t.Live i w

/-- What `start()` has to find: all threads there already, or none ever made (of those it would
make). -/
def StartOk (S : Sched) : Prop :=
  if S.stopping then S.threadCount = 0 ∨ S.threadIds = S.rootThread.toList
  else S.threads.length = S.threadCount

instance (S : Sched) : Decidable (StartOk S) := by
  unfold StartOk
  infer_instance

/-- Moves without tasks, in which each `start()` finds what it has to find. -/
def Lifecycle (i : SchedId) (s : State) (l : Label) : Prop :=
  l.taskFree ∧ ∀ ws, l = .start i ws → StartOk (s.scheds i)

variable {s s' : State} {w : ThreadId} {i : SchedId} {u : Setup}

theorem plain_of_taskFree {l : Label} (h : l.taskFree) : l.plain = true := by
  cases l with
  | run | start | stop | owner => rfl
  | body | schedule | scheduleAll | reschedule => cases h

/-- Only another `start()` feeds a scheduler in such a run. -/
theorem not_feeds_of_taskFree {l : Label} (h : l.taskFree) (hl : ∀ ws, l ≠ .start i ws) :
    ¬Feeds s i l := by
  cases l with
  | run | stop | owner => exact id
  | start j ws =>
    intro hj
    have hj' : j = i := hj
    exact hl ws (by rw [hj'])
  | body | schedule | scheduleAll | reschedule => cases h

/-! ### What the moves do to the fields -/

theorem RunMove.threadIds (hm : RunMove s w s') (i : SchedId) :
    (s'.scheds i).threadIds = (s.scheds i).threadIds := by
  have hwrite : ∀ {t : State} {S : Sched}, t.scheds = s.scheds →
      S.threadIds = (s.schedOf w).threadIds →
      ((t.setSched (s.workers w).sched S).scheds i).threadIds = (s.scheds i).threadIds := by
    intro t S ht hS
    by_cases hi : i = (s.workers w).sched
    · subst hi
      simpa [State.schedOf] using hS
    · simp [hi, ht]
  cases hm with
  | take | drop | decr | idleInc | idleDec => exact hwrite rfl rfl
  | saveBack => exact hwrite rfl rfl
  | leave =>
    unfold State.leave
    dsimp only
    split
    · exact hwrite rfl rfl
    · rfl
  | requeueFiber | requeueFunc => exact hwrite rfl rfl
  | noEntry | dropEnded | enterFiber | reuseFunc | newFunc | toIdle | begin | beginEmpty | resume | hold
    | save | keep | endFiber | endFunc | lostFiber | lostFunc | idleIn | idleStop | idleWait => rfl

theorem OwnerMove.threadIds {j : SchedId} (hm : OwnerMove s j s') (i : SchedId) :
    (s'.scheds i).threadIds = (s.scheds i).threadIds := by
  by_cases hi : i = j
  · subst hi
    cases hm <;> simp
  · obtain ⟨S, rfl, -⟩ := hm.frame
    simp [hi]

/-- Only `start()` writes `m_threadIds`. -/
theorem step_threadIds {l : Label} (hl : l.taskFree) (hs : step s l = some s')
    (hne : ∀ ws, l ≠ .start i ws) : (s'.scheds i).threadIds = (s.scheds i).threadIds := by
  cases move_of_step hs with
  | run _ hm => exact hm.threadIds i
  | startAgain => rfl
  | @launch j ws =>
    have hij : i ≠ j := fun e => hne ws (by rw [e])
    simp [hij]
  | stop _ hm | owner _ hm => exact hm.threadIds i
  | body | schedule | scheduleAll | reschedule => cases hl

/-- A worker that has left stays away. -/
theorem step_stays_left {l : Label} (hs : step s l = some s') (hpc : (s.workers w).pc = .left) :
    (s'.workers w).pc = .left := by
  rcases step_worker_other hs (worker_ne_of_out (.inr hpc) hs) with hsame | ⟨j, ws, -, -, habs, -⟩
  · rw [hsame]
    exact hpc
  · rw [hpc] at habs
    cases habs

/-- A worker of scheduler `i` that is there after a move of somebody else than `start()` of `i` was
there before. -/
theorem step_present {l : Label} (hs : step s l = some s') (hne : ∀ ws, l ≠ .start i ws)
    (hi : (s'.workers w).sched = i) (hpc : (s'.workers w).pc ≠ .absent) :
    (s.workers w).pc ≠ .absent := by
  intro habs
  rcases step_worker_other hs (worker_ne_of_out (.inl habs) hs) with
    hsame | ⟨j, ws, rfl, -, -, hfresh⟩
  · rw [hsame] at hpc
    exact hpc habs
  · rw [hfresh] at hi
    have hj : j = i := hi
    exact hne ws (by rw [hj])

/-! ### The threads of a scheduler without tasks -/

structure Tenure (i : SchedId) (s : State) : Prop where
  quiet : Quiet s i
  root : (s.scheds i).rootFiber = .init
  idle : (s.scheds i).owner ≠ .call ∧ (s.scheds i).owner ≠ .called
  flags : (s.scheds i).owner ≠ .user →
    (s.scheds i).autoStop = true ∧
      ((s.scheds i).owner = .setStopping ∨ (s.scheds i).stopping = true)
  team : ∀ {w}, (s.workers w).sched = i → (s.workers w).root = false →
    (s.workers w).pc ≠ .absent → (s.workers w).pc ≠ .left → w ∈ (s.scheds i).team
  own : ∀ {w}, w ∈ (s.scheds i).team →
    (s.workers w).sched = i ∧ (s.workers w).root = false ∧ (s.workers w).pc ≠ .absent
  nodup : (s.scheds i).threads.Nodup
  calm : ∀ {w}, (s.scheds i).stopping = false → w ∈ (s.scheds i).team →
    (s.workers w).idle ≠ .term
  left : ∀ {w}, (s.workers w).pc = .left → (s.workers w).idle = .term
  home : (s.scheds i).owner = .user → (s.scheds i).stopping = true → (s.scheds i).threads = []
  swapped : ∀ {thrs}, (s.scheds i).owner = .join thrs → (s.scheds i).threads = []
  early : (s.scheds i).owner = .check1 → (s.scheds i).threadCount = 0
  alone : (s.scheds i).threadCount = 0 →
    (s.scheds i).threads = [] ∧ (s.scheds i).threadIds = (s.scheds i).rootThread.toList
  ids : ∃ ds, (s.scheds i).threadIds = (s.scheds i).rootThread.toList ++ ds ∧
    ∀ w ∈ ds, (s.workers w).sched = i ∧ (s.workers w).root = false ∧ (s.workers w).pc ≠ .absent

theorem Tenure.same {l : Label} (h : Tenure i s) (hq : Quiet s' i) (hl : l.taskFree)
    (hs : step s l = some s') (hne : ∀ ws, l ≠ .start i ws)
    (hc : SameControl (s.scheds i) (s'.scheds i)) : Tenure i s' := by
  have hids := step_threadIds hl hs hne
  have hkeep : ∀ {w}, (s.workers w).sched = i ∧ (s.workers w).root = false ∧
      (s.workers w).pc ≠ .absent → (s'.workers w).sched = i ∧ (s'.workers w).root = false ∧
      (s'.workers w).pc ≠ .absent := by
    intro w hw
    obtain ⟨g1, g2, g3⟩ := step_mark hs hw.2.2
    exact ⟨g1.trans hw.1, g2.trans hw.2.1, g3⟩
  refine ⟨hq, ?_, ?_, ?_, ?_, ?_, ?_, ?_, fun hpc => step_left hs h.left hpc, ?_, ?_, ?_, ?_, ?_⟩
  · rw [hc.rootFiber]
    exact h.root
  · rw [hc.owner]
    exact h.idle
  · rw [hc.owner, hc.autoStop, hc.stopping]
    exact h.flags
  · intro w hi hr hpc hleft
    have hpc' := step_present hs hne hi hpc
    obtain ⟨g1, g2, -⟩ := step_mark hs hpc'
    rw [team_eq hc]
    refine h.team (g1.symm.trans hi) (g2.symm.trans hr) hpc' fun hl' => ?_
    exact hleft (step_stays_left hs hl')
  · intro w hw
    rw [team_eq hc] at hw
    exact hkeep (h.own hw)
  · rw [hc.threads]
    exact h.nodup
  · intro w hst hw hi
    rw [team_eq hc] at hw
    rw [hc.stopping] at hst
    rcases step_idle_term hs hi with hold | ⟨-, -, htrue⟩
    · exact h.calm hst hw hold
    · rw [(h.own hw).1] at htrue
      rw [(stopping_iff.mp htrue).2.1] at hst
      cases hst
  · rw [hc.owner, hc.stopping, hc.threads]
    exact h.home
  · rw [hc.owner, hc.threads]
    exact h.swapped
  · rw [hc.owner, hc.threadCount]
    exact h.early
  · rw [hc.threadCount, hc.threads, hids, hc.rootThread]
    exact h.alone
  · obtain ⟨ds, hds, hown⟩ := h.ids
    refine ⟨ds, ?_, fun w hw => hkeep (hown w hw)⟩
    rw [hids, hc.rootThread]
    exact hds

/-- A write of the owner to the control fields. -/
theorem Tenure.write (h : Tenure i s) {S : Sched} (hq : Quiet (s.setSched i S) i)
    (hroot : S.rootFiber = (s.scheds i).rootFiber) (hthread : S.rootThread = (s.scheds i).rootThread)
    (hcount : S.threadCount = (s.scheds i).threadCount)
    (hids : S.threadIds = (s.scheds i).threadIds)
    (hteam : S.team = (s.scheds i).team ∨ S.team = [] ∧ ∀ w ∈ (s.scheds i).team,
      (s.workers w).pc = .left)
    (hthreads : S.threads = (s.scheds i).threads ∨ S.threads = [])
    (hstop : S.stopping = false → (s.scheds i).stopping = false)
    (hidle : S.owner ≠ .call ∧ S.owner ≠ .called)
    (hflags : S.owner ≠ .user → S.autoStop = true ∧ (S.owner = .setStopping ∨ S.stopping = true))
    (hhome : S.owner = .user → S.stopping = true → S.threads = [])
    (hswapped : ∀ thrs, S.owner = .join thrs → S.threads = [])
    (hearly : S.owner = .check1 → (s.scheds i).threadCount = 0) : Tenure i (s.setSched i S) := by
  have hS : (s.setSched i S).scheds i = S := by simp
  have hmem : ∀ {w}, w ∈ S.team → w ∈ (s.scheds i).team := by
    intro w hw
    rcases hteam with he | ⟨he, -⟩
    · exact he ▸ hw
    · rw [he] at hw
      cases hw
  refine ⟨hq, ?_, ?_, ?_, ?_, ?_, ?_, ?_, h.left, ?_, ?_, ?_, ?_, ?_⟩ <;> rw [hS]
  · rw [hroot]
    exact h.root
  · exact hidle
  · exact hflags
  · intro w hi hr hpc hleft
    rcases hteam with he | ⟨-, hall⟩
    · rw [he]
      exact h.team hi hr hpc hleft
    · exact absurd (hall w (h.team hi hr hpc hleft)) hleft
  · exact fun hw => h.own (hmem hw)
  · rcases hthreads with he | he <;> rw [he]
    · exact h.nodup
    · exact List.nodup_nil
  · exact fun hst hw => h.calm (hstop hst) (hmem hw)
  · exact hhome
  · exact fun ho => hswapped _ ho
  · exact fun ho => hcount.trans (hearly ho)
  · intro hz
    obtain ⟨h1, h2⟩ := h.alone (hcount ▸ hz)
    refine ⟨?_, by rw [hids, h2, hthread]⟩
    rcases hthreads with he | he
    · exact he.trans h1
    · exact he
  · obtain ⟨ds, hds, hown⟩ := h.ids
    exact ⟨ds, by rw [hids, hds, hthread], hown⟩

/-- With nothing to do, `stop()` never calls the root fiber. -/
theorem Tenure.ownerMove (h : Tenure i s) (hq : Quiet s' i) (hm : OwnerMove s i s') :
    Tenure i s' := by
  have htrue : (s.scheds i).owner ≠ .user → (s.scheds i).owner ≠ .setStopping →
      s.stopping i = true := by
    intro hu hne
    obtain ⟨ha, hst⟩ := h.flags hu
    exact stopping_iff.mpr ⟨ha, hst.resolve_left hne, h.quiet.queue, h.quiet.active⟩
  cases hm with
  | stopAlone hu _ hz _ =>
    refine h.write hq rfl rfl rfl rfl
      (.inl (Sched.team_congr rfl (by simp [hu, OwnerPc.joining]))) (.inl rfl)
      (fun hst => by cases hst) (by simp) (fun _ => ⟨rfl, .inr rfl⟩) (fun hc => by cases hc)
      (fun _ hc => by cases hc) (fun _ => hz)
  | stopPool hu _ =>
    exact h.write hq rfl rfl rfl rfl
      (.inl (Sched.team_congr rfl (by simp [hu, OwnerPc.joining]))) (.inl rfl)
      id (by simp) (fun _ => ⟨rfl, .inl rfl⟩) (fun hc => by cases hc) (fun _ hc => by cases hc)
      (fun hc => by cases hc)
  | returnEarly ho hst =>
    have hnil := (h.alone (h.early ho)).1
    exact h.write hq rfl rfl rfl rfl
      (.inl (Sched.team_congr rfl (by simp [ho, OwnerPc.joining]))) (.inl rfl)
      id (by simp) (fun hc => absurd rfl hc) (fun _ _ => hnil) (fun _ hc => by cases hc)
      (fun hc => by cases hc)
  | goOn ho hst =>
    rw [htrue (by simp [ho]) (by simp [ho])] at hst
    cases hst
  | setStopping ho =>
    have hnext : ∀ {o : OwnerPc}, (if (s.scheds i).rootThread.isSome then OwnerPc.check2 else .swap)
        = o → o = .check2 ∨ o = .swap := by
      rintro o rfl
      cases (s.scheds i).rootThread.isSome <;> simp
    refine h.write hq rfl rfl rfl rfl (.inl (Sched.team_congr rfl ?_)) (.inl rfl)
      (fun hst => by cases hst) ?_
      (fun _ => ⟨(h.flags (by simp [ho])).1, .inr rfl⟩) (fun hc => ?_) (fun _ hc => ?_) (fun hc => ?_)
    · rcases hnext rfl with he | he <;> simp only [he, ho] <;> rfl
    · rcases hnext rfl with he | he <;> simp [he]
    · rcases hnext hc with he | he <;> cases he
    · rcases hnext hc with he | he <;> cases he
    · rcases hnext hc with he | he <;> cases he
  | skipCall ho hst =>
    exact h.write hq rfl rfl rfl rfl
      (.inl (Sched.team_congr rfl (by simp [ho, OwnerPc.joining]))) (.inl rfl)
      id (by simp) (fun _ => ⟨(stopping_iff.mp hst).1, .inr (stopping_iff.mp hst).2.1⟩)
      (fun hc => by cases hc) (fun _ hc => by cases hc) (fun hc => by cases hc)
  | toCall ho hst =>
    rw [htrue (by simp [ho]) (by simp [ho])] at hst
    cases hst
  | call ho _ => exact absurd ho h.idle.1
  | swap ho =>
    have hsame : ({ s.scheds i with threads := [], owner := .join (s.scheds i).threads } : Sched).team
        = (s.scheds i).team := by
      simp [Sched.team, OwnerPc.joining, ho]
    have hflags := h.flags (by simp [ho])
    exact h.write hq rfl rfl rfl rfl (.inl hsame) (.inr rfl) id (by simp)
      (fun _ => ⟨hflags.1, .inr (hflags.2.resolve_left (by simp [ho]))⟩) (fun hc => by cases hc)
      (fun _ _ => rfl) (fun hc => by cases hc)
  | @join thrs ho hall =>
    have hnil := h.swapped ho
    refine h.write hq rfl rfl rfl rfl (.inr ⟨?_, fun w hw => hall w ?_⟩) (.inl rfl) id (by simp)
      (fun hc => absurd rfl hc) (fun _ _ => hnil) (fun _ hc => by cases hc) (fun hc => by cases hc)
    · simp [Sched.team, OwnerPc.joining, hnil]
    · simpa [Sched.team, OwnerPc.joining, hnil, ho] using hw

theorem Tenure.launch (h : Tenure i s) {ws : List ThreadId} (hq : Quiet s' i)
    (hs : step s (.start i ws) = some s') : Tenure i s' := by
  have hs₀ := hs
  obtain ⟨hu, ⟨rfl, -⟩ | ⟨-, hnil, hlen, hnodup, habs, rfl⟩⟩ := start_cases hs
  · exact h
  · have hteam : (s.scheds i).team = [] := by simp [Sched.team, hu, hnil, OwnerPc.joining]
    have hkeep : ∀ {w}, w ∉ ws → (if w ∈ ws then Worker.fresh i false else s.workers w) =
        s.workers w := fun hw => if_neg hw
    refine ⟨hq, ?_, ?_, ?_, ?_, ?_, ?_, ?_, fun hpc => step_left hs₀ h.left hpc, ?_, ?_, ?_, ?_, ?_⟩
    · simpa using h.root
    · simpa using h.idle
    · intro ho
      simp [hu] at ho
    · intro w hi hr hpc hl
      have hmem : w ∈ ws := by
        by_contra hw
        simp only [hkeep hw] at hi hr hpc hl
        have hin := h.team hi hr hpc hl
        rw [hteam] at hin
        cases hin
      simpa [Sched.team, hu, OwnerPc.joining] using hmem
    · intro w hw
      have hmem : w ∈ ws := by simpa [Sched.team, hu, OwnerPc.joining] using hw
      simp [hmem, Worker.fresh]
    · simpa using hnodup
    · intro w _ hw
      have hmem : w ∈ ws := by simpa [Sched.team, hu, OwnerPc.joining] using hw
      simp [hmem, Worker.fresh]
    · intro _ hst
      simp at hst
    · intro thrs ho
      simp [hu] at ho
    · intro ho
      simp [hu] at ho
    · intro hz
      have hz' : (s.scheds i).threadCount = 0 := by simpa using hz
      have hws : ws = [] := List.length_eq_zero_iff.mp (hlen.trans hz')
      simp [hws, (h.alone hz').2]
    · obtain ⟨ds, hds, hown⟩ := h.ids
      refine ⟨ds ++ ws, by simp [hds], fun w hw => ?_⟩
      by_cases hmem : w ∈ ws
      · simp [hmem, Worker.fresh]
      · have hw' : w ∈ ds := by simpa [hmem] using hw
        simpa [hmem] using hown w hw'

theorem Tenure.step {l : Label} (h : Tenure i s) (hG : Ground u s) (hl : l.taskFree)
    (hs : Scheduler.step s l = some s') : Tenure i s' := by
  by_cases hne : ∀ ws, l ≠ .start i ws
  · have hq := h.quiet.step hG.held hG.counters (not_feeds_of_taskFree hl hne) hs
    rcases step_control hs i with hc | ⟨w, -, hw, hr, hcpu, -⟩ | ⟨ws, rfl⟩ | ⟨-, hm⟩
    · exact h.same hq hl hs hne hc
    · -- the root worker would have the thread from `m_rootFiber->call()`
      have hcall := called_of_onCpu hcpu hr
      rw [State.schedOf, hw] at hcall
      exact absurd hcall h.idle.2
    · exact absurd rfl (hne ws)
    · exact h.ownerMove hq hm
  · obtain ⟨ws, hws⟩ := not_forall_not.mp hne
    subst hws
    exact h.launch (h.quiet.start hG.held hG.counters hs) hs

theorem Tenure.init (u : Setup) (i : SchedId) : Tenure i u.init where
  quiet := by
    refine ⟨rfl, rfl, fun w v f c _ hpc => ?_⟩
    rcases init_workers u w with hw | ⟨j, hw⟩ <;> rw [hw] at hpc <;>
      rcases hpc with hpc | hpc <;> cases hpc
  root := rfl
  idle := by simp [Setup.init, Sched.construct]
  flags ho := by simp [Setup.init, Sched.construct] at ho
  team {w} hi hr hpc _ := by
    rcases init_workers u w with hw | ⟨j, hw⟩ <;> rw [hw] at hr hpc
    · simp [Worker.absent] at hpc
    · cases hr
  own {w} hw := by simp [Sched.team, OwnerPc.joining, Setup.init, Sched.construct] at hw
  nodup := List.nodup_nil
  calm {w} _ hw := by simp [Sched.team, OwnerPc.joining, Setup.init, Sched.construct] at hw
  left {w} hpc := by
    rcases init_workers u w with hw | ⟨j, hw⟩ <;> rw [hw] at hpc <;> cases hpc
  home _ _ := rfl
  swapped _ := rfl
  early ho := by simp [Setup.init, Sched.construct] at ho
  alone _ := ⟨rfl, rfl⟩
  ids := ⟨[], by simp [Setup.init, Sched.construct], by simp⟩

theorem Tenure.reach (h : Reach Scheduler.step (fun _ l => l.taskFree) u.init s) :
    Books s ∧ Ground u s ∧ Tenure i s := by
  refine h.invariant (I := fun s => Books s ∧ Ground u s ∧ Tenure i s)
    ⟨⟨Exclusive.init u, Ledger.init u⟩, Ground.init u, Tenure.init u i⟩ ?_
  intro s l s' hI hl hs
  obtain ⟨hB, hG, hT⟩ := hI
  have hG' := hG.step (hB.ledger.takesFree l) hs
  exact ⟨hB.step (plain_of_taskFree hl) hs, hG', hT.step hG hl hs⟩

/-! ### The live workers -/

/-- A root fiber that is not called executes nothing. -/
theorem Tenure.not_root (h : Tenure i s) (hw : s.Live i w) : (s.workers w).root = false := by
  obtain ⟨-, -, -, hroot⟩ := hw
  cases hr : (s.workers w).root with
  | false => rfl
  | true =>
    have hexec := hroot hr
    rw [h.root] at hexec
    cases hexec

/-- Between the calls of the owner, the live workers of a started scheduler are its `m_threads`. -/
theorem Tenure.live_iff (h : Tenure i s) (hu : (s.scheds i).owner = .user)
    (hst : (s.scheds i).stopping = false) : s.Live i w ↔ w ∈ (s.scheds i).threads := by
  have hteam : (s.scheds i).team = (s.scheds i).threads := by
    simp [Sched.team, hu, OwnerPc.joining]
  constructor
  · intro hw
    have hmem := h.team hw.1 (h.not_root hw) hw.2.1 hw.2.2.1
    rwa [hteam] at hmem
  · intro hw
    rw [← hteam] at hw
    obtain ⟨hi, hr, hpc⟩ := h.own hw
    refine ⟨hi, hpc, fun hl => h.calm hst hw (h.left hl), fun hroot => ?_⟩
    rw [hr] at hroot
    cases hroot

theorem Tenure.not_live (h : Tenure i s) (ht : (s.scheds i).team = []) (w : ThreadId) :
    ¬s.Live i w := by
  intro hw
  have hmem := h.team hw.1 (h.not_root hw) hw.2.1 hw.2.2.1
  rw [ht] at hmem
  cases hmem

theorem Tenure.encard_live (h : Tenure i s) (hu : (s.scheds i).owner = .user)
    (hst : (s.scheds i).stopping = false) :
    {w | s.Live i w}.encard = (s.scheds i).threads.length := by
  have hset : {w | s.Live i w} = ((s.scheds i).threads.toFinset : Set ThreadId) := by
    ext w
    simpa using h.live_iff hu hst
  rw [hset, Set.encard_coe_eq_coe_finsetCard, List.toFinset_card_of_nodup h.nodup]

/-- `m_threadIds` of a scheduler with all its threads lists the root thread and them. -/
def Roll (i : SchedId) (s : State) : Prop :=
  (s.scheds i).stopping = false → (s.scheds i).threads.length = (s.scheds i).threadCount →
    (s.scheds i).threadIds = (s.scheds i).rootThread.toList ++ (s.scheds i).threads

theorem Tenure.started (h : Tenure i s) (hR : RootOk u s) (hroll : Roll i s)
    (hu : (s.scheds i).owner = .user) (hst : (s.scheds i).stopping = false)
    (hfull : (s.scheds i).threads.length = (s.scheds i).threadCount) : Started i s := by
  have hteam : (s.scheds i).team = (s.scheds i).threads := by
    simp [Sched.team, hu, OwnerPc.joining]
  refine ⟨by rw [h.encard_live hu hst, hfull], ?_, fun w => ?_⟩
  · rw [hroll hst hfull, List.nodup_append]
    refine ⟨by cases (s.scheds i).rootThread <;> simp, h.nodup, ?_⟩
    intro r hr w hw hrw
    subst hrw
    have hroot := (hR.root_of_thread (Option.mem_toList.mp hr)).1
    have hown := (h.own (hteam ▸ hw)).2.1
    rw [hown] at hroot
    cases hroot
  · rw [hroll hst hfull, List.mem_append, Option.mem_toList, h.live_iff hu hst]

theorem Roll.step {l : Label} (h : Roll i s) (hT : Tenure i s) (hl : Lifecycle i s l)
    (hs : Scheduler.step s l = some s') : Roll i s' := by
  by_cases hne : ∀ ws, l ≠ .start i ws
  · have hids := step_threadIds hl.1 hs hne
    rcases step_control hs i with hc | ⟨w, -, hw, hr, hcpu, -⟩ | ⟨ws, rfl⟩ | ⟨-, hm⟩
    · unfold Roll
      rw [hids, hc.stopping, hc.threads, hc.threadCount, hc.rootThread]
      exact h
    · have hcall := called_of_onCpu hcpu hr
      rw [State.schedOf, hw] at hcall
      exact absurd hcall hT.idle.2
    · exact absurd rfl (hne ws)
    · -- an owner's move that leaves `m_stopping` false keeps `m_threads`
      have hkeep : (s'.scheds i).stopping = false → (s.scheds i).stopping = false ∧
          (s'.scheds i).threads = (s.scheds i).threads ∧
          (s'.scheds i).threadCount = (s.scheds i).threadCount ∧
          (s'.scheds i).rootThread = (s.scheds i).rootThread := by
        cases hm with
        | swap ho =>
          intro hst
          have hset := (hT.flags (by simp [ho])).2.resolve_left (by simp [ho])
          simp [hset] at hst
        | stopAlone | setStopping =>
          intro hst
          simp at hst
        | stopPool | returnEarly | goOn | skipCall | toCall | call | join =>
          intro hst
          simpa using hst
      intro hst hfull
      obtain ⟨hst', hth, hcount, hroot⟩ := hkeep hst
      rw [hth, hcount] at hfull
      rw [hids, hth, hroot]
      exact h hst' hfull
  · obtain ⟨ws, hws⟩ := not_forall_not.mp hne
    subst hws
    have hok := hl.2 ws rfl
    obtain ⟨-, ⟨rfl, -⟩ | ⟨hst, -, hlen, -, -, rfl⟩⟩ := start_cases hs
    · exact h
    · intro _ _
      rw [StartOk, if_pos hst] at hok
      have hids : (s.scheds i).threadIds = (s.scheds i).rootThread.toList := by
        rcases hok with hz | hids
        · exact (hT.alone hz).2
        · exact hids
      simp [hids]

/-! ### Between `start()` and `stop()`, and after `stop()` -/

structure Up (i : SchedId) (s : State) : Prop where
  owner : (s.scheds i).owner = .user
  stopping : (s.scheds i).stopping = false
  full : (s.scheds i).threads.length = (s.scheds i).threadCount

theorem Up.startOk (h : Up i s) : StartOk (s.scheds i) := by
  rw [StartOk, if_neg (by simp [h.stopping])]
  exact h.full

/-- A `start()` of a started scheduler returns at once. -/
theorem Up.start (h : Up i s) {ws : List ThreadId} (hs : step s (.start i ws) = some s') :
    s' = s := by
  obtain ⟨-, ⟨he, -⟩ | ⟨hst, -⟩⟩ := start_cases hs
  · exact he
  · rw [h.stopping] at hst
    cases hst

theorem Up.step {l : Label} (h : Up i s) (hl : l ≠ .stop i)
    (hs : Scheduler.step s l = some s') : Up i s' := by
  rcases step_control hs i with hc | ⟨w, -, hw, hr, hcpu, -⟩ | ⟨ws, rfl⟩ | ⟨hwho, -⟩
  · exact ⟨hc.owner.trans h.owner, hc.stopping.trans h.stopping, by
      rw [hc.threads, hc.threadCount]
      exact h.full⟩
  · have hcall := called_of_onCpu hcpu hr
    rw [State.schedOf, hw, h.owner] at hcall
    cases hcall
  · rw [h.start hs]
    exact h
  · rcases hwho with ⟨he, -⟩ | ⟨-, hbusy⟩
    · exact absurd he hl
    · exact absurd h.owner hbusy

/-- When `stop()` returns, the scheduler has no threads. -/
theorem Tenure.returned {l : Label} (h : Tenure i s) (hs : Scheduler.step s l = some s')
    (hin : (s.scheds i).owner ≠ .user) (hout : (s'.scheds i).owner = .user) :
    (s'.scheds i).team = [] := by
  rcases step_control hs i with hc | ⟨w, -, -, -, -, -, ho, -⟩ | ⟨ws, rfl⟩ | ⟨-, hm⟩
  · rw [hc.owner] at hout
    exact absurd hout hin
  · rw [ho] at hout
    cases hout
  · exact absurd (start_cases hs).1 hin
  · cases hm with
    | returnEarly ho hst =>
      have hnil := (h.alone (h.early ho)).1
      simp [Sched.team, hnil, OwnerPc.joining]
    | @join thrs ho hall =>
      have hnil := h.swapped ho
      simp [Sched.team, hnil, OwnerPc.joining]
    | setStopping =>
      simp only [State.setSched_scheds, Function.update_self] at hout
      split at hout <;> cases hout
    | stopAlone hu | stopPool hu => exact absurd hu hin
    | goOn | skipCall | toCall | call | swap => simp at hout

/-- A scheduler without threads gets them from `start()` only. -/
theorem step_team_nil {l : Label} (h : (s.scheds i).team = []) (hl : ∀ ws, l ≠ .start i ws)
    (hs : step s l = some s') : (s'.scheds i).team = [] := by
  have hnil : (s.scheds i).threads = [] ∧ (s.scheds i).owner.joining = [] := by
    simpa [Sched.team] using h
  rcases step_control hs i with hc | ⟨w, -, -, -, -, -, ho, -, -, hth, -⟩ | ⟨ws, rfl⟩ | ⟨-, hm⟩
  · rw [team_eq hc]
    exact h
  · simp [Sched.team, ho, hth, hnil.1, OwnerPc.joining]
  · exact absurd rfl (hl ws)
  · cases hm with
    | setStopping =>
      cases hr : (s.scheds i).rootThread <;> simp [Sched.team, hnil.1, hr, OwnerPc.joining]
    | stopAlone | stopPool | returnEarly | goOn | skipCall | toCall | call | swap | join =>
      simp [Sched.team, hnil.1, OwnerPc.joining]

/-- The invariants of the runs in which each `start()` finds what it has to find. -/
theorem Roll.reach (h : Reach Scheduler.step (Lifecycle i) u.init s) : Roll i s := by
  refine h.invariant' (I := Roll i) (fun _ _ => ?_) fun hr hI hl hs => ?_
  · simp [Setup.init, Sched.construct]
  · exact hI.step (Tenure.reach (hr.mono fun hP => hP.1)).2.2 hl hs

theorem staysStarted_of_up (h : Reach Scheduler.step (Lifecycle i) u.init s) (hup : Up i s) :
    StaysStarted i s := by
  intro t ht
  have hboth : Reach Scheduler.step (Lifecycle i) u.init t ∧ Up i t := by
    refine ht.invariant (I := fun t => Reach Scheduler.step (Lifecycle i) u.init t ∧ Up i t)
      ⟨h, hup⟩ ?_
    intro t l t' hI hl hs
    exact ⟨.move hI.1 ⟨hl.1, fun ws _ => hI.2.startOk⟩ hs, hI.2.step hl.2 hs⟩
  obtain ⟨hr, hU⟩ := hboth
  obtain ⟨-, hG, hT⟩ := Tenure.reach (hr.mono fun hP => hP.1)
  exact ⟨hT.started hG.root (Roll.reach hr) hU.owner hU.stopping hU.full,
    fun ws t' hs => hU.start hs⟩

theorem staysEmpty_of_team (h : Reach Scheduler.step (fun _ l => l.taskFree) u.init s)
    (ht : (s.scheds i).team = []) : StaysEmpty i s := by
  intro t hr
  have hboth : Reach Scheduler.step (fun _ l => l.taskFree) u.init t ∧ (t.scheds i).team = [] := by
    refine hr.invariant (I := fun t => Reach Scheduler.step (fun _ l => l.taskFree) u.init t ∧
      (t.scheds i).team = []) ⟨h, ht⟩ ?_
    intro t l t' hI hl hs
    exact ⟨.move hI.1 hl.1 hs, step_team_nil hI.2 hl.2 hs⟩
  exact (Tenure.reach hboth.1).2.2.not_live hboth.2

/-- A `start()` that leaves the scheduler started has found it so, or had a fresh list of ids. -/
theorem startOk_of_started {ws : List ThreadId} (hT : Tenure i s) (hR : RootOk u s)
    (hs : step s (.start i ws) = some s') (hS : Started i s') : StartOk (s.scheds i) := by
  obtain ⟨hu, ⟨rfl, hst⟩ | ⟨hst, hnil, hlen, -, habs, rfl⟩⟩ := start_cases hs
  · rw [StartOk, if_neg (by simp [hst])]
    have hcount := hS.workers
    rw [hT.encard_live hu hst] at hcount
    exact_mod_cast hcount
  · rw [StartOk, if_pos hst]
    right
    obtain ⟨ds, hds, hown⟩ := hT.ids
    rw [hds]
    -- an id of an earlier thread would be listed, and nobody with it is left
    cases ds with
    | nil => exact List.append_nil _
    | cons d ds =>
      exfalso
      obtain ⟨hi, hr, hpc⟩ := hown d List.mem_cons_self
      have hws : d ∉ ws := fun hd => hpc (habs d hd)
      have hlisted := (hS.ids d).mp (by simp [hds])
      simp only [State.setSched_scheds, Function.update_self] at hlisted
      rcases hlisted with hroot | hlive
      · have hmark := (hR.root_of_thread hroot).1
        rw [hr] at hmark
        cases hmark
      · obtain ⟨-, -, hl, -⟩ := hlive
        have hl' : (s.workers d).pc ≠ .left := by simpa [hws] using hl
        have hmem := hT.team hi hr hpc hl'
        simp [Sched.team, hu, hnil, OwnerPc.joining] at hmem

/-- **`start()` and `stop()`.**  If every earlier `start()` found what it has to find, then after a
`start()` the scheduler has its workers, listed once, and keeps them until `stop()`, exactly when this
one does.  A `start()` of a scheduler that is not stopping changes nothing, and after a `stop()` no
worker is left, in every run. -/
theorem start_stop {l : Label} (h : Reach step (fun _ l => l.taskFree) u.init s) (hl : l.taskFree)
    (hs : step s l = some s') :
    (Reach step (Lifecycle i) u.init s →
        ∀ ws, l = .start i ws → (StaysStarted i s' ↔ StartOk (s.scheds i))) ∧
      (∀ ws, l = .start i ws → (s.scheds i).stopping = false → s' = s) ∧
      ((s.scheds i).owner ≠ .user → (s'.scheds i).owner = .user → StaysEmpty i s') := by
  obtain ⟨-, hG, hT⟩ := Tenure.reach h
  refine ⟨?_, ?_, ?_⟩
  · intro hlife ws hws
    subst hws
    constructor
    · intro hstays
      exact startOk_of_started hT hG.root hs (hstays s' .refl).1
    · intro hok
      have hr : Reach step (Lifecycle i) u.init s' := .move hlife ⟨hl, fun _ _ => hok⟩ hs
      refine staysStarted_of_up hr ?_
      obtain ⟨hu, ⟨rfl, hst⟩ | ⟨hst, hnil, hlen, -, -, rfl⟩⟩ := start_cases hs
      · rw [StartOk, if_neg (by simp [hst])] at hok
        exact ⟨hu, hst, hok⟩
      · exact ⟨by simpa using hu, by simp, by simpa using hlen⟩
  · intro ws hws hst
    subst hws
    obtain ⟨-, ⟨he, -⟩ | ⟨hst', -⟩⟩ := start_cases hs
    · exact he
    · rw [hst] at hst'
      cases hst'
  · intro hin hout
    have hr : Reach step (fun _ l => l.taskFree) u.init s' := .move h hl hs
    exact staysEmpty_of_team hr (hT.returned hs hin hout)

/-- `Lifecycle`, as a test. -/
def Lifecycle.check (i : SchedId) (s : State) (l : Label) : Bool :=
  l.taskFree &&
    match l with
    | .start .. => decide (StartOk (s.scheds i))
    | _ => true

theorem Lifecycle.of_check {l : Label} (h : Lifecycle.check i s l = true) : Lifecycle i s l := by
  obtain ⟨hfree, hok⟩ := (Bool.and_eq_true _ _).mp h
  refine ⟨hfree, fun ws hws => ?_⟩
  subst hws
  exact of_decide_eq_true hok

/-- Thread 0 owns a scheduler with one more worker; `start()`, `stop()`, and the worker leaves. -/
def stoppedOnce : List Label :=
  [.start 0 [1]] ++ runWorker 1 4 ++ [.stop 0, .owner 0, .owner 0, .owner 0] ++ runWorker 1 4

theorem start_stop_caller :
    ∃ s s', runs (guarded step (Lifecycle.check 0)) (Setup.caller 2 (by decide) true false).init
        stoppedOnce = some s ∧ step s (.owner 0) = some s' ∧ StaysEmpty 0 s' := by
  obtain ⟨s, hr, hc⟩ := exists_of_runs (guarded step (Lifecycle.check 0))
    (Setup.caller 2 (by decide) true false).init stoppedOnce
    (fun s => (s.scheds 0).owner != .user && (step s (.owner 0)).any fun s' =>
      (s'.scheds 0).owner == .user) (by decide +kernel)
  simp only [Bool.and_eq_true, bne_iff_ne, Option.any_eq_true, beq_iff_eq] at hc
  obtain ⟨hin, s', hs, hout⟩ := hc
  obtain ⟨hreach, -⟩ := Reach.of_guarded (I := fun _ => True) .refl trivial
    (fun _ hp _ => ⟨Lifecycle.of_check hp, trivial⟩) hr
  have hfree := hreach.mono fun hP => hP.1
  exact ⟨s, s', hr, hs, (start_stop (l := .owner 0) hfree rfl hs).2.2 hin hout⟩

/-- The memory said `m_stopping == false`, and the first `start()` makes no thread. -/
theorem start_makes_no_worker :
    ¬∀ (u : Setup) (i : SchedId) (s s' : State) (ws : List ThreadId),
      Reach step (fun _ l => l.taskFree) u.init s → step s (.start i ws) = some s' →
        StaysStarted i s' := by
  intro h
  have hs : step (Setup.caller 2 (by decide) false false).init (.start 0 [1]) =
      some (Setup.caller 2 (by decide) false false).init := rfl
  have hstays := h (Setup.caller 2 (by decide) false false) 0 _ _ [1] .refl hs
  have hok := startOk_of_started (Tenure.init _ 0) (RootOk.init _) hs (hstays _ .refl).1
  exact absurd hok (by decide)

/-- After `stop()` and a second `start()`, `m_threadIds` still has the id of the first thread. -/
theorem start_keeps_old_id :
    ¬∀ (u : Setup) (i : SchedId) (s s' : State) (ws : List ThreadId),
      (u.config i).stopping = true → Reach step (fun _ l => l.taskFree) u.init s →
        step s (.start i ws) = some s' → StaysStarted i s' := by
  intro h
  obtain ⟨s, hr, hc⟩ := exists_of_runs step (Setup.caller 2 (by decide) true false).init
    (stoppedOnce ++ [.owner 0])
    (fun s => !decide (StartOk (s.scheds 0)) && (step s (.start 0 [2])).isSome) (by decide +kernel)
  simp only [Bool.and_eq_true, Bool.not_eq_true', decide_eq_false_iff_not,
    Option.isSome_iff_exists] at hc
  obtain ⟨hbad, s', hs⟩ := hc
  have hreach : Reach step (fun _ l => l.taskFree) (Setup.caller 2 (by decide) true false).init s :=
    .of_runs .refl (by decide) hr
  have hstays := h _ 0 s s' [2] rfl hreach hs
  obtain ⟨-, hG, hT⟩ := Tenure.reach hreach (i := 0)
  exact hbad (startOk_of_started hT hG.root hs (hstays _ .refl).1)

end LioNet.Scheduler
