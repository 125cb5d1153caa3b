import LioNet.Scheduler.Accounting
import LioNet.Scheduler.Switching

/-!
# Where `switchTo` lands

A fiber's own entry is the one that `schedule()` of a fresh fiber, `run()` after a plain yield, or
`switchTo` made.  There is one at most, and while the fiber is inside a `switchTo` it waits in the
target's queue with the requested thread.  So `switchTo` lands where it says whenever the fiber is
resumed through its own entry; the entry that `run()` makes when it reads the HOLD of a `switchTo` is
not its own.

`Landing` is the invariant of runs in which no other entry resumes a fiber.  What a fiber does after
it has landed is the matter of `Stays`.
-/

namespace LioNet.Scheduler

open LioNet.Lib

/-- The entry is fiber `f`'s own. -/
def proper (f : FiberId) (e : Entry) : Bool := !e.stray && e.job.fiberId == some f

/-- Worker `w` is where a `switchTo` with these arguments sends its fiber. -/
def State.Lands (s : State) (w : ThreadId) (sw : Switch) : Prop :=
  (s.workers w).sched = sw.target ∧ (sw.thread = -1 ∨ sw.thread = (w : Int))

/-- The moves under which `switchTo` lands: fibers are taken out of nobody's hands, and an entry
beside the fiber's own one is taken only after the fiber has ended. -/
structure SwitchRun (s : State) (l : Label) : Prop where
  free : TakesFree s l
  own : ∀ w e f, l = .run w → (s.workers w).pc = .dispatch → (s.workers w).ft = some e →
    e.job.fiberId = some f → e.stray = true → (s.fibers f).state.ended = true

/-- The `switchTo` that the fiber is on its way through. -/
def Stage.pending : Stage → Option Switch
  | .switching sw => some sw
  | .leaving (.suspended b) | .dec (.suspended b) | .after (.suspended b)
  | .requeue (.suspended b) => b
  | _ => none

/-- The worker took `f` through an entry beside its own one. -/
def Worker.Strays (W : Worker) (f : FiberId) : Prop :=
  W.pc = .dispatch ∧ ∃ e, W.ft = some e ∧ e.stray = true ∧ e.job.fiberId = some f

/-- The worker has `f` while `f`'s own entry `e` is in the queue of scheduler `i`. -/
def Worker.Expects (W : Worker) (f : FiberId) (i : SchedId) (e : Entry) : Prop :=
  W.Strays f ∨ ∃ v st sw, W.pc = .exec v f st ∧ st.pending = some sw ∧ sw.target = i ∧
    sw.thread = e.thread

structure Landing (s : State) : Prop where
  single : ∀ f i, (s.queue i).countP (proper f) ≤ 1
  one : ∀ {f i j e e'}, e ∈ s.queue i → e' ∈ s.queue j → proper f e = true →
    proper f e' = true → i = j
  held : ∀ {w f i e}, (s.workers w).Owns f → e ∈ s.queue i → proper f e = true →
    (s.workers w).Expects f i e
  waits : ∀ {f i e sw}, e ∈ s.queue i → proper f e = true → (s.fibers f).saved = true →
    (s.fibers f).ctx = .suspended (some sw) → sw.target = i ∧ sw.thread = e.thread
  handed : ∀ {w e f sw}, (s.workers w).pc = .dispatch → (s.workers w).ft = some e →
    proper f e = true → (s.fibers f).ctx = .suspended (some sw) → s.Lands w sw
  enters : ∀ {w v f sw}, (s.workers w).pc = .exec v f .enter →
    (s.fibers f).ctx = .suspended (some sw) → s.Lands w sw

variable {s s' : State} {w : ThreadId} {f : FiberId} {i : SchedId} {e : Entry}

theorem proper_iff : proper f e = true ↔ e.stray = false ∧ e.job.fiberId = some f := by
  simp [proper]

theorem proper_bound (hE : Exclusive s) (he : e ∈ s.queue i) (hp : proper f e = true) :
    f < s.nextFiber :=
  hE.queued i e he f (proper_iff.mp hp).2

/-! ### Frames -/

/-- The queues are kept, and worker `w` moves on fiber `f`. -/
theorem Landing.touch (h : Landing s) (ht : Touches s s' w f)
    (hf : ∀ w', w' ≠ w → ¬(s.workers w').Owns f) (hqueue : s'.queue = s.queue)
    (hheld : ∀ {g i e}, (s'.workers w).Owns g → e ∈ s.queue i → proper g e = true →
      (s'.workers w).Expects g i e)
    (hwaits : ∀ {i e sw}, e ∈ s.queue i → proper f e = true → (s'.fibers f).saved = true →
      (s'.fibers f).ctx = .suspended (some sw) → sw.target = i ∧ sw.thread = e.thread)
    (hhanded : (s'.workers w).pc = .dispatch → (s'.workers w).ft = none)
    (henters : ∀ {v g sw}, (s'.workers w).pc = .exec v g .enter →
      (s'.fibers g).ctx = .suspended (some sw) → s'.Lands w sw) : Landing s' := by
  have hlands : ∀ {w' sw}, w' ≠ w → s.Lands w' sw → s'.Lands w' sw := by
    intro w' sw hw' hl
    unfold State.Lands
    rw [ht.workers w' hw']
    exact hl
  have hfib : ∀ {w' g}, w' ≠ w → (s.workers w').Owns g → s'.fibers g = s.fibers g := by
    intro w' g hw' ho
    refine ht.fibers g ?_
    rintro rfl
    exact hf w' hw' ho
  refine ⟨?_, ?_, ?_, ?_, ?_, ?_⟩
  · rw [hqueue]
    exact h.single
  · rw [hqueue]
    exact h.one
  · intro w' g j e ho he hp
    rw [hqueue] at he
    by_cases e' : w' = w
    · subst e'
      exact hheld ho he hp
    · rw [ht.workers w' e'] at ho ⊢
      exact h.held ho he hp
  · intro g j e sw he hp hs hc
    rw [hqueue] at he
    by_cases e' : g = f
    · subst e'
      exact hwaits he hp hs hc
    · rw [ht.fibers g e'] at hs hc
      exact h.waits he hp hs hc
  · intro w' e g sw hd hft hp hc
    by_cases e' : w' = w
    · subst e'
      rw [hhanded hd] at hft
      cases hft
    · rw [ht.workers w' e'] at hd hft
      have ho : (s.workers w').Owns g := .inl (by simp [Worker.hands, hd, hft, (proper_iff.mp hp).2])
      rw [hfib e' ho] at hc
      exact hlands e' (h.handed hd hft hp hc)
  · intro w' v g sw hpc hc
    by_cases e' : w' = w
    · subst e'
      exact henters hpc hc
    · rw [ht.workers w' e'] at hpc
      rw [hfib e' (owns_exec hpc)] at hc
      exact hlands e' (h.enters hpc hc)

/-- An entry is added to a queue.  If it is a fiber's own, that fiber had none. -/
theorem Landing.push (h : Landing s) {i : SchedId} {e : Entry}
    (hnew : ∀ f, proper f e = true → (∀ j, ∀ e' ∈ s.queue j, proper f e' = false) ∧
      (∀ w, (s.workers w).Owns f → (s.workers w).Expects f i e) ∧
      ∀ sw, (s.fibers f).saved = true → (s.fibers f).ctx = .suspended (some sw) →
        sw.target = i ∧ sw.thread = e.thread) : Landing (s.push i e) := by
  have hmem : ∀ {j e'}, e' ∈ (s.push i e).queue j → e' ∈ s.queue j ∨ j = i ∧ e' = e :=
    fun he' => State.mem_of_mem_push _ _ _ _ he'
  refine ⟨?_, ?_, ?_, ?_, h.handed, h.enters⟩
  · intro f j
    rw [State.push_queue]
    split
    · rw [List.countP_append]
      by_cases hp : proper f e = true
      · have hzero : (s.queue i).countP (proper f) = 0 :=
          List.countP_eq_zero.mpr fun e' he' => by simp [(hnew f hp).1 i e' he']
        simp [hzero, hp]
      · have hs := h.single f i
        simpa [hp] using hs
    · exact h.single f j
  · intro f j j' e₁ e₂ h₁ h₂ hp₁ hp₂
    have hnot : ∀ {j e'}, e' ∈ s.queue j → proper f e' = true → proper f e = true → False := by
      intro j e' he' hp' hp
      rw [(hnew f hp).1 j e' he'] at hp'
      cases hp'
    rcases hmem h₁ with a₁ | ⟨rfl, rfl⟩ <;> rcases hmem h₂ with a₂ | ⟨rfl, rfl⟩
    · exact h.one a₁ a₂ hp₁ hp₂
    · exact (hnot a₁ hp₁ hp₂).elim
    · exact (hnot a₂ hp₂ hp₁).elim
    · rfl
  · intro w f j e' ho he' hp
    rcases hmem he' with he' | ⟨rfl, rfl⟩
    · exact h.held ho he' hp
    · exact (hnew f hp).2.1 w ho
  · intro f j e' sw he' hp hs hc
    rcases hmem he' with he' | ⟨rfl, rfl⟩
    · exact h.waits he' hp hs hc
    · exact (hnew f hp).2.2 sw hs hc

theorem Landing.push_stray (h : Landing s) (he : e.stray = true) : Landing (s.push i e) :=
  h.push fun f hp => by
    rw [(proper_iff.mp hp).1] at he
    cases he

theorem Worker.not_expects {W : Worker} (hd : ¬W.Strays f)
    (hx : ∀ v st, W.pc = .exec v f st → st.pending = none) : ¬W.Expects f i e := by
  rintro (hs | ⟨v, st, sw, hpc, hp, -⟩)
  · exact hd hs
  · rw [hx v st hpc] at hp
    cases hp

/-- A fiber that is not on its way through a `switchTo` has no entry while some worker has it. -/
theorem Landing.no_entry (h : Landing s) (ho : (s.workers w).Owns f)
    (hx : ∀ i e, ¬(s.workers w).Expects f i e) : ∀ i, ∀ e ∈ s.queue i, proper f e = false := by
  intro i e he
  by_contra hp
  exact hx i e (h.held ho he (by simpa using hp))

/-- A worker goes on with its visit. -/
theorem Landing.next_stage (h : Landing s) (hE : Exclusive s) {v : Via} {st st' : Stage} {F : SFiber}
    (hpc : (s.workers w).pc = .exec v f st)
    (hw : s'.workers = Function.update s.workers w ((s.workers w).goto (.exec v f st')))
    (hfib : s'.fibers = Function.update s.fibers f F) (hnext : s'.nextFiber = s.nextFiber)
    (hqueue : s'.queue = s.queue) (hpend : st'.pending = st.pending) (hst : st' ≠ .enter)
    (hF : F.saved = true → ∀ sw, F.ctx = .suspended (some sw) →
      st.pending = some sw ∨ F = s.fibers f) : Landing s' := by
  have howns : (s.workers w).Owns f := owns_exec hpc
  have hself : s'.workers w = (s.workers w).goto (.exec v f st') := by simp [hw]
  have hfF : s'.fibers f = F := by simp [hfib]
  have hexp : ∀ {i e}, e ∈ s.queue i → proper f e = true →
      ∃ sw, st.pending = some sw ∧ sw.target = i ∧ sw.thread = e.thread := by
    intro i e he hp
    rcases h.held howns he hp with ⟨hd, -⟩ | ⟨v', st'', sw, hpc', hsw⟩
    · rw [hpc] at hd
      cases hd
    · obtain ⟨rfl, rfl⟩ : v = v' ∧ st = st'' := by simpa [hpc] using hpc'
      exact ⟨sw, hsw⟩
  refine h.touch (w := w) (f := f) ⟨fun w' hw' => by simp [hw, hw'], fun g hg => by simp [hfib, hg],
    Nat.le_of_eq hnext.symm⟩ (fun w' hw' ho => hw' (hE.excl ho howns)) hqueue ?_ ?_ ?_ ?_
  · intro g i e ho he hp
    rw [hself, owns_goto_exec hpc] at ho
    by_cases hg : g = f
    · subst hg
      obtain ⟨sw, hsw, hti⟩ := hexp he hp
      exact .inr ⟨v, st', sw, by rw [hself]; rfl, hpend.trans hsw, hti⟩
    · exfalso
      rcases h.held ho he hp with ⟨hd, -⟩ | ⟨v', st'', sw, hpc', -⟩
      · rw [hpc] at hd
        cases hd
      · rw [hpc] at hpc'
        injection hpc' with _ hfg _
        exact hg hfg.symm
  · intro i e sw he hp hs hc
    rw [hfF] at hs hc
    rcases hF hs sw hc with hsw | hsame
    · obtain ⟨sw', hsw', hti⟩ := hexp he hp
      obtain rfl : sw = sw' := Option.some.inj (hsw.symm.trans hsw')
      exact hti
    · rw [hsame] at hs hc
      exact h.waits he hp hs hc
  · intro hd
    rw [hself] at hd
    cases hd
  · intro v' g sw hpc'
    rw [hself] at hpc'
    injection hpc' with _ _ h3
    exact absurd h3 hst

/-- A worker ends its visit, or moves between two visits. -/
theorem Landing.between (h : Landing s) {W : Worker}
    (hw : s'.workers = Function.update s.workers w W) (hfib : s'.fibers = s.fibers)
    (hnext : s'.nextFiber = s.nextFiber) (hqueue : s'.queue = s.queue)
    (hpc : ∀ v g st, W.pc ≠ .exec v g st) (hft : W.pc = .dispatch → W.ft = none)
    (hown : ∀ g, W.funcFiber = some g → (s.workers w).funcFiber = some g ∧
      ∀ i e, ¬(s.workers w).Expects g i e) (hE : Exclusive s) : Landing s' := by
  have hself : s'.workers w = W := by simp [hw]
  have hWowns : ∀ g, W.Owns g → W.funcFiber = some g := by
    intro g ho
    rcases ho with ho | ho
    · unfold Worker.hands at ho
      split at ho
      · rename_i hx
        exact absurd hx (hpc _ _ _)
      · rename_i hd
        rw [hft hd] at ho
        cases ho
      · cases ho
    · exact ho
  -- no fiber changes; a fresh one will do as the one touched
  refine h.touch (w := w) (f := s.nextFiber) ⟨fun w' hw' => by simp [hw, hw'],
    fun g _ => by rw [hfib], Nat.le_of_eq hnext.symm⟩
    (fun w' _ ho => Nat.lt_irrefl _ (hE.bound ho)) hqueue ?_ ?_ ?_ ?_
  · intro g i e ho he hp
    rw [hself] at ho
    obtain ⟨hfg, hx⟩ := hown g (hWowns g ho)
    exact absurd (h.held (.inr hfg) he hp) (hx i e)
  · intro i e sw he hp
    exact absurd (proper_bound hE he hp) (Nat.lt_irrefl _)
  · rw [hself]
    exact hft
  · intro v g sw hx
    rw [hself] at hx
    exact absurd hx (hpc _ _ _)

/-! ### The moves of a worker -/

/-- Between its visits a worker expects no entry. -/
theorem Worker.not_expects_of_free {W : Worker} (hd : W.pc = .dispatch → W.ft = none)
    (hx : ∀ v g st, W.pc ≠ .exec v g st) : ¬W.Expects f i e :=
  Worker.not_expects (fun ⟨hpc, e', he', _⟩ => by rw [hd hpc] at he'; cases he')
    fun v st hpc => absurd hpc (hx v f st)

/-- A fiber's own entry leads to where the fiber waits. -/
theorem Landing.take (h : Landing s) (hE : Exclusive s) {q : List Entry}
    (hpc : (s.workers w).pc = .top)
    (htake : takeFirst (s.takes w) (s.queue (s.workers w).sched) = some (e, q))
    (hfree : ∀ f, e.job.fiberId = some f → ∀ w', ¬(s.workers w').Owns f)
    (hw : s'.workers = Function.update s.workers w
      { s.workers w with ft := some e, pc := .dispatch })
    (hfib : s'.fibers = s.fibers)
    (hqueue : ∀ i, s'.queue i = if i = (s.workers w).sched then q else s.queue i) :
    Landing s' := by
  have hself : s'.workers w = { s.workers w with ft := some e, pc := .dispatch } := by simp [hw]
  have hother : ∀ {w'}, w' ≠ w → s'.workers w' = s.workers w' := fun hne => by simp [hw, hne]
  have hmem : ∀ {j e'}, e' ∈ s'.queue j → e' ∈ s.queue j := mem_queue_of_take htake hqueue
  have hlands : ∀ {w' sw}, s.Lands w' sw → s'.Lands w' sw := by
    intro w' sw hl
    unfold State.Lands
    by_cases e' : w' = w
    · rw [e', hself]
      exact e' ▸ hl
    · rw [hother e']
      exact hl
  -- what is left of the queues has no other entry of the same fiber
  have hgone : ∀ {f j e'}, proper f e = true → e' ∈ s'.queue j → proper f e' = false := by
    intro f j e' hp he'
    by_contra hp'
    have hj : j = (s.workers w).sched :=
      h.one (hmem he') (takeFirst_mem htake) (by simpa using hp') hp
    rw [hqueue, if_pos hj] at he'
    have hcount := takeFirst_countP htake (proper f)
    have hle := h.single f (s.workers w).sched
    rw [hp, if_pos rfl] at hcount
    have hpos : 0 < q.countP (proper f) :=
      List.countP_pos_iff.mpr ⟨e', he', by simpa using hp'⟩
    omega
  refine ⟨?_, ?_, ?_, ?_, ?_, ?_⟩
  · intro f j
    rw [hqueue]
    split
    · have hcount := takeFirst_countP htake (proper f)
      have hle := h.single f (s.workers w).sched
      omega
    · exact h.single f j
  · intro f j j' e₁ e₂ h₁ h₂
    exact h.one (hmem h₁) (hmem h₂)
  · intro w' f j e' ho he' hp
    by_cases ew : w' = w
    · rw [ew, hself] at ho ⊢
      rcases ho with ho | ho
      · have hjob : e.job.fiberId = some f := by simpa [Worker.hands] using ho
        cases hst : e.stray with
        | true => exact .inl ⟨rfl, e, rfl, hst, hjob⟩
        | false =>
          rw [hgone (proper_iff.mpr ⟨hst, hjob⟩) he'] at hp
          cases hp
      · have hx := h.held (.inr ho) (hmem he') hp
        exact absurd hx (Worker.not_expects_of_free (by simp [hpc]) (by simp [hpc]))
    · rw [hother ew] at ho ⊢
      exact h.held ho (hmem he') hp
  · intro f j e' sw he'
    rw [hfib]
    exact h.waits (hmem he')
  · intro w' e' f sw hd hft hp hc
    rw [hfib] at hc
    by_cases ew : w' = w
    · subst ew
      rw [hself] at hft
      obtain rfl := Option.some.inj hft
      have hrest := hE.rest (hfree f (proper_iff.mp hp).2)
      obtain ⟨htarget, hthread⟩ := h.waits (takeFirst_mem htake) hp hrest.1 hc
      have hpass := takeFirst_pass htake
      simp only [State.takes, Bool.and_eq_true, Bool.or_eq_true, beq_iff_eq] at hpass
      exact hlands ⟨htarget.symm, by rw [hthread]; exact hpass.1⟩
    · rw [hother ew] at hd hft
      exact hlands (h.handed hd hft hp hc)
  · intro w' v f sw hx hc
    rw [hfib] at hc
    by_cases ew : w' = w
    · rw [ew, hself] at hx
      cases hx
    · rw [hother ew] at hx
      exact hlands (h.enters hx hc)

/-- A worker is about to resume the fiber it took. -/
theorem Landing.enter (h : Landing s) (hE : Exclusive s) {k : Option TaskId} {t : Int}
    (hpc : (s.workers w).pc = .dispatch) (hft : (s.workers w).ft = some ⟨.fiber f k, t, false⟩) :
    Landing (s.setWorker w ((s.workers w).goto (.exec .ft f .enter))) := by
  have hok := hE.ok w
  unfold WorkerOk at hok
  rw [hpc] at hok
  have howns : (s.workers w).Owns f := .inl (by simp [Worker.hands, hpc, hft, Job.fiberId])
  have hx : ∀ g i e, ¬(s.workers w).Expects g i e := by
    intro g i e
    refine Worker.not_expects ?_ (by simp [hpc])
    rintro ⟨-, e', he', hst, -⟩
    rw [hft] at he'
    obtain rfl := Option.some.inj he'
    cases hst
  refine h.touch (w := w) (f := f) ⟨fun w' hw' => by simp [hw'], fun _ _ => rfl, Nat.le_refl _⟩
    (fun w' hw' ho => hw' (hE.excl ho howns)) rfl ?_ ?_ (by simp) ?_
  · intro g i e ho he hp
    have ho' : (s.workers w).Owns g := by
      simpa [Worker.Owns, Worker.hands, hpc, hft, Job.fiberId] using ho
    exact absurd (h.held ho' he hp) (hx g i e)
  · intro i e sw he hp
    exact absurd (h.held howns he hp) (hx f i e)
  · intro v g sw hpc' hc
    obtain ⟨rfl, rfl⟩ : Via.ft = v ∧ f = g := by simpa using hpc'
    have hl := h.handed hpc hft (proper_iff.mpr ⟨rfl, rfl⟩) hc
    simpa [State.Lands] using hl

/-- A worker is about to begin a function it took: its fiber is in no queue. -/
theorem Landing.wrap (h : Landing s) {F : SFiber} {W : Worker}
    (hf : ∀ w', w' ≠ w → ¬(s.workers w').Owns f)
    (hnone : ∀ i, ∀ e ∈ s.queue i, proper f e = false)
    (hw : s'.workers = Function.update s.workers w W)
    (hfib : s'.fibers = Function.update s.fibers f F) (hnext : s.nextFiber ≤ s'.nextFiber)
    (hqueue : s'.queue = s.queue) (hW : W.pc = .exec .func f .enter) (hfunc : W.funcFiber = some f)
    (hF : F.ctx = .entry) : Landing s' := by
  have hself : s'.workers w = W := by simp [hw]
  refine h.touch (w := w) (f := f) ⟨fun w' hw' => by simp [hw, hw'], fun g hg => by simp [hfib, hg],
    hnext⟩ hf hqueue ?_ ?_ ?_ ?_
  · intro g i e ho he hp
    rw [hself] at ho
    obtain rfl : f = g := by simpa [Worker.Owns, Worker.hands, hW, hfunc] using ho
    rw [hnone i e he] at hp
    cases hp
  · intro i e sw he hp
    rw [hnone i e he] at hp
    cases hp
  · rw [hself, hW]
    intro hd
    cases hd
  · intro v g sw hpc hc
    rw [hself, hW] at hpc
    obtain ⟨rfl, rfl⟩ : Via.func = v ∧ f = g := by simpa using hpc
    simp [hfib, hF] at hc

/-- `run()` schedules its fiber again: as the fiber's own entry after a plain yield, and beside it
after the yield of a `switchTo`. -/
theorem Landing.requeue (h : Landing s) (hE : Exclusive s) {v : Via} {c : FCtx} {W : Worker}
    (hpc : (s.workers w).pc = .exec v f (.requeue c)) (hW : W.pc = .top)
    (hfunc : ∀ g, W.funcFiber = some g → (s.workers w).funcFiber = some g ∧ g ≠ f) :
    Landing ((s.push (s.workers w).sched
      ⟨.fiber f (s.fibers f).func, -1, c != .suspended none⟩).setWorker w W) := by
  have howns : (s.workers w).Owns f := owns_exec hpc
  have hx : ∀ g, g ≠ f → ∀ i e, ¬(s.workers w).Expects g i e := by
    intro g hg i e
    refine Worker.not_expects (fun hs => by simp [Worker.Strays, hpc] at hs) ?_
    intro v' st hpc'
    rw [hpc] at hpc'
    injection hpc' with _ hfg _
    exact absurd hfg.symm hg
  -- first the worker lets go of the fiber, then the entry is made
  have hlet : Landing (s.setWorker w W) := by
    refine h.between (W := W) (w := w) rfl rfl rfl rfl (by simp [hW]) (by simp [hW]) ?_ hE
    intro g hg
    obtain ⟨hg', hne⟩ := hfunc g hg
    exact ⟨hg', hx g hne⟩
  show Landing ((s.setWorker w W).push (s.workers w).sched
    ⟨.fiber f (s.fibers f).func, -1, c != .suspended none⟩)
  by_cases hc : c = .suspended none
  · subst hc
    refine hlet.push fun g hp => ?_
    obtain rfl : f = g := by simpa [proper, Job.fiberId] using hp
    refine ⟨h.no_entry howns fun i e => ?_, fun w' ho => ?_, fun sw _ hctx => ?_⟩
    · refine Worker.not_expects (fun hs => by simp [Worker.Strays, hpc] at hs) ?_
      intro v' st hpc'
      obtain ⟨rfl, rfl⟩ : v = v' ∧ .requeue (.suspended none) = st := by simpa [hpc] using hpc'
      rfl
    · exfalso
      by_cases ew : w' = w
      · rw [ew, State.setWorker_workers, Function.update_self] at ho
        rcases ho with ho | ho
        · simp [Worker.hands, hW] at ho
        · exact (hfunc f ho).2 rfl
      · rw [State.setWorker_workers, Function.update_of_ne ew] at ho
        exact ew (hE.excl ho howns)
    · have hst := ((hE.ok w).stage hpc).2.2.2
      rw [State.setWorker_fibers, hst] at hctx
      simp at hctx
  · exact hlet.push_stray (by simp [hc])

/-- **A worker's move keeps `Landing`.** -/
theorem Landing.runMove (h : Landing s) (hE : Exclusive s) (hl : SwitchRun s (.run w))
    (hm : RunMove s w s') : Landing s' := by
  have hst : ∀ {v f st}, (s.workers w).pc = .exec v f st → StageOk (s.fibers f) st :=
    fun hpc => (hE.ok w).stage hpc
  have hok := hE.ok w
  -- a worker that leaves its visit to `f` expects nothing about the fiber it keeps
  have hkeeps : ∀ {v f c}, (s.workers w).pc = .exec v f (.after c) → (s.fibers f).state.ended = true →
      ∀ g i e, ¬(s.workers w).Expects g i e := by
    intro v f c hpc he g i e
    refine Worker.not_expects (fun hs => by simp [Worker.Strays, hpc] at hs) ?_
    intro v' st hpc'
    rw [hpc] at hpc'
    injection hpc' with _ _ hst'
    have hend := (hst hpc).1
    subst hst'
    cases c with
    | suspended b =>
      rw [EndState] at hend
      rw [FiberState.not_ended_of_yielded hend] at he
      cases he
    | entry | finished => rfl
  have hfree : ∀ {g i e}, (∀ v g st, (s.workers w).pc ≠ .exec v g st) →
      ((s.workers w).pc = .dispatch → (s.workers w).ft = none) → ¬(s.workers w).Expects g i e :=
    fun hx hd => Worker.not_expects_of_free hd hx
  have hmove : ∀ {W : Worker}, (∀ v g st, (s.workers w).pc ≠ .exec v g st) →
      ((s.workers w).pc = .dispatch → (s.workers w).ft = none) →
      s'.workers = Function.update s.workers w W → s'.fibers = s.fibers →
      s'.nextFiber = s.nextFiber → s'.queue = s.queue → (∀ v g st, W.pc ≠ .exec v g st) →
      (W.pc = .dispatch → W.ft = none) → W.funcFiber = (s.workers w).funcFiber → Landing s' := by
    intro W hx hd hw hfib hnext hqueue hpc hft hfunc
    exact h.between hw hfib hnext hqueue hpc hft
      (fun g hg => ⟨hfunc ▸ hg, fun i e => hfree hx hd⟩) hE
  cases hm with
  | take hpc htake =>
    refine h.take hE hpc htake (fun f hf => hl.free hpc _ _ htake f hf) rfl rfl fun i => ?_
    rw [State.setWorker_queue, State.setSched_queue]
  | noEntry hpc _ => exact hmove (by simp [hpc]) (by simp [hpc]) rfl rfl rfl rfl (by simp) (by simp) rfl
  | @dropEnded f k t b hpc hft he =>
    unfold WorkerOk at hok
    rw [hpc] at hok
    refine h.between (W := (s.workers w).goto .drop) rfl rfl rfl rfl (by simp) (by simp) ?_ hE
    intro g hg
    refine ⟨hg, fun i e => Worker.not_expects ?_ (by simp [hpc])⟩
    rintro ⟨-, e', he', -, hjob⟩
    rw [hft] at he'
    obtain rfl := Option.some.inj he'
    obtain rfl := Option.some.inj hjob
    exact (hok.2 _ _ hft rfl).2 hg
  | @enterFiber f k t b hpc hft he =>
    cases b with
    | true =>
      rw [hl.own w _ f rfl hpc hft rfl rfl] at he
      cases he
    | false => exact h.enter hE hpc hft
  | @reuseFunc k t b f F hpc hft hf hF =>
    obtain ⟨-, rfl⟩ := Fiber.reset_eq_some_iff.mp hF
    have howns : (s.workers w).Owns f := .inr hf
    refine h.wrap (f := f) (F := Fiber.construct (some k) false) (fun w' hw' ho => hw' (hE.excl ho howns))
      (h.no_entry howns fun i e => ?_) rfl rfl (Nat.le_refl _) rfl rfl hf rfl
    refine Worker.not_expects ?_ (by simp [hpc])
    rintro ⟨-, e', he', -, hjob⟩
    rw [hft] at he'
    obtain rfl := Option.some.inj he'
    cases hjob
  | @newFunc k t b hpc hft hf =>
    refine h.wrap (f := s.nextFiber) (F := Fiber.construct (some k) false)
      (fun w' _ ho => Nat.lt_irrefl _ (hE.bound ho)) ?_ rfl rfl (Nat.le_succ _) rfl rfl rfl rfl
    intro i e he
    by_contra hp
    exact Nat.lt_irrefl _ (proper_bound hE he (by simpa using hp))
  | leave hpc hft hi =>
    refine hmove (W := (s.workers w).goto .left) (by simp [hpc]) (fun _ => hft) ?_ ?_ ?_ ?_ (by simp)
      (by simp) rfl
    all_goals simp
  | toIdle hpc hft hi =>
    exact hmove (by simp [hpc]) (fun _ => hft) rfl rfl rfl rfl (by simp) (by simp) rfl
  | drop hpc | idleInc hpc =>
    exact hmove (by simp [hpc]) (by simp [hpc]) rfl rfl rfl (State.setSched_queue_eq s _ _ rfl) (by simp)
      (by simp) rfl
  | idleDec hpc =>
    exact hmove (by simp [hpc]) (by simp [hpc]) rfl rfl rfl (State.setSched_queue_eq s _ _ rfl) (by simp)
      (by simp) rfl
  | idleIn hpc => exact hmove (by simp [hpc]) (by simp [hpc]) rfl rfl rfl rfl (by simp) (by simp) rfl
  | idleStop hpc _ | idleWait hpc _ =>
    exact hmove (by simp [hpc]) (by simp [hpc]) rfl rfl rfl rfl (by simp) (by simp) rfl
  | begin hpc _ _ | beginEmpty hpc _ _ | resume hpc _ =>
    exact h.next_stage hE hpc rfl rfl rfl rfl rfl (by simp) (by simp [Fiber.resume, Fiber.threw])
  | hold hpc _ =>
    refine h.next_stage hE hpc rfl rfl rfl rfl rfl (by simp) fun hs => ?_
    rw [(hst hpc).2] at hs
    cases hs
  | @save v f c hpc _ =>
    refine h.next_stage hE hpc rfl rfl rfl rfl ?_ (by simp) fun _ sw hc => .inl ?_
    · cases c <;> rfl
    · obtain rfl : c = .suspended (some sw) := hc
      rfl
  | saveBack hpc _ _ =>
    exact h.next_stage hE hpc rfl rfl rfl (State.setSched_queue_eq _ _ _ rfl) rfl (by simp)
      fun _ sw hc => by cases hc
  | @decr v f c hpc =>
    refine h.next_stage hE (F := s.fibers f) hpc rfl (by simp [State.decActive]) rfl
      (State.setSched_queue_eq s _ _ rfl) ?_ (by simp) fun _ _ _ => .inr rfl
    cases c <;> rfl
  | @keep v f c hpc hy =>
    refine h.next_stage hE (F := s.fibers f) hpc rfl (by simp) rfl rfl ?_ (by simp)
      fun _ _ _ => .inr rfl
    cases c <;> rfl
  | endFiber hpc he =>
    exact h.between (W := { s.workers w with ft := none, pc := .top }) rfl rfl rfl rfl (by simp)
      (by simp) (fun g hg => ⟨hg, hkeeps hpc he g⟩) hE
  | @endFunc f c hpc he =>
    have howns : (s.workers w).Owns f := owns_exec hpc
    have hnone := h.no_entry howns fun i e => hkeeps hpc he f i e
    refine h.touch (w := w) (f := f) ⟨fun w' hw' => by simp [hw'], fun g hg => by simp [hg],
      Nat.le_refl _⟩ (fun w' hw' ho => hw' (hE.excl ho howns)) rfl ?_ ?_ (by simp) (by simp)
    · intro g i e ho he' hp
      have ho' : (s.workers w).funcFiber = some g := by
        simpa [Worker.Owns, Worker.hands] using ho
      exact absurd (h.held (.inr ho') he' hp) (hkeeps hpc he g i e)
    · intro i e sw he' hp
      rw [hnone i e he'] at hp
      cases hp
  | lostFiber hpc hy he => exact (endState_ne_other (hst hpc).1 hy he).elim
  | lostFunc hpc hy he => exact (endState_ne_other (hst hpc).1 hy he).elim
  | @requeueFiber f c hpc =>
    unfold WorkerOk at hok
    rw [hpc] at hok
    refine h.requeue hE hpc rfl fun g hg => ⟨hg, ?_⟩
    rintro rfl
    exact hok.2.2.1 hg
  | requeueFunc hpc => exact h.requeue hE hpc rfl (by simp)

/-! ### The other moves -/

/-- No worker, no queue and no fiber made so far changes. -/
theorem Landing.congr (h : Landing s) (hE : Exclusive s) (hw : s'.workers = s.workers)
    (hfib : ∀ g, g < s.nextFiber → s'.fibers g = s.fibers g) (hqueue : s'.queue = s.queue) :
    Landing s' := by
  refine ⟨?_, ?_, ?_, ?_, ?_, ?_⟩
  · rw [hqueue]
    exact h.single
  · rw [hqueue]
    exact h.one
  · rw [hqueue, hw]
    exact h.held
  · intro f i e sw he hp
    rw [hqueue] at he
    rw [hfib f (proper_bound hE he hp)]
    exact h.waits he hp
  · intro w e f sw hd hft hp hc
    rw [hw] at hd hft
    have ho : (s.workers w).Owns f := .inl (by simp [Worker.hands, hd, hft, (proper_iff.mp hp).2])
    rw [hfib f (hE.bound ho)] at hc
    unfold State.Lands
    rw [hw]
    exact h.handed hd hft hp hc
  · intro w v f sw hpc hc
    rw [hw] at hpc
    rw [hfib f (hE.bound (owns_exec hpc))] at hc
    unfold State.Lands
    rw [hw]
    exact h.enters hpc hc

theorem Landing.accept (h : Landing s) (hE : Exclusive s) (i : SchedId) (sp : Spawn) (t : Int) :
    Landing (s.accept i sp t) := by
  cases sp with
  | func =>
    have hbase : Landing { s.setTask s.nextTask ⟨true, i, t, 0, false⟩ with
        nextTask := s.nextTask + 1 } := h.congr hE rfl (fun _ _ => rfl) rfl
    exact hbase.push fun f hp => by simp [proper, Job.fiberId] at hp
  | fiber uc =>
    have hbase : Landing { State.setFiber { s.setTask s.nextTask ⟨true, i, t, 0, false⟩ with
        nextTask := s.nextTask + 1 } s.nextFiber (Fiber.construct (some s.nextTask) uc) with
        nextFiber := s.nextFiber + 1 } :=
      h.congr hE rfl (fun g hg => by simp [Nat.ne_of_lt hg]) rfl
    refine hbase.push fun f hp => ?_
    obtain rfl : s.nextFiber = f := by simpa [proper, Job.fiberId] using hp
    refine ⟨fun j e he => ?_, fun w ho => ?_, fun sw _ hc => ?_⟩
    · by_contra hp'
      exact Nat.lt_irrefl _ (proper_bound hE he (by simpa using hp'))
    · exact absurd (hE.bound ho) (Nat.lt_irrefl _)
    · simp [Fiber.construct] at hc

theorem Landing.acceptAll (h : Landing s) (hE : Exclusive s) (i : SchedId) (sps : List Spawn) :
    Landing (s.acceptAll i sps) :=
  (acceptAll_induction (I := fun s => Landing s ∧ Exclusive s) s i sps ⟨h, hE⟩ fun _ sp h =>
    ⟨h.1.accept h.2 i sp (-1), h.2.accept i sp (-1)⟩).1

/-- **A body's move keeps `Landing`.** -/
theorem Landing.bodyMove (h : Landing s) (hE : Exclusive s) {v : Via} {a : Action}
    (hpc : (s.workers w).pc = .exec v f .running) (hm : BodyMove s w v f a s') : Landing s' := by
  have hst : (s.fibers f).state = .exec ∧ (s.fibers f).saved = false := (hE.ok w).stage hpc
  have howns : (s.workers w).Owns f := owns_exec hpc
  have hleave : ∀ {F : SFiber} {c : FCtx}, (Stage.leaving c).pending = none → F.saved = false →
      s'.workers = Function.update s.workers w ((s.workers w).goto (.exec v f (.leaving c))) →
      s'.fibers = Function.update s.fibers f F → s'.nextFiber = s.nextFiber →
      s'.queue = s.queue → Landing s' := by
    intro F c hc hF hw hfib hnext hqueue
    exact h.next_stage hE hpc hw hfib hnext hqueue hc (by simp) fun hs => by rw [hF] at hs; cases hs
  cases hm with
  | schedule => exact h.accept hE _ _ _
  | scheduleAll => exact h.acceptAll hE _ _
  | self => exact h.push_stray rfl
  | stay => exact h.congr hE rfl (fun _ _ => rfl) rfl
  | @go _ l sw _ _ =>
    have hx : ∀ g i e, ¬(s.workers w).Expects g i e := by
      intro g i e
      refine Worker.not_expects (fun hs => by simp [Worker.Strays, hpc] at hs) ?_
      intro v' st hpc'
      obtain ⟨-, -, rfl⟩ : v = v' ∧ f = g ∧ .running = st := by simpa [hpc] using hpc'
      rfl
    -- the worker is in `switchTo` when the entry appears
    have hin : Landing (((s.setSwitchers f l).rehome f sw.target).setWorker w
        ((s.workers w).goto (.exec v f (.switching sw)))) := by
      refine h.touch (w := w) (f := f) ⟨fun w' hw' => by simp [hw'], fun g _ => by simp,
        Nat.le_of_eq (by simp)⟩ (fun w' hw' ho => hw' (hE.excl ho howns)) (by simp) ?_ ?_ (by simp)
        (by simp)
      · intro g i e ho he hp
        have ho' : (s.workers w).Owns g := by
          simpa [owns_goto_exec hpc] using ho
        exact absurd (h.held ho' he hp) (hx g i e)
      · intro i e sw' he hp
        exact absurd (h.held howns he hp) (hx f i e)
    refine hin.push fun g hp => ?_
    obtain rfl : f = g := by simpa [proper, Job.fiberId] using hp
    refine ⟨fun j e he => h.no_entry howns (hx f) j e (by simpa using he), fun w' ho => ?_,
      fun sw' hs => ?_⟩
    · by_cases ew : w' = w
      · rw [ew]
        exact .inr ⟨v, .switching sw, sw, by simp, rfl, rfl, rfl⟩
      · exact absurd (hE.excl (by simpa [ew] using ho) howns) ew
    · simp [hst.2] at hs
  | @yield _ st hy he =>
    exact hleave (F := { s.fibers f with state := st }) rfl hst.2 rfl rfl rfl rfl
  | ret =>
    exact hleave (F := (s.fibers f).returned) (c := .finished) rfl hst.2 (by simp [State.leaveBody])
      (by simp [State.leaveBody]) (by simp [State.leaveBody]) (by simp [State.leaveBody])
  | throw =>
    exact hleave (F := (s.fibers f).threw) (c := .finished) rfl hst.2 (by simp [State.leaveBody])
      (by simp [State.leaveBody]) (by simp [State.leaveBody]) (by simp [State.leaveBody])

/-- The threads that `start()` launches have nothing in their hands. -/
theorem Landing.launch (h : Landing s) {j : SchedId} {ws : List ThreadId}
    (hw : s'.workers = fun w => if w ∈ ws then Worker.fresh j false else s.workers w)
    (hfib : s'.fibers = s.fibers) (hqueue : s'.queue = s.queue) : Landing s' := by
  have hkeep : ∀ w, s'.workers w = s.workers w ∨ s'.workers w = Worker.fresh j false := by
    intro w
    by_cases hmem : w ∈ ws <;> simp [hw, hmem]
  have hlands : ∀ {w sw}, s'.workers w = s.workers w → s.Lands w sw → s'.Lands w sw := by
    intro w sw hsame hl
    unfold State.Lands
    rwa [hsame]
  refine ⟨?_, ?_, ?_, ?_, ?_, ?_⟩
  · rw [hqueue]
    exact h.single
  · rw [hqueue]
    exact h.one
  · intro w f i e ho he hp
    rw [hqueue] at he
    rcases hkeep w with hsame | hfresh
    · rw [hsame] at ho ⊢
      exact h.held ho he hp
    · rw [hfresh] at ho
      rcases ho with ho | ho <;> cases ho
  · rw [hqueue, hfib]
    exact h.waits
  · intro w e f sw hd hft hp hc
    rw [hfib] at hc
    rcases hkeep w with hsame | hfresh
    · rw [hsame] at hd hft
      exact hlands hsame (h.handed hd hft hp hc)
    · rw [hfresh] at hd
      cases hd
  · intro w v f sw hpc hc
    rw [hfib] at hc
    rcases hkeep w with hsame | hfresh
    · rw [hsame] at hpc
      exact hlands hsame (h.enters hpc hc)
    · rw [hfresh] at hpc
      cases hpc

/-- **Every such move keeps `Landing`.** -/
theorem Landing.step {l : Label} (h : Landing s) (hE : Exclusive s) (hl : SwitchRun s l)
    (hs : Scheduler.step s l = some s') : Landing s' := by
  cases move_of_step hs with
  | run _ hm => exact h.runMove hE hl hm
  | body _ hpc hm => exact h.bodyMove hE hpc hm
  | schedule => exact h.accept hE _ _ _
  | scheduleAll => exact h.acceptAll hE _ _
  | reschedule => exact h.push_stray rfl
  | startAgain => exact h
  | @launch i => exact h.launch (j := i) rfl rfl (State.setSched_queue_eq s i _ rfl)
  | stop _ hm | owner _ hm =>
    obtain ⟨S, rfl, -⟩ := hm.frame
    exact h.congr hE rfl (fun _ _ => rfl) hm.queue

theorem init_free (u : Setup) (w : ThreadId) :
    (∀ v f st, (u.init.workers w).pc ≠ .exec v f st) ∧ (u.init.workers w).pc ≠ .dispatch := by
  rcases init_workers u w with hw | ⟨i, hw⟩ <;> simp [hw, Worker.absent, Worker.fresh]

theorem Landing.init (u : Setup) : Landing u.init where
  single f i := Nat.zero_le _
  one he := by simp [init_queue] at he
  held _ he := by simp [init_queue] at he
  waits he := by simp [init_queue] at he
  handed hd := absurd hd (init_free u _).2
  enters hpc := absurd hpc ((init_free u _).1 _ _ _)

/-- The invariants of the runs in which `switchTo` lands. -/
theorem Landing.reach {u : Setup} (h : Reach Scheduler.step SwitchRun u.init s) :
    Exclusive s ∧ Landing s :=
  h.invariant (I := fun s => Exclusive s ∧ Landing s) ⟨Exclusive.init u, Landing.init u⟩
    fun hI hP hs => ⟨hI.1.step hP.free hs, hI.2.step hI.1 hP hs⟩

/-! ### Until the next `switchTo` -/

/-- The body of fiber `f` calls `switchTo`, itself or through a `SchedulerSwitcher`. -/
def Switches (s : State) (f : FiberId) : Label → Prop
  | .body w a => a.switches = true ∧ (s.workers w).hands = some f
  | _ => False

/-- Fiber `f` is at scheduler `i`: its workers have it, and its own entry is in no other queue. -/
structure Stays (f : FiberId) (i : SchedId) (s : State) : Prop where
  held : ∀ {w}, (s.workers w).Owns f → ¬(s.workers w).Strays f → (s.workers w).sched = i
  queued : ∀ {j e}, e ∈ s.queue j → proper f e = true → j = i
  old : f < s.nextFiber

/-- What a worker comes to have by a move: nothing new, the fiber in the entry it takes, or a new
one. -/
theorem RunMove.owns (hE : Exclusive s) (hl : SwitchRun s (.run w)) (hm : RunMove s w s')
    (ho : (s'.workers w).Owns f) :
    ((s.workers w).Owns f ∧ ¬(s.workers w).Strays f) ∨ f = s.nextFiber ∨
      ∃ e ∈ s.queue (s.workers w).sched, e.job.fiberId = some f ∧
        s'.workers w = { s.workers w with ft := some e, pc := .dispatch } := by
  have hok := hE.ok w
  have hkeep : (s.workers w).funcFiber = some f →
      (s.workers w).Owns f ∧ ¬(s.workers w).Strays f := by
    refine fun hf => ⟨.inr hf, ?_⟩
    rintro ⟨hd, e, hft, -, hjob⟩
    unfold WorkerOk at hok
    rw [hd] at hok
    exact (hok.2 e f hft hjob).2 hf
  have hvisit : ∀ {v g st}, (s.workers w).pc = .exec v g st → (s.workers w).Owns f →
      (s.workers w).Owns f ∧ ¬(s.workers w).Strays f :=
    fun hpc ho => ⟨ho, fun hs => by simp [Worker.Strays, hpc] at hs⟩
  have hgoto : ∀ {v g st st'}, (s.workers w).pc = .exec v g st →
      s'.workers w = (s.workers w).goto (.exec v g st') →
      (s.workers w).Owns f ∧ ¬(s.workers w).Strays f := by
    intro v g st st' hpc hw
    rw [hw, owns_goto_exec hpc] at ho
    exact hvisit hpc ho
  cases hm with
  | @take e q hpc htake =>
    simp only [State.setWorker_workers, Function.update_self] at ho
    rcases ho with ho | ho
    · have hjob : e.job.fiberId = some f := by simpa [Worker.hands] using ho
      exact .inr (.inr ⟨e, takeFirst_mem htake, hjob, by simp⟩)
    · exact .inl (hkeep ho)
  | noEntry | dropEnded | toIdle | drop | endFiber | endFunc | requeueFiber | idleInc | idleIn
    | idleStop | idleWait | idleDec =>
    left
    refine hkeep ?_
    simpa [Worker.Owns, Worker.hands, State.decActive] using ho
  | leave =>
    left
    refine hkeep ?_
    simpa [Worker.Owns, Worker.hands] using ho
  | lostFiber hpc hy he => exact (endState_ne_other ((hE.ok w).stage hpc).1 hy he).elim
  | lostFunc hpc hy he => exact (endState_ne_other ((hE.ok w).stage hpc).1 hy he).elim
  | requeueFunc hpc => simp [Worker.Owns, Worker.hands] at ho
  | @enterFiber g k t b hpc hft he =>
    left
    have ho' : (s.workers w).Owns f := by
      simpa [Worker.Owns, Worker.hands, hpc, hft, Job.fiberId] using ho
    refine ⟨ho', ?_⟩
    rintro ⟨-, e, hft', hst, -⟩
    rw [hft] at hft'
    obtain rfl := Option.some.inj hft'
    rw [hl.own w _ g rfl hpc hft rfl hst] at he
    cases he
  | reuseFunc hpc hft hf hF =>
    left
    refine hkeep ?_
    simpa [Worker.Owns, Worker.hands, hf] using ho
  | newFunc hpc hft hf =>
    refine .inr (.inl ?_)
    simpa [Worker.Owns, Worker.hands, eq_comm] using ho
  | begin hpc _ _ | beginEmpty hpc _ _ | resume hpc _ | hold hpc _ | save hpc _ | saveBack hpc _ _
    | decr hpc | keep hpc _ =>
    exact .inl (hgoto hpc (by simp [State.leaveBody, State.decActive]; rfl))

theorem Stays.accept (h : Stays f i s) (j : SchedId) (sp : Spawn) (t : Int) :
    Stays f i (s.accept j sp t) := by
  refine ⟨?_, ?_, Nat.lt_of_lt_of_le h.old (accept_nextFiber s j sp t)⟩
  · rw [accept_workers]
    exact h.held
  · intro j' e he hp
    rcases mem_of_mem_accept s j sp t he with he | ⟨-, rfl⟩
    · exact h.queued he hp
    · have hold := h.old
      cases sp with
      | func => simp [acceptEntry, proper, Job.fiberId] at hp
      | fiber uc =>
        obtain rfl : s.nextFiber = f := by simpa [acceptEntry, proper, Job.fiberId] using hp
        exact absurd hold (Nat.lt_irrefl _)

theorem Stays.acceptAll (h : Stays f i s) (j : SchedId) (sps : List Spawn) :
    Stays f i (s.acceptAll j sps) :=
  acceptAll_induction (I := Stays f i) s j sps h fun _ sp h => h.accept j sp (-1)

/-- The workers are kept, and no entry of `f`'s own is made. -/
theorem Stays.of_queue (h : Stays f i s) (hw : s'.workers = s.workers)
    (hqueue : ∀ j, ∀ e ∈ s'.queue j, proper f e = true → e ∈ s.queue j)
    (hnext : s.nextFiber ≤ s'.nextFiber) : Stays f i s' := by
  refine ⟨?_, fun he hp => h.queued (hqueue _ _ he hp) hp, Nat.lt_of_lt_of_le h.old hnext⟩
  rw [hw]
  exact h.held

theorem Stays.push (h : Stays f i s) {j : SchedId} (hp : proper f e = false) :
    Stays f i (s.push j e) := by
  refine h.of_queue rfl (fun j' e' he hp' => ?_) (Nat.le_refl _)
  rcases State.mem_of_mem_push _ _ _ _ he with he | ⟨-, rfl⟩
  · exact he
  · rw [hp] at hp'
    cases hp'

/-- A worker's move keeps a fiber at its scheduler. -/
theorem Stays.runMove (h : Stays f i s) (hE : Exclusive s) (hl : SwitchRun s (.run w))
    (hm : RunMove s w s') : Stays f i s' := by
  obtain ⟨W, hW, hsched, -, -⟩ := hm.worker
  refine ⟨?_, ?_, Nat.lt_of_lt_of_le h.old hm.nextFiber_le⟩
  · intro w' ho hns
    by_cases ew : w' = w
    · subst ew
      have hself : (s'.workers w').sched = (s.workers w').sched := by rw [hW, Function.update_self, hsched]
      rw [hself]
      rcases hm.owns hE hl ho with ⟨ho, hn⟩ | hnew | ⟨e, he, hjob, htaken⟩
      · exact h.held ho hn
      · exact absurd h.old (by rw [hnew]; exact Nat.lt_irrefl _)
      · refine h.queued he (proper_iff.mpr ⟨?_, hjob⟩)
        by_contra hst
        exact hns ⟨by rw [htaken], e, by rw [htaken], by simpa using hst, hjob⟩
    · rw [hW, Function.update_of_ne ew] at ho hns ⊢
      exact h.held ho hns
  · intro j e he hp
    rcases hm.mem_queue he with he | ⟨v, g, c, hpc, rfl, rfl⟩
    · exact h.queued he hp
    · obtain rfl : g = f := by simpa [Job.fiberId] using (proper_iff.mp hp).2
      exact h.held (owns_exec hpc) fun hs => by simp [Worker.Strays, hpc] at hs

/-- **A fiber stays at its scheduler until it calls `switchTo`.** -/
theorem Stays.step {l : Label} (h : Stays f i s) (hE : Exclusive s) (hl : SwitchRun s l)
    (hns : ¬Switches s f l) (hs : Scheduler.step s l = some s') : Stays f i s' := by
  cases move_of_step hs with
  | run _ hm => exact h.runMove hE hl hm
  | @body w v g a _ _ hpc hm =>
    have hvisit : ∀ {t : State} (st : Stage), Stays f i t → t.workers = s.workers →
        Stays f i (t.setWorker w ((t.workers w).goto (.exec v g st))) := by
      intro t st ht hw
      refine ⟨fun {w'} ho hn => ?_, ht.queued, ht.old⟩
      by_cases ew : w' = w
      · subst ew
        have hpc' : (t.workers w').pc = .exec v g .running := by rw [hw]; exact hpc
        rw [State.setWorker_workers, Function.update_self] at ho ⊢
        rw [owns_goto_exec hpc'] at ho
        exact ht.held ho fun hs => by simp [Worker.Strays, hpc'] at hs
      · simp only [State.setWorker_workers, Function.update_of_ne ew] at ho hn ⊢
        exact ht.held ho hn
    cases hm with
    | schedule => exact h.accept _ _ _
    | scheduleAll => exact h.acceptAll _ _
    | self => exact h.push (by simp [proper])
    | stay => exact h.of_queue rfl (fun _ _ he _ => he) (Nat.le_refl _)
    | @go _ l sw ha _ =>
      have hgf : g ≠ f := by
        rintro rfl
        exact hns ⟨ha, by simp [Worker.hands, hpc]⟩
      have hpush : Stays f i (((s.setSwitchers g l).rehome g sw.target).push sw.target
          ⟨.fiber g (s.fibers g).func, sw.thread, false⟩) := by
        refine Stays.push ?_ (by simp [proper, Job.fiberId, hgf])
        exact h.of_queue (by simp) (fun _ _ he _ => by simpa using he) (Nat.le_of_eq (by simp))
      have hin := hvisit (.switching sw) hpush (by simp)
      simpa using hin
    | yield => exact hvisit _ (h.of_queue rfl (fun _ _ he _ => he) (Nat.le_refl _)) rfl
    | ret | throw =>
      have hend : Stays f i (s.finishTask g) :=
        h.of_queue (by simp) (fun _ _ he _ => by simpa using he) (Nat.le_of_eq (by simp))
      have hin := hvisit (.leaving .finished) hend (by simp)
      exact ⟨hin.held, hin.queued, hin.old⟩
  | schedule => exact h.accept _ _ _
  | scheduleAll => exact h.acceptAll _ _
  | reschedule => exact h.push (by simp [proper])
  | startAgain => exact h
  | @launch j ws =>
    refine ⟨fun {w} ho hn => ?_, fun he hp => h.queued ?_ hp, h.old⟩
    · by_cases hmem : w ∈ ws
      · simp only [hmem, if_true] at ho
        rcases ho with ho | ho <;> cases ho
      · simp only [hmem, if_false] at ho hn ⊢
        exact h.held ho hn
    · rwa [← start_queue hs]
  | stop _ hm | owner _ hm =>
    obtain ⟨S, rfl, -⟩ := hm.frame
    exact h.of_queue rfl (fun j e he _ => by rwa [hm.queue] at he) (Nat.le_refl _)

/-! ### `switchTo` -/

/-- The arguments of the `switchTo` that an action of the task in fiber `f` calls. -/
def State.aim (s : State) (f : FiberId) : Action → Option Switch
  | .switchTo i t => some ⟨i, t⟩
  | .switcher target => target.map fun i => ⟨i, -1⟩
  | .unswitch => (s.switchers f).head?.map fun i => ⟨i, -1⟩
  | _ => none

/-- What `switchTo` promises. -/
structure SwitchLands (s : State) : Prop where
  /-- a call returns at once where it should, or the fiber goes on its way -/
  calls : ∀ w v f a sw s', (s.workers w).pc = .exec v f .running → s.aim f a = some sw →
    step s (.body w a) = some s' →
    ((s'.workers w).pc = .exec v f .running ∧ s'.Lands w sw) ∨
      (s'.workers w).pc = .exec v f (.switching sw)
  /-- the fiber comes back from its way on a worker of the target, and on the thread asked for -/
  returns : ∀ w v f sw, (s.workers w).pc = .exec v f .enter →
    (s.fibers f).ctx = .suspended (some sw) → s.Lands w sw
  /-- until its next `switchTo` a fiber is executed by workers of one scheduler -/
  stays : ∀ w v f s' w', (s.workers w).pc = .exec v f .running →
    Reach step (fun s l => SwitchRun s l ∧ ¬Switches s f l) s s' → s'.Executes w' f →
    (s'.workers w').sched = (s.workers w).sched

theorem switchTo_calls (i : SchedId) (t : Int) {v : Via}
    (hpc : (s.workers w).pc = .exec v f .running) :
    (((s.switchTo w v f i t).workers w).pc = .exec v f .running ∧
        (s.switchTo w v f i t).Lands w ⟨i, t⟩) ∨
      ((s.switchTo w v f i t).workers w).pc = .exec v f (.switching ⟨i, t⟩) := by
  unfold State.switchTo
  split
  · rename_i hat
    exact .inl ⟨hpc, hat⟩
  · exact .inr (by simp)

theorem aim_calls {v : Via} {a : Action} {sw : Switch}
    (hpc : (s.workers w).pc = .exec v f .running) (ha : s.aim f a = some sw)
    (hs : step s (.body w a) = some s') :
    ((s'.workers w).pc = .exec v f .running ∧ s'.Lands w sw) ∨
      (s'.workers w).pc = .exec v f (.switching sw) := by
  simp only [step, State.bodyStep, hpc] at hs
  split at hs
  · cases a with
    | switchTo i t =>
      obtain rfl := Option.some.inj hs
      obtain rfl := Option.some.inj ha
      exact switchTo_calls _ _ hpc
    | switcher target =>
      cases target with
      | none => cases ha
      | some i =>
        obtain rfl := Option.some.inj hs
        obtain rfl := Option.some.inj ha
        exact switchTo_calls _ _ hpc
    | unswitch =>
      simp only [State.bodyMove] at hs
      split at hs
      · cases hs
      · rename_i c cs hl
        obtain rfl := Option.some.inj hs
        simp only [State.aim, hl, List.head?_cons, Option.map_some] at ha
        obtain rfl := Option.some.inj ha
        exact switchTo_calls _ _ hpc
    | _ => cases ha
  · cases hs

/-- **`switchTo` lands where it says**, in every run in which no fiber is resumed through an entry
beside its own one. -/
theorem switch_lands {u : Setup} (h : Reach Scheduler.step SwitchRun u.init s) : SwitchLands s := by
  obtain ⟨hE, hL⟩ := Landing.reach h
  refine ⟨fun w v f a sw s' hpc ha hs => aim_calls hpc ha hs, fun w v f sw hpc hc => hL.enters hpc hc,
    ?_⟩
  intro w v f s' w' hpc hr hx
  have howns : (s.workers w).Owns f := owns_exec hpc
  have hstart : Stays f (s.workers w).sched s := by
    refine ⟨fun ho _ => by rw [hE.excl ho howns], fun {j e} he hp => ?_, hE.bound howns⟩
    -- a running fiber has no entry of its own
    exfalso
    rcases hL.held howns he hp with ⟨hd, -⟩ | ⟨v', st, sw, hpc', hsw, -⟩
    · rw [hpc] at hd
      cases hd
    · obtain ⟨-, rfl⟩ : v = v' ∧ .running = st := by simpa [hpc] using hpc'
      cases hsw
  have hend : Exclusive s' ∧ Stays f (s.workers w).sched s' :=
    hr.invariant (I := fun t => Exclusive t ∧ Stays f (s.workers w).sched t) ⟨hE, hstart⟩
      fun hI hP hs => ⟨hI.1.step hP.1.free hs, hI.2.step hI.1 hP.1 hP.2 hs⟩
  obtain ⟨v', st, hpc', -⟩ := hx
  exact hend.2.held (owns_exec hpc') fun hs => by simp [Worker.Strays, hpc'] at hs

/-- `SwitchRun`, as a test for runs with the threads of a list. -/
def SwitchRun.check (ws : List ThreadId) (s : State) (l : Label) : Bool :=
  takesFreeCheck ws s l &&
    match l with
    | .run w => (s.workers w).pc != .dispatch || (s.workers w).ft.all fun e =>
        !e.stray || e.job.fiberId.all fun f => (s.fibers f).state.ended
    | _ => true

theorem SwitchRun.of_check {ws : List ThreadId} {l : Label} (hE : Exclusive s)
    (ho : OnlyThreads ws s) (h : SwitchRun.check ws s l = true)
    (hs : Scheduler.step s l = some s') : SwitchRun s l ∧ Exclusive s' ∧ OnlyThreads ws s' := by
  obtain ⟨htake, h⟩ := Bool.and_eq_true_iff.mp h
  obtain ⟨hfree, hrest⟩ := takesFree_of_check hE ho htake hs
  refine ⟨⟨hfree, ?_⟩, hrest⟩
  rintro w e f rfl hpc hft hjob hst
  simpa [hpc, hft, hst, hjob] using h

theorem switch_lands_once :
    ∃ s, runs (guarded Scheduler.step (SwitchRun.check [0, 1])) (Setup.pool 1 (by decide)).init
      landedRun = some s ∧ SwitchLands s := by
  obtain ⟨s, hr, -⟩ := exists_of_runs (guarded Scheduler.step (SwitchRun.check [0, 1]))
    (Setup.pool 1 (by decide)).init landedRun (fun s => (s.workers 1).pc == .exec .ft 0 .enter)
    (by decide +kernel)
  obtain ⟨hreach, -⟩ := Reach.of_guarded (I := fun s => Exclusive s ∧ OnlyThreads [0, 1] s) .refl
    ⟨Exclusive.init _, OnlyThreads.init fun _ _ => rfl⟩
    (fun hI hp hs => SwitchRun.of_check hI.1 hI.2 hp hs) hr
  exact ⟨s, hr, switch_lands hreach⟩

/-- Worker 0 puts the fiber back when it reads HOLD, and takes it again before worker 1 does. -/
def bouncedRun : List Label :=
  [.start 0 [0], .start 1 [1], .schedule 0 (.fiber false) (-1)] ++ runWorker 0 3 ++
    [.body 0 (.switchTo 1 (-1))] ++ runWorker 0 5 ++ runWorker 0 2

/-- A `switchTo` to scheduler 1 returns on the worker of scheduler 0. -/
theorem not_switch_lands :
    ¬∀ (u : Setup) (s : State), Reach Scheduler.step (fun _ l => l.switching) u.init s →
      SwitchLands s := by
  intro h
  obtain ⟨s, hs, hc⟩ := exists_of_runs Scheduler.step (Setup.pool 1 (by decide)).init bouncedRun
    (fun s => (s.workers 0).pc == .exec .ft 0 .enter && ((s.workers 0).sched == 0 &&
      (s.fibers 0).ctx == .suspended (some ⟨1, -1⟩))) (by decide +kernel)
  simp only [Bool.and_eq_true, beq_iff_eq] at hc
  obtain ⟨hpc, hsched, hctx⟩ := hc
  have hlands := (h _ s (.of_runs .refl (by decide) hs)).returns 0 _ 0 _ hpc hctx
  rw [State.Lands, hsched] at hlands
  cases hlands.1

end LioNet.Scheduler
