import LioNet.Scheduler.Moves

/-!
# A fiber is in one worker's hands

A worker has a fiber in its hands from the moment it takes the fiber's entry out of `m_fibers` until
it puts the fiber back or is done with it; its `func_fiber` is in its hands all the time.  `Hands`
says that a fiber is in the hands of one worker at most, that a fiber in nobody's hands rests (its
context is saved and agrees with its state), and that a fiber in somebody's hands is in the state
which the worker's control point calls for.

The only move that can break this is taking an entry whose fiber another worker still has.  `run()`
looks at the fiber's state there (line 145), which says EXEC only between `swapIn` and the next
yield.  `TakesFree` is the condition that the check is meant to give: **the fiber taken is in
nobody's hands**.  Under it `Hands` is an invariant, whatever the tasks do.
-/

namespace LioNet.Scheduler

open LioNet.Lib

/-- The fiber a worker is handling. -/
def Worker.hands (W : Worker) : Option FiberId :=
  match W.pc with
  | .exec _ f _ => some f
  | .dispatch => W.ft.bind fun e => e.job.fiberId
  | _ => none

/-- The worker handles `f`, or keeps it as `func_fiber`. -/
def Worker.Owns (W : Worker) (f : FiberId) : Prop := W.hands = some f ∨ W.funcFiber = some f

/-- The entry taken next holds no fiber that some worker has in its hands. -/
def TakesFree (s : State) : Label → Prop
  | .run w =>
    (s.workers w).pc = .top → ∀ e q, takeFirst (s.takes w) (s.schedOf w).fibers = some (e, q) →
      ∀ f, e.job.fiberId = some f → ∀ w', ¬(s.workers w').Owns f
  | _ => True

/-- The state of a fiber whose segment ended as `c` says. -/
def EndState : FCtx → FiberState → Prop
  | .entry, _ => False
  | .suspended _, st => st.yielded = true
  | .finished, st => st.ended = true

/-- The fiber a worker handles agrees with the worker's control point. -/
def StageOk (F : SFiber) : Stage → Prop
  | .enter => F.Resting ∧ F.state.ended = false
  | .running | .switching _ => F.state = .exec ∧ F.saved = false
  | .leaving c => EndState c F.state ∧ F.saved = false
  | .dec c | .after c => EndState c F.state ∧ F.saved = true ∧ F.ctx = c
  | .requeue c => F.state.yielded = true ∧ EndState c F.state ∧ F.saved = true ∧ F.ctx = c

/-- A kept `func_fiber` has been reset. -/
def Spare (φ : FiberId → SFiber) (W : Worker) : Prop :=
  ∀ f, W.funcFiber = some f → (φ f).state = .init ∧ (φ f).ctx = .entry ∧ (φ f).saved = true

/-- A worker's locals agree with its control point and with its fibers. -/
def WorkerOk (φ : FiberId → SFiber) (W : Worker) : Prop :=
  match W.pc with
  | .exec .ft f st =>
    StageOk (φ f) st ∧ Spare φ W ∧ W.funcFiber ≠ some f ∧
      ∃ e, W.ft = some e ∧ e.job.fiberId = some f
  | .exec .func f st => StageOk (φ f) st ∧ W.funcFiber = some f
  | .dispatch =>
    Spare φ W ∧
      ∀ e f, W.ft = some e → e.job.fiberId = some f → (φ f).Resting ∧ W.funcFiber ≠ some f
  | .absent => W.funcFiber = none
  | _ => Spare φ W

structure Hands (s : State) : Prop where
  excl : ∀ {w w' f}, (s.workers w).Owns f → (s.workers w').Owns f → w = w'
  ok : ∀ w, WorkerOk s.fibers (s.workers w)
  rest : ∀ {f}, (∀ w, ¬(s.workers w).Owns f) → (s.fibers f).Resting
  bound : ∀ {w f}, (s.workers w).Owns f → f < s.nextFiber

/-! ### Frames -/

section Frame

variable {φ ψ : FiberId → SFiber} {W : Worker}

theorem owns_exec {v : Via} {f : FiberId} {st : Stage} (h : W.pc = .exec v f st) : W.Owns f :=
  .inl (by simp [Worker.hands, h])

/-- A worker is not concerned by the fibers it does not own. -/
theorem WorkerOk.congr (h : WorkerOk φ W) (heq : ∀ f, W.Owns f → ψ f = φ f) : WorkerOk ψ W := by
  have hspare : Spare φ W → Spare ψ W := fun hs f hf => by rw [heq f (.inr hf)]; exact hs f hf
  cases hpc : W.pc with
  | exec v f st =>
    have hf : ψ f = φ f := heq f (owns_exec hpc)
    cases v with
    | ft =>
      simp only [WorkerOk, hpc] at h ⊢
      exact ⟨by rw [hf]; exact h.1, hspare h.2.1, h.2.2⟩
    | func =>
      simp only [WorkerOk, hpc] at h ⊢
      exact ⟨by rw [hf]; exact h.1, h.2⟩
  | dispatch =>
    simp only [WorkerOk, hpc] at h ⊢
    refine ⟨hspare h.1, fun e f he hf => ?_⟩
    rw [heq f (.inl (by simp [Worker.hands, hpc, he, hf]))]
    exact h.2 e f he hf
  | absent =>
    simp only [WorkerOk, hpc] at h ⊢
    exact h
  | top | drop | idleInc | idleIn | idleRun | idleDec | left =>
    simp only [WorkerOk, hpc] at h ⊢
    exact hspare h

end Frame

/-- Nothing but worker `w` and fiber `f` differs between the fibers and workers of two states. -/
structure Touches (s s' : State) (w : ThreadId) (f : FiberId) : Prop where
  workers : ∀ w', w' ≠ w → s'.workers w' = s.workers w'
  fibers : ∀ g, g ≠ f → s'.fibers g = s.fibers g
  next : s.nextFiber ≤ s'.nextFiber

variable {s s' : State} {w : ThreadId} {f : FiberId}

/-- **The frame rule.**  A move of worker `w` on fiber `f` keeps `Hands` when no other worker has
`f`, `w` takes nothing else into its hands, what it lets go of rests, and its new control point fits
the new state of its fibers. -/
theorem Hands.touch (h : Hands s) (ht : Touches s s' w f)
    (hf : ∀ w', w' ≠ w → ¬(s.workers w').Owns f)
    (hown : ∀ g, g ≠ f → (s'.workers w).Owns g → (s.workers w).Owns g)
    (hok : WorkerOk s'.fibers (s'.workers w))
    (hrest : ¬(s'.workers w).Owns f → (s'.fibers f).Resting)
    (hdrop : ∀ g, g ≠ f → (s.workers w).Owns g → ¬(s'.workers w).Owns g → (s.fibers g).Resting)
    (hlt : (s'.workers w).Owns f → f < s'.nextFiber) : Hands s' := by
  have hother : ∀ w', w' ≠ w → ∀ g, (s'.workers w').Owns g → g ≠ f ∧ (s.workers w').Owns g := by
    intro w' hw' g hg
    rw [ht.workers w' hw'] at hg
    exact ⟨fun hgf => hf w' hw' (hgf ▸ hg), hg⟩
  have hmeet : ∀ w' g, w' ≠ w → (s'.workers w).Owns g → (s'.workers w').Owns g → False := by
    intro w' g hw' hg hg'
    obtain ⟨hgf, hold⟩ := hother w' hw' g hg'
    exact hw' (h.excl hold (hown g hgf hg))
  refine ⟨?_, ?_, ?_, ?_⟩
  · intro w₁ w₂ g h₁ h₂
    by_cases e₁ : w₁ = w
    · by_cases e₂ : w₂ = w
      · rw [e₁, e₂]
      · subst e₁
        exact (hmeet w₂ g e₂ h₁ h₂).elim
    · by_cases e₂ : w₂ = w
      · subst e₂
        exact (hmeet w₁ g e₁ h₂ h₁).elim
      · exact h.excl (hother w₁ e₁ g h₁).2 (hother w₂ e₂ g h₂).2
  · intro w'
    by_cases e : w' = w
    · subst e
      exact hok
    · have hold := h.ok w'
      rw [ht.workers w' e]
      refine hold.congr fun g hg => ht.fibers g ?_
      rintro rfl
      exact hf w' e hg
  · intro g hg
    by_cases e : g = f
    · subst e
      exact hrest (hg w)
    · rw [ht.fibers g e]
      by_cases how : (s.workers w).Owns g
      · exact hdrop g e how (hg w)
      · refine h.rest fun w' hw' => ?_
        by_cases e' : w' = w
        · subst e'
          exact how hw'
        · exact hg w' (by rw [ht.workers w' e']; exact hw')
  · intro w' g hg
    by_cases e : w' = w
    · subst e
      by_cases hgf : g = f
      · subst hgf
        exact hlt hg
      · exact Nat.lt_of_lt_of_le (h.bound (hown g hgf hg)) ht.next
    · exact Nat.lt_of_lt_of_le (h.bound (hother w' e g hg).2) ht.next

/-- The frame rule for a move that leaves all fibers alone. -/
theorem Hands.touch_worker (h : Hands s) (hfib : s'.fibers = s.fibers)
    (hnext : s'.nextFiber = s.nextFiber) (hw : ∀ w', w' ≠ w → s'.workers w' = s.workers w')
    (hown : ∀ g, (s'.workers w).Owns g → (s.workers w).Owns g)
    (hok : WorkerOk s.fibers (s'.workers w))
    (hdrop : ∀ g, (s.workers w).Owns g → ¬(s'.workers w).Owns g → (s.fibers g).Resting) :
    Hands s' := by
  -- any fiber that nobody else has will do as the one touched; a fresh one always is
  refine h.touch (w := w) (f := s.nextFiber) ⟨hw, fun g _ => by rw [hfib], Nat.le_of_eq hnext.symm⟩ ?_
    (fun g _ => hown g) (by rw [hfib]; exact hok) ?_ (fun g _ => hdrop g) ?_
  · intro w' _ ho
    exact Nat.lt_irrefl _ (h.bound ho)
  · intro _
    rw [hfib]
    exact h.rest fun w' ho => Nat.lt_irrefl _ (h.bound ho)
  · intro ho
    exact absurd (h.bound (hown _ ho)) (Nat.lt_irrefl _)

/-- The frame rule for a move that leaves all fibers and workers alone. -/
theorem Hands.touch_none (h : Hands s) (hfib : s'.fibers = s.fibers)
    (hnext : s'.nextFiber = s.nextFiber) (hw : s'.workers = s.workers) : Hands s' where
  excl := by rw [hw]; exact h.excl
  ok := by rw [hw, hfib]; exact h.ok
  rest := by rw [hw, hfib]; exact h.rest
  bound := by rw [hw, hnext]; exact h.bound

/-- The frame rule for a move of a worker on a fiber that it owns. -/
theorem Hands.touch_owned (h : Hands s) {W : Worker} {F : SFiber} (howns : (s.workers w).Owns f)
    (hw : s'.workers = Function.update s.workers w W)
    (hfib : s'.fibers = Function.update s.fibers f F) (hnext : s'.nextFiber = s.nextFiber)
    (hown : ∀ g, W.Owns g → (s.workers w).Owns g) (hok : WorkerOk s'.fibers W)
    (hrest : ¬W.Owns f → F.Resting)
    (hdrop : ∀ g, g ≠ f → (s.workers w).Owns g → ¬W.Owns g → (s.fibers g).Resting) : Hands s' := by
  have hself : s'.workers w = W := by simp [hw]
  have hfF : s'.fibers f = F := by simp [hfib]
  refine h.touch (w := w) (f := f) ⟨?_, ?_, Nat.le_of_eq hnext.symm⟩ ?_ ?_ ?_ ?_ ?_ ?_
  · intro w' hw'
    simp [hw, hw']
  · intro g hg
    simp [hfib, hg]
  · intro w' hw' ho
    exact hw' (h.excl ho howns)
  · rw [hself]
    exact fun g _ => hown g
  · rw [hself]
    exact hok
  · rw [hself, hfF]
    exact hrest
  · rw [hself]
    exact hdrop
  · intro _
    rw [hnext]
    exact h.bound howns

/-! ### The moves of a worker -/

/-- The stages of one visit to a fiber differ in nothing that ownership sees. -/
theorem owns_goto_exec {W : Worker} {v : Via} {st st' : Stage} {g : FiberId}
    (hpc : W.pc = .exec v f st) : (W.goto (.exec v f st')).Owns g ↔ W.Owns g := by
  simp [Worker.Owns, Worker.hands, Worker.goto, hpc]

theorem WorkerOk.stage {φ : FiberId → SFiber} {W : Worker} {v : Via} {st : Stage}
    (h : WorkerOk φ W) (hpc : W.pc = .exec v f st) : StageOk (φ f) st := by
  unfold WorkerOk at h
  rw [hpc] at h
  cases v with
  | ft => exact h.1
  | func => exact h.1

/-- A worker goes to the next stage of its visit to a fiber, and the fiber's record changes. -/
theorem Hands.next_stage (h : Hands s) {v : Via} {st st' : Stage} {F : SFiber}
    (hpc : (s.workers w).pc = .exec v f st)
    (hw : s'.workers = Function.update s.workers w ((s.workers w).goto (.exec v f st')))
    (hfib : s'.fibers = Function.update s.fibers f F) (hnext : s'.nextFiber = s.nextFiber)
    (hst : StageOk F st') : Hands s' := by
  have howns : (s.workers w).Owns f := owns_exec hpc
  have hfF : s'.fibers f = F := by simp [hfib]
  refine h.touch_owned howns hw hfib hnext (fun g => (owns_goto_exec hpc).mp) ?_ ?_ ?_
  · have hok := h.ok w
    unfold WorkerOk at hok ⊢
    rw [hpc] at hok
    cases v with
    | ft =>
      refine ⟨by simpa [hfF] using hst, ?_, hok.2.2⟩
      intro g hg
      have hgf : g ≠ f := by
        rintro rfl
        exact hok.2.2.1 hg
      simpa [hfib, hgf] using hok.2.1 g hg
    | func => exact ⟨by simpa [hfF] using hst, hok.2⟩
  · intro ho
    exact absurd ((owns_goto_exec hpc).mpr howns) ho
  · intro g _ hg hng
    exact absurd ((owns_goto_exec hpc).mpr hg) hng

theorem WorkerOk.spare {φ : FiberId → SFiber} {W : Worker} (h : WorkerOk φ W)
    (hpc : ∀ v f st, W.pc ≠ .exec v f st) : Spare φ W := by
  unfold WorkerOk at h
  cases hW : W.pc with
  | exec v f st => exact (hpc v f st hW).elim
  | dispatch => rw [hW] at h; exact h.1
  | absent =>
    rw [hW] at h
    intro f hf
    rw [h] at hf
    cases hf
  | top | drop | idleInc | idleIn | idleRun | idleDec | left => rw [hW] at h; exact h

/-- Between its visits a worker owns its `func_fiber` only, and keeps it. -/
theorem Hands.between (h : Hands s) {W : Worker} (hexec : ∀ v f st, (s.workers w).pc ≠ .exec v f st)
    (hhands : (s.workers w).hands = none)
    (hw : s'.workers = Function.update s.workers w W) (hfib : s'.fibers = s.fibers)
    (hnext : s'.nextFiber = s.nextFiber) (hfunc : W.funcFiber = (s.workers w).funcFiber)
    (hW : W.hands = none) (hok : Spare s.fibers W → WorkerOk s.fibers W) : Hands s' := by
  have hself : s'.workers w = W := by simp [hw]
  have hspare : Spare s.fibers (s.workers w) := (h.ok w).spare hexec
  have howns : ∀ g, W.Owns g ↔ (s.workers w).Owns g := by
    intro g
    simp [Worker.Owns, hW, hhands, hfunc]
  refine h.touch_worker (w := w) hfib hnext (fun w' hw' => by simp [hw, hw']) ?_ ?_ ?_
  · intro g hg
    rw [hself] at hg
    exact (howns g).mp hg
  · rw [hself]
    refine hok fun g hg => hspare g (hfunc ▸ hg)
  · intro g hg hng
    rw [hself] at hng
    exact absurd ((howns g).mpr hg) hng

/-- A worker puts down the fiber it handled through `ft`, and the fiber rests. -/
theorem Hands.put_down (h : Hands s) {W : Worker} {F : SFiber}
    (hhands : (s.workers w).hands = some f) (hne : (s.workers w).funcFiber ≠ some f)
    (hspare : Spare s.fibers (s.workers w))
    (hw : s'.workers = Function.update s.workers w W)
    (hfib : s'.fibers = Function.update s.fibers f F) (hnext : s'.nextFiber = s.nextFiber)
    (hfunc : W.funcFiber = (s.workers w).funcFiber) (hW : W.hands = none)
    (hrest : F.Resting) (hok : Spare s'.fibers W → WorkerOk s'.fibers W) : Hands s' := by
  have hWowns : ∀ g, W.Owns g → (s.workers w).funcFiber = some g := by
    intro g hg
    simpa [Worker.Owns, hW, hfunc] using hg
  refine h.touch_owned (.inl hhands) hw hfib hnext (fun g hg => .inr (hWowns g hg)) ?_
    (fun _ => hrest) ?_
  · refine hok fun g hg => ?_
    have hg' : (s.workers w).funcFiber = some g := hfunc ▸ hg
    have hgf : g ≠ f := by
      rintro rfl
      exact hne hg'
    simpa [hfib, hgf] using hspare g hg'
  · intro g hgf hg hng
    rw [Worker.Owns, hW, hfunc] at hng
    rcases hg with hg | hg
    · rw [hhands] at hg
      exact absurd (Option.some.inj hg).symm hgf
    · exact absurd (.inr hg) hng

/-- A worker puts down the fiber it kept as `func_fiber`, and the fiber rests. -/
theorem Hands.put_down_func (h : Hands s) {W : Worker} {F : SFiber} {st : Stage}
    (hpc : (s.workers w).pc = .exec .func f st)
    (hw : s'.workers = Function.update s.workers w W)
    (hfib : s'.fibers = Function.update s.fibers f F) (hnext : s'.nextFiber = s.nextFiber)
    (hfunc : W.funcFiber = none) (hpc' : W.pc = .top) (hrest : F.Resting) : Hands s' := by
  have hWowns : ∀ g, ¬W.Owns g := by
    intro g
    simp [Worker.Owns, Worker.hands, hpc', hfunc]
  have hsame : ∀ g, (s.workers w).Owns g → g = f := by
    intro g hg
    have hok := h.ok w
    unfold WorkerOk at hok
    rw [hpc] at hok
    rcases hg with hg | hg
    · simpa [Worker.hands, hpc, eq_comm] using hg
    · rw [hok.2] at hg
      exact (Option.some.inj hg).symm
  refine h.touch_owned (owns_exec hpc) hw hfib hnext (fun g hg => absurd hg (hWowns g)) ?_
    (fun _ => hrest) ?_
  · unfold WorkerOk
    rw [hpc']
    intro g hg
    rw [hfunc] at hg
    cases hg
  · intro g hgf hg _
    exact absurd (hsame g hg) hgf

/-- A worker is left with `f` alone, which no other worker has, and had nothing else before. -/
theorem Hands.settle (h : Hands s) {W : Worker} {F : SFiber}
    (hf : ∀ w', w' ≠ w → ¬(s.workers w').Owns f) (hold : ∀ g, (s.workers w).Owns g → g = f)
    (hw : s'.workers = Function.update s.workers w W)
    (hfib : s'.fibers = Function.update s.fibers f F) (hnext : s.nextFiber ≤ s'.nextFiber)
    (hlt : f < s'.nextFiber) (hown : ∀ g, W.Owns g ↔ g = f)
    (hok : WorkerOk (Function.update s.fibers f F) W) : Hands s' := by
  have hself : s'.workers w = W := by simp [hw]
  refine h.touch (w := w) (f := f) ⟨?_, ?_, hnext⟩ hf ?_ ?_ ?_ ?_ fun _ => hlt
  · intro w' hw'
    simp [hw, hw']
  · intro g hg
    simp [hfib, hg]
  · intro g hg ho
    rw [hself] at ho
    exact absurd ((hown g).mp ho) hg
  · rw [hself, hfib]
    exact hok
  · intro hn
    rw [hself] at hn
    exact absurd ((hown f).mpr rfl) hn
  · intro g hg ho _
    exact absurd (hold g ho) hg

/-- A fiber that left its segment as `c` says and was saved there rests. -/
theorem resting_of_endState {F : SFiber} {c : FCtx} (he : EndState c F.state)
    (hsaved : F.saved = true) (hctx : F.ctx = c) : F.Resting := by
  refine ⟨hsaved, ?_⟩
  cases c with
  | entry => exact he.elim
  | suspended b =>
    rcases FiberState.yielded_iff.mp he with hs | hs <;> rw [hs] <;> exact ⟨b, hctx⟩
  | finished =>
    rcases FiberState.ended_iff.mp he with hs | hs <;> rw [hs] <;> exact hctx

theorem endState_ne_other {c : FCtx} {st : FiberState} (he : EndState c st)
    (hy : st.yielded = false) (hn : st.ended = false) : False := by
  cases c with
  | entry => exact he
  | suspended b => rw [EndState, hy] at he; cases he
  | finished => rw [EndState, hn] at he; cases he

theorem Hands.take (h : Hands s) {e : Entry} (hpc : (s.workers w).pc = .top)
    (hfree : ∀ f, e.job.fiberId = some f → ∀ w', ¬(s.workers w').Owns f)
    (hw : s'.workers = Function.update s.workers w
      { s.workers w with ft := some e, pc := .dispatch })
    (hfib : s'.fibers = s.fibers) (hnext : s'.nextFiber = s.nextFiber)
    (hlt : ∀ f, e.job.fiberId = some f → f < s.nextFiber) : Hands s' := by
  have hself : s'.workers w = { s.workers w with ft := some e, pc := .dispatch } := by simp [hw]
  have hspare : Spare s.fibers (s.workers w) := (h.ok w).spare (by simp [hpc])
  cases hj : e.job.fiberId with
  | none =>
    refine h.between (by simp [hpc]) (by simp [Worker.hands, hpc]) hw hfib hnext rfl
      (by simp [Worker.hands, hj]) fun hs => ⟨hs, ?_⟩
    intro e' f he' hf
    obtain rfl := Option.some.inj he'
    rw [hj] at hf
    cases hf
  | some f =>
    have hown : ∀ g, (s'.workers w).Owns g ↔ g = f ∨ (s.workers w).funcFiber = some g := by
      intro g
      simp [hself, Worker.Owns, Worker.hands, hj, eq_comm]
    refine h.touch (w := w) (f := f) ⟨fun w' hw' => by simp [hw, hw'], fun g _ => by rw [hfib],
      Nat.le_of_eq hnext.symm⟩ (fun w' _ => hfree f hj w') ?_ ?_ ?_ ?_ ?_
    · intro g hg ho
      exact .inr (((hown g).mp ho).resolve_left hg)
    · rw [hself, hfib]
      refine ⟨hspare, fun e' f' he' hf' => ?_⟩
      obtain rfl := Option.some.inj he'
      rw [hj] at hf'
      obtain rfl := Option.some.inj hf'
      exact ⟨h.rest (hfree f hj), fun hc => hfree f hj w (.inr hc)⟩
    · intro hn
      exact absurd ((hown f).mpr (.inl rfl)) hn
    · intro g hg ho hno
      rcases ho with ho | ho
      · simp [Worker.hands, hpc] at ho
      · exact absurd ((hown g).mpr (.inr ho)) hno
    · intro _
      rw [hnext]
      exact hlt f hj

/-- Every fiber named in a queue exists. -/
def QueueBound (s : State) : Prop :=
  ∀ i, ∀ e ∈ s.queue i, ∀ f, e.job.fiberId = some f → f < s.nextFiber

/-- **A worker's move keeps `Hands`**, provided that the fiber it takes is in nobody's hands. -/
theorem Hands.runMove (h : Hands s) (hq : QueueBound s) (htake : TakesFree s (.run w))
    (hm : RunMove s w s') : Hands s' := by
  have hok := h.ok w
  cases hm with
  | take hpc hf =>
    refine h.take hpc (htake hpc _ _ hf) rfl rfl rfl fun f he => ?_
    exact hq _ _ (takeFirst_mem hf) f he
  | noEntry hpc hf =>
    refine h.between (by simp [hpc]) (by simp [Worker.hands, hpc]) rfl rfl rfl rfl
      (by simp [Worker.hands]) fun hs => ⟨hs, ?_⟩
    intro e f he
    cases he
  | @dropEnded f k t b hpc hft he =>
    unfold WorkerOk at hok
    rw [hpc] at hok
    obtain ⟨hrest, hne⟩ := hok.2 _ f hft rfl
    refine h.put_down (f := f) (F := s.fibers f) ?_ hne hok.1 rfl (by simp) rfl rfl
      (by simp [Worker.hands, Worker.goto]) hrest fun hs => hs
    simp [Worker.hands, hpc, hft, Job.fiberId]
  | @enterFiber f k t b hpc hft he =>
    unfold WorkerOk at hok
    rw [hpc] at hok
    obtain ⟨hrest, hne⟩ := hok.2 _ f hft rfl
    have hown : ∀ g, ((s.workers w).goto (.exec .ft f .enter)).Owns g ↔ (s.workers w).Owns g := by
      intro g
      simp [Worker.Owns, Worker.hands, Worker.goto, hpc, hft, Job.fiberId]
    refine h.touch_worker (w := w) rfl rfl (fun w' hw' => by simp [hw']) ?_ ?_ ?_
    · intro g hg
      exact (hown g).mp (by simpa using hg)
    · simp only [State.setWorker_workers, Function.update_self]
      exact ⟨⟨hrest, he⟩, hok.1, hne, _, hft, rfl⟩
    · intro g hg hng
      exact absurd (by simpa using (hown g).mpr hg) hng
  | @reuseFunc k t b f F hpc hft hf hF =>
    obtain ⟨-, rfl⟩ := Fiber.reset_eq_some_iff.mp hF
    have howns : (s.workers w).Owns f := .inr hf
    refine h.settle (f := f) (fun w' hw' ho => hw' (h.excl ho howns)) ?_ rfl rfl (Nat.le_refl _)
      (h.bound howns) ?_ ⟨?_, hf⟩
    · intro g ho
      rcases ho with ho | ho
      · simp [Worker.hands, hpc, hft, Job.fiberId] at ho
      · rw [hf] at ho
        exact (Option.some.inj ho).symm
    · intro g
      simp [Worker.Owns, Worker.hands, hf, eq_comm]
    · simp only [Function.update_self]
      exact ⟨Fiber.resting_construct _ _, rfl⟩
  | @newFunc k t b hpc hft hf =>
    refine h.settle (f := s.nextFiber) (fun w' _ ho => Nat.lt_irrefl _ (h.bound ho)) ?_ rfl rfl
      (Nat.le_succ _) (Nat.lt_succ_self _) ?_ ⟨?_, rfl⟩
    · intro g ho
      rcases ho with ho | ho
      · simp [Worker.hands, hpc, hft, Job.fiberId] at ho
      · rw [hf] at ho
        cases ho
    · intro g
      simp [Worker.Owns, Worker.hands, eq_comm]
    · simp only [Function.update_self]
      exact ⟨Fiber.resting_construct _ _, rfl⟩
  | leave hpc hft hi =>
    refine h.between (W := (s.workers w).goto .left) (by simp [hpc])
      (by simp [Worker.hands, hpc, hft]) ?_ ?_ ?_ rfl (by simp [Worker.hands, Worker.goto])
      fun hs => hs
    all_goals simp
  | toIdle hpc hft hi =>
    exact h.between (by simp [hpc]) (by simp [Worker.hands, hpc, hft]) rfl rfl rfl rfl
      (by simp [Worker.hands, Worker.goto]) fun hs => hs
  | drop hpc =>
    exact h.between (by simp [hpc]) (by simp [Worker.hands, hpc]) rfl rfl rfl rfl
      (by simp [Worker.hands, Worker.goto]) fun hs => hs
  | begin hpc hctx hk => exact h.next_stage hpc rfl rfl rfl ⟨rfl, rfl⟩
  | beginEmpty hpc hctx hk => exact h.next_stage hpc rfl rfl rfl ⟨rfl, rfl⟩
  | resume hpc hctx => exact h.next_stage hpc rfl rfl rfl ⟨rfl, rfl⟩
  | hold hpc he =>
    exact h.next_stage hpc rfl rfl rfl ⟨rfl, (hok.stage hpc).2⟩
  | save hpc _ => exact h.next_stage hpc rfl rfl rfl ⟨(hok.stage hpc).1, rfl, rfl⟩
  | saveBack hpc _ _ => exact h.next_stage hpc rfl rfl rfl ⟨(hok.stage hpc).1, rfl, rfl⟩
  | @decr v f c hpc =>
    have hst := hok.stage hpc
    exact h.next_stage (F := s.fibers f) hpc rfl (by simp [State.decActive]) rfl hst
  | @keep v f c hpc hy =>
    have hst := hok.stage hpc
    exact h.next_stage (F := s.fibers f) hpc rfl (by simp) rfl ⟨hy, hst⟩
  | @endFiber f c hpc he =>
    obtain ⟨hc, hsaved, hctx⟩ := hok.stage hpc
    unfold WorkerOk at hok
    rw [hpc] at hok
    exact h.put_down (f := f) (F := s.fibers f) (by simp [Worker.hands, hpc]) hok.2.2.1 hok.2.1
      rfl (by simp) rfl rfl (by simp [Worker.hands]) (resting_of_endState hc hsaved hctx)
      fun hs => hs
  | @endFunc f c hpc he =>
    have hf : (s.workers w).funcFiber = some f := by
      unfold WorkerOk at hok
      rw [hpc] at hok
      exact hok.2
    have howns : (s.workers w).Owns f := owns_exec hpc
    refine h.settle (f := f) (fun w' hw' ho => hw' (h.excl ho howns)) ?_ rfl rfl (Nat.le_refl _)
      (h.bound howns) ?_ ?_
    · intro g ho
      rcases ho with ho | ho
      · simp only [Worker.hands, hpc] at ho
        exact (Option.some.inj ho).symm
      · rw [hf] at ho
        exact (Option.some.inj ho).symm
    · intro g
      simp [Worker.Owns, Worker.hands, Worker.goto, hf, eq_comm]
    · intro g hg
      obtain rfl : g = f := Option.some.inj (hg.symm.trans hf)
      simp [Fiber.construct]
  | lostFiber hpc hy he => exact (endState_ne_other (hok.stage hpc).1 hy he).elim
  | lostFunc hpc hy he => exact (endState_ne_other (hok.stage hpc).1 hy he).elim
  | @requeueFiber f c hpc =>
    obtain ⟨-, hc, hsaved, hctx⟩ := hok.stage hpc
    unfold WorkerOk at hok
    rw [hpc] at hok
    exact h.put_down (f := f) (F := s.fibers f) (by simp [Worker.hands, hpc]) hok.2.2.1 hok.2.1
      rfl (by simp) rfl rfl (by simp [Worker.hands]) (resting_of_endState hc hsaved hctx)
      fun hs => hs
  | @requeueFunc f c hpc =>
    obtain ⟨-, hc, hsaved, hctx⟩ := hok.stage hpc
    exact h.put_down_func (f := f) (F := s.fibers f) hpc rfl (by simp) rfl rfl rfl
      (resting_of_endState hc hsaved hctx)
  | idleInc hpc =>
    exact h.between (by simp [hpc]) (by simp [Worker.hands, hpc]) rfl rfl rfl rfl
      (by simp [Worker.hands, Worker.goto]) fun hs => hs
  | idleIn hpc =>
    exact h.between (by simp [hpc]) (by simp [Worker.hands, hpc]) rfl rfl rfl rfl
      (by simp [Worker.hands]) fun hs => hs
  | idleStop hpc _ =>
    exact h.between (by simp [hpc]) (by simp [Worker.hands, hpc]) rfl rfl rfl rfl
      (by simp [Worker.hands]) fun hs => hs
  | idleWait hpc _ =>
    exact h.between (by simp [hpc]) (by simp [Worker.hands, hpc]) rfl rfl rfl rfl
      (by simp [Worker.hands]) fun hs => hs
  | idleDec hpc =>
    exact h.between (by simp [hpc]) (by simp [Worker.hands, hpc]) rfl rfl rfl rfl
      (by simp [Worker.hands]) fun hs => hs

/-! ### Every move -/

theorem QueueBound.runMove (h : Hands s) (hq : QueueBound s) (hm : RunMove s w s')
    (hnext : s.nextFiber ≤ s'.nextFiber) : QueueBound s' := by
  intro i e he g hg
  rcases hm.mem_queue he with hold | ⟨v, f, c, hpc, -, rfl⟩
  · exact Nat.lt_of_lt_of_le (hq i e hold g hg) hnext
  · obtain rfl := Option.some.inj hg
    exact Nat.lt_of_lt_of_le (h.bound (owns_exec hpc)) hnext

theorem RunMove.nextFiber_le (hm : RunMove s w s') : s.nextFiber ≤ s'.nextFiber := by
  cases hm with
  | newFunc => exact Nat.le_succ _
  | leave => exact Nat.le_of_eq (by simp)
  | _ => exact Nat.le_refl _

theorem Hands.accept (h : Hands s) (i : SchedId) (sp : Spawn) (t : Int) :
    Hands (s.accept i sp t) := by
  have hfresh : ∀ w, ¬(s.workers w).Owns s.nextFiber :=
    fun w ho => Nat.lt_irrefl _ (h.bound ho)
  refine h.touch (w := 0) (f := s.nextFiber)
    ⟨fun w' _ => by rw [accept_workers], fun g hg => accept_fibers s i sp t hg,
      accept_nextFiber s i sp t⟩ (fun w' _ => hfresh w') ?_ ?_ ?_ ?_ ?_
  · intro g _ ho
    rwa [accept_workers] at ho
  · rw [accept_workers]
    refine (h.ok 0).congr fun g hg => accept_fibers s i sp t ?_
    rintro rfl
    exact hfresh 0 hg
  · intro _
    cases sp with
    | func => exact h.rest hfresh
    | fiber uc =>
      rw [accept_fiber_new]
      exact Fiber.resting_construct _ _
  · intro g _ hg hng
    rw [accept_workers] at hng
    exact absurd hg hng
  · intro ho
    rw [accept_workers] at ho
    exact absurd ho (hfresh 0)

theorem QueueBound.accept (hq : QueueBound s) (i : SchedId) (sp : Spawn) (t : Int) :
    QueueBound (s.accept i sp t) := by
  intro j e he g hg
  rcases mem_of_mem_accept s i sp t he with he | ⟨-, rfl⟩
  · exact Nat.lt_of_lt_of_le (hq j e he g hg) (accept_nextFiber s i sp t)
  · cases sp with
    | func => cases hg
    | fiber uc =>
      obtain rfl := Option.some.inj hg
      exact Nat.lt_succ_self _

theorem QueueBound.push (hq : QueueBound s) {i : SchedId} {e : Entry}
    (he : ∀ f, e.job.fiberId = some f → f < s.nextFiber) : QueueBound (s.push i e) := by
  intro j e' he' g hg
  rcases State.mem_of_mem_push _ _ _ _ he' with he' | ⟨-, rfl⟩
  · exact hq j e' he' g hg
  · exact he g hg

theorem QueueBound.of_eq (hq : QueueBound s) (hqueue : s'.queue = s.queue)
    (hnext : s'.nextFiber = s.nextFiber) : QueueBound s' := by
  intro i e he
  rw [hqueue] at he
  rw [hnext]
  exact hq i e he

/-- `Hands`, for the fibers in the queues too. -/
structure Exclusive (s : State) : Prop extends Hands s where
  queued : QueueBound s

theorem Exclusive.runMove (h : Exclusive s) (htake : TakesFree s (.run w))
    (hm : RunMove s w s') : Exclusive s' where
  toHands := h.toHands.runMove h.queued htake hm
  queued := h.queued.runMove h.toHands hm hm.nextFiber_le

theorem Exclusive.accept (h : Exclusive s) (i : SchedId) (sp : Spawn) (t : Int) :
    Exclusive (s.accept i sp t) :=
  ⟨h.toHands.accept i sp t, h.queued.accept i sp t⟩

theorem Exclusive.acceptAll (h : Exclusive s) (i : SchedId) (sps : List Spawn) :
    Exclusive (s.acceptAll i sps) :=
  acceptAll_induction s i sps h fun _ sp h => h.accept i sp (-1)

@[simp] theorem rehome_fibers (s : State) (f : FiberId) (i : SchedId) :
    (s.rehome f i).fibers = s.fibers := by
  unfold State.rehome
  split <;> rfl

@[simp] theorem rehome_workers (s : State) (f : FiberId) (i : SchedId) :
    (s.rehome f i).workers = s.workers := by
  unfold State.rehome
  split <;> rfl

@[simp] theorem rehome_nextFiber (s : State) (f : FiberId) (i : SchedId) :
    (s.rehome f i).nextFiber = s.nextFiber := by
  unfold State.rehome
  split <;> rfl

@[simp] theorem rehome_queue (s : State) (f : FiberId) (i : SchedId) :
    (s.rehome f i).queue = s.queue := by
  unfold State.rehome
  split <;> rfl

@[simp] theorem finishTask_fibers (s : State) (f : FiberId) :
    (s.finishTask f).fibers = s.fibers := by
  unfold State.finishTask
  split <;> rfl

@[simp] theorem finishTask_workers (s : State) (f : FiberId) :
    (s.finishTask f).workers = s.workers := by
  unfold State.finishTask
  split <;> rfl

@[simp] theorem finishTask_nextFiber (s : State) (f : FiberId) :
    (s.finishTask f).nextFiber = s.nextFiber := by
  unfold State.finishTask
  split <;> rfl

@[simp] theorem finishTask_queue (s : State) (f : FiberId) :
    (s.finishTask f).queue = s.queue := by
  unfold State.finishTask
  split <;> rfl

theorem Exclusive.bodyMove (h : Exclusive s) {v : Via} {a : Action}
    (hpc : (s.workers w).pc = .exec v f .running) (hm : BodyMove s w v f a s') :
    Exclusive s' := by
  have hst := (h.ok w).stage hpc
  have hend : ∀ {F : SFiber}, StageOk F (.leaving .finished) →
      Exclusive ((s.finishTask f).leaveBody w v f F .finished) := by
    intro F hF
    refine ⟨h.toHands.next_stage hpc ?_ ?_ ?_ hF, h.queued.of_eq ?_ ?_⟩ <;> simp [State.leaveBody]
  cases hm with
  | schedule => exact h.accept _ _ _
  | scheduleAll => exact h.acceptAll _ _
  | self =>
    exact ⟨h.toHands.touch_none rfl rfl rfl,
      h.queued.push fun g hg => Option.some.inj hg ▸ h.bound (owns_exec hpc)⟩
  | stay => exact ⟨h.toHands.touch_none rfl rfl rfl, h.queued.of_eq rfl rfl⟩
  | @go _ l sw _ _ =>
    refine ⟨h.toHands.next_stage (F := s.fibers f) hpc (by simp) (by simp) (by simp)
      (show StageOk (s.fibers f) (.switching sw) from hst), ?_⟩
    refine QueueBound.of_eq (QueueBound.push (QueueBound.of_eq h.queued ?_ ?_) ?_) rfl rfl
    · simp
    · simp
    · intro g hg
      rw [rehome_nextFiber]
      exact Option.some.inj hg ▸ h.bound (owns_exec hpc)
  | @yield _ st hy he =>
    exact ⟨h.toHands.next_stage hpc rfl rfl rfl ⟨hy, hst.2⟩, h.queued.of_eq rfl rfl⟩
  | ret => exact hend ⟨rfl, hst.2⟩
  | throw => exact hend ⟨rfl, hst.2⟩

/-- A thread that `start()` launches owns nothing, and took the place of one that owned nothing. -/
theorem Exclusive.launch (h : Exclusive s) {i : SchedId} {ws : List ThreadId}
    (habsent : ∀ w ∈ ws, ∀ f, ¬(s.workers w).Owns f)
    (hw : s'.workers = fun w => if w ∈ ws then Worker.fresh i false else s.workers w)
    (hfib : s'.fibers = s.fibers) (hnext : s'.nextFiber = s.nextFiber)
    (hqueue : s'.queue = s.queue) : Exclusive s' := by
  have hown : ∀ w f, (s'.workers w).Owns f ↔ (s.workers w).Owns f := by
    intro w f
    by_cases hmem : w ∈ ws
    · simp only [hw, hmem, if_true]
      constructor
      · intro ho
        rcases ho with ho | ho <;> cases ho
      · intro ho
        exact absurd ho (habsent w hmem f)
    · simp [hw, hmem]
  refine ⟨⟨?_, ?_, ?_, ?_⟩, h.queued.of_eq hqueue hnext⟩
  · intro w w' f h₁ h₂
    exact h.excl ((hown w f).mp h₁) ((hown w' f).mp h₂)
  · intro w
    by_cases hmem : w ∈ ws
    · simp only [hw, hmem, if_true]
      intro f hf
      cases hf
    · simp only [hw, hmem, if_false, hfib]
      exact h.ok w
  · intro f hf
    rw [hfib]
    exact h.rest fun w ho => hf w ((hown w f).mpr ho)
  · intro w f ho
    rw [hnext]
    exact h.bound ((hown w f).mp ho)

theorem Hands.absent_owns (h : Hands s) (hpc : (s.workers w).pc = .absent) (f : FiberId) :
    ¬(s.workers w).Owns f := by
  have hok := h.ok w
  unfold WorkerOk at hok
  rw [hpc] at hok
  simp [Worker.Owns, Worker.hands, hpc, hok]

/-- **Every move keeps the exclusive hands**, provided that the fiber taken is in nobody's. -/
theorem Exclusive.step {l : Label} (h : Exclusive s) (htake : TakesFree s l)
    (hs : step s l = some s') : Exclusive s' := by
  cases move_of_step hs with
  | run _ hm => exact h.runMove htake hm
  | body _ hpc hm => exact h.bodyMove hpc hm
  | schedule => exact h.accept _ _ _
  | scheduleAll => exact h.acceptAll _ _
  | reschedule hf =>
    exact ⟨h.toHands.touch_none rfl rfl rfl, h.queued.push fun g hg => Option.some.inj hg ▸ hf⟩
  | startAgain => exact h
  | @launch i ws _ _ _ _ _ habs =>
    have hown : ∀ w ∈ ws, ∀ f, ¬(s.workers w).Owns f := fun w hw => h.absent_owns (habs w hw)
    exact h.launch (i := i) hown rfl rfl rfl (State.setSched_queue_eq s i _ rfl)
  | stop _ hm | owner _ hm =>
    obtain ⟨S, rfl, -⟩ := hm.frame
    exact ⟨h.toHands.touch_none rfl rfl rfl, h.queued.of_eq hm.queue rfl⟩

theorem init_workers (u : Setup) (w : ThreadId) :
    u.init.workers w = Worker.absent ∨ ∃ i, u.init.workers w = Worker.fresh i true := by
  unfold Setup.init
  dsimp only
  split
  · exact .inr ⟨_, rfl⟩
  · exact .inl rfl

theorem init_owns (u : Setup) (w : ThreadId) (f : FiberId) : ¬(u.init.workers w).Owns f := by
  rcases init_workers u w with hw | ⟨i, hw⟩ <;> rw [hw] <;> intro ho <;> rcases ho with ho | ho <;>
    cases ho

theorem Exclusive.init (u : Setup) : Exclusive u.init where
  excl h := absurd h (init_owns u _ _)
  ok w := by
    rcases init_workers u w with hw | ⟨i, hw⟩ <;> rw [hw]
    · rfl
    · intro f hf
      cases hf
  rest _ := Fiber.resting_construct _ _
  bound h := absurd h (init_owns u _ _)
  queued i e he := by
    simp [State.queue, Setup.init, Sched.construct] at he

/-- The exclusive hands, in every run that takes only fibers in nobody's hands. -/
theorem Exclusive.reach {u : Setup} (h : Reach Scheduler.step TakesFree u.init s) : Exclusive s :=
  h.invariant (Exclusive.init u) fun hI hP hs => hI.step hP hs

/-- A fiber is executed by one worker at most. -/
theorem Hands.executes_unique (h : Hands s) {w w' : ThreadId} (hw : s.Executes w f)
    (hw' : s.Executes w' f) : w = w' := by
  obtain ⟨v, st, hpc, -⟩ := hw
  obtain ⟨v', st', hpc', -⟩ := hw'
  exact h.excl (owns_exec hpc) (owns_exec hpc')

/-! ### What a move leaves alone -/

/-- The worker that a label moves. -/
def Label.worker : Label → Option ThreadId
  | .run w | .body w _ => some w
  | _ => none

/-- A worker writes to its own fibers, and to the ones it makes. -/
theorem RunMove.fiber_frame (hm : RunMove s w s') (g : FiberId) :
    s'.fibers g = s.fibers g ∨ (s.workers w).Owns g ∨ g = s.nextFiber := by
  have hone : ∀ {f F}, (s.workers w).Owns f →
      (s.setFiber f F).fibers g = s.fibers g ∨ (s.workers w).Owns g ∨ g = s.nextFiber := by
    intro f F ho
    by_cases e : g = f
    · exact .inr (.inl (e ▸ ho))
    · exact .inl (by simp [e])
  cases hm with
  | reuseFunc hpc hft hf _ => exact hone (.inr hf)
  | newFunc =>
    by_cases e : g = s.nextFiber
    · exact .inr (.inr e)
    · exact .inl (by simp [e])
  | leave => exact .inl (by simp)
  | begin hpc _ _ | beginEmpty hpc _ _ | resume hpc _ | hold hpc _ | save hpc _ | saveBack hpc _ _
    | endFunc hpc _ | lostFiber hpc _ _ | lostFunc hpc _ _ => exact hone (owns_exec hpc)
  | take | noEntry | dropEnded | enterFiber | toIdle | drop | decr | keep | endFiber | requeueFiber
    | requeueFunc | idleInc | idleIn | idleStop | idleWait | idleDec => exact .inl rfl

theorem acceptAll_frame (s : State) (i : SchedId) (sps : List Spawn) :
    (s.acceptAll i sps).workers = s.workers ∧ s.nextFiber ≤ (s.acceptAll i sps).nextFiber ∧
      ∀ g, g < s.nextFiber → (s.acceptAll i sps).fibers g = s.fibers g := by
  refine acceptAll_induction (I := fun t => t.workers = s.workers ∧ s.nextFiber ≤ t.nextFiber ∧
    ∀ g, g < s.nextFiber → t.fibers g = s.fibers g) s i sps ⟨rfl, Nat.le_refl _, fun _ _ => rfl⟩ ?_
  rintro t sp ⟨hw, hn, hg⟩
  refine ⟨(accept_workers t i sp (-1)).trans hw, Nat.le_trans hn (accept_nextFiber t i sp (-1)), ?_⟩
  intro g hlt
  rw [accept_fibers t i sp (-1) (Nat.ne_of_lt (Nat.lt_of_lt_of_le hlt hn))]
  exact hg g hlt

theorem BodyMove.frame {v : Via} {a : Action} (hm : BodyMove s w v f a s') {w' : ThreadId}
    {g : FiberId} (hw : w' ≠ w) (hg : g ≠ f) (hlt : g < s.nextFiber) :
    s'.workers w' = s.workers w' ∧ s'.fibers g = s.fibers g := by
  cases hm with
  | schedule =>
    rw [accept_workers]
    exact ⟨rfl, accept_fibers _ _ _ _ (Nat.ne_of_lt hlt)⟩
  | scheduleAll =>
    obtain ⟨hws, -, hfs⟩ := acceptAll_frame s _ _
    exact ⟨by rw [hws], hfs g hlt⟩
  | self | stay => exact ⟨rfl, rfl⟩
  | go | yield | ret | throw => simp [State.leaveBody, hw, hg]

/-- **A move leaves the other workers alone**, and the fibers they have. -/
theorem Exclusive.step_other (h : Exclusive s) {l : Label} (hs : Scheduler.step s l = some s')
    {w' : ThreadId} {g : FiberId} (hl : l.worker ≠ some w') (ho : (s.workers w').Owns g) :
    s'.workers w' = s.workers w' ∧ s'.fibers g = s.fibers g := by
  have hlt : g < s.nextFiber := h.bound ho
  cases move_of_step hs with
  | @run w _ _ hm =>
    have hw : w' ≠ w := fun e => hl (e ▸ rfl)
    refine ⟨?_, ?_⟩
    · cases hm <;> simp [State.leaveBody, State.decActive, hw]
    · rcases hm.fiber_frame g with hg | hg | hg
      · exact hg
      · exact absurd (h.excl ho hg) hw
      · exact absurd hlt (by rw [hg]; exact Nat.lt_irrefl _)
  | @body w v f a _ _ hpc hm =>
    have hw : w' ≠ w := fun e => hl (e ▸ rfl)
    refine hm.frame hw ?_ hlt
    rintro rfl
    exact hw (h.excl ho (owns_exec hpc))
  | schedule =>
    rw [accept_workers]
    exact ⟨rfl, accept_fibers _ _ _ _ (Nat.ne_of_lt hlt)⟩
  | @scheduleAll i sps =>
    obtain ⟨hws, -, hfs⟩ := acceptAll_frame s i sps
    exact ⟨by rw [hws], hfs g hlt⟩
  | reschedule => exact ⟨rfl, rfl⟩
  | startAgain => exact ⟨rfl, rfl⟩
  | @launch i ws _ _ _ _ _ habs =>
    have hmem : w' ∉ ws := fun hmem => h.toHands.absent_owns (habs w' hmem) g ho
    simp [hmem]
  | stop _ hm | owner _ hm =>
    obtain ⟨S, rfl, -⟩ := hm.frame
    exact ⟨rfl, rfl⟩

end LioNet.Scheduler
