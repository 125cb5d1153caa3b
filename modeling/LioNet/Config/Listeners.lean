import LioNet.Lib.Tally
import LioNet.Config.Notify

/-!
# The listeners of a variable while it notifies them

`setValue` walks over `m_cbs` under the read lock.  `addListener` and `delListener` change `m_cbs`
under the write lock, so never during a walk.  `clearListener` changes it under the read lock: a
walk of another thread may be on its way, or begin in the middle of the clear, and so may another clear.

`Watched` is the machine of `Var.lean` with notes that the program does not keep: for each thread, the
listeners that were registered when its call took the read lock, and those it has called since.
`ClearsAlone` is the condition that excludes the overlap, and `Steady` the invariant of the runs that
meet it.
-/

namespace LioNet.ConfigVar

open LioNet.Lib

variable {T : Type}

structure Watched (T : Type) where
  state : State T
  /-- `m_cbs` when the thread's `setValue` took its lock -/
  registered : ThreadId → Finset ListenerId
  /-- the listeners it has called since, in order -/
  called : ThreadId → List ListenerId

def Watched.construct (defaultValue : T) (cbs : Finset ListenerId) (funId : Nat) : Watched T where
  state := .construct defaultValue cbs funId
  registered := fun _ => ∅
  called := fun _ => []

/-- Thread `t` begins a walk. -/
def Watched.enter (w : Watched T) (t : ThreadId) : Watched T :=
  { w with
    registered := Function.update w.registered t w.state.cbs
    called := Function.update w.called t [] }

/-- Thread `t` calls listener `k`. -/
def Watched.note (w : Watched T) (t : ThreadId) (k : ListenerId) : Watched T :=
  { w with called := Function.update w.called t (w.called t ++ [k]) }

def Label.thread : Label T → ThreadId
  | .call t _ | .move t => t

section Watch

variable [BEq T]

/-- The notes that a step adds. -/
def Watched.watch (w : Watched T) : Label T → Watched T
  | .call .. => w
  | .move t =>
    match w.state.phase t with
    | .setValue v => if v == w.state.val then w else w.enter t
    | .notify _ i =>
      match w.state.keys[i]? with
      | some k => w.note t k
      | none => w
    | _ => w

def watched (fromStr : String → Option T) (w : Watched T) (l : Label T) : Option (Watched T) :=
  (step fromStr w.state l).map fun s => { w.watch l with state := s }

end Watch

/-- The thread goes over `m_cbs` or looks something up in it; `m_cbs.clear()` goes over it too. -/
def Phase.reads : Phase T → Bool
  | .notify .. | .find _ | .clearing => true
  | _ => false

/-- The thread holds the read lock. -/
def Phase.locks : Phase T → Bool
  | .notify .. | .find _ | .clear | .clearing => true
  | _ => false

/-- A `setValue` that found a changed value has called the registered listeners up to where its walk
is, and when the walk is over it has called each of them once. -/
structure ToldAll (w : Watched T) : Prop where
  telling : ∀ t v i, w.state.phase t = .notify v i →
    w.called t = ((w.registered t).sort (· ≤ ·)).take i
  told : ∀ t v, w.state.phase t = .store v → w.called t = (w.registered t).sort (· ≤ ·)

/-- Nobody reads `m_cbs` while another thread is in the middle of clearing it, unless it was empty. -/
def Undisturbed (s : State T) : Prop :=
  ∀ t, s.phase t = .clearing → s.cbs ≠ ∅ → ∀ t', t' ≠ t → (s.phase t').reads = false

/-- `m_cbs` is not changed while another thread reads it, neither by the step nor across it. -/
structure Untouched (w : Watched T) (l : Label T) (w' : Watched T) : Prop where
  step : w'.state.cbs ≠ w.state.cbs → ∀ t, t ≠ l.thread → (w.state.phase t).reads = false
  across : Undisturbed w'.state

/-- The thread's next step is the first of a section that reads `m_cbs`. -/
def Watched.toRead [BEq T] (w : Watched T) (t : ThreadId) : Bool :=
  match w.state.phase t with
  | .setValue v => !(v == w.state.val)
  | .getListener _ => true
  | _ => false

/-- No clear of a non-empty `m_cbs` begins while another thread reads it, and nobody begins to read it
while another thread clears it. -/
def ClearsAlone [BEq T] (w : Watched T) (l : Label T) : Prop :=
  ∀ t, l = .move t → w.state.cbs ≠ ∅ → ∀ t', t' ≠ t →
    (w.state.phase t = .clear → (w.state.phase t').reads = false) ∧
      (w.toRead t = true → w.state.phase t' ≠ .clearing)

section Run

variable {w w' : Watched T} {t : ThreadId}

/-- What the notes of a thread say in the middle of its call. -/
def InStep (w : Watched T) (t : ThreadId) : Prop :=
  match w.state.phase t with
  | .notify _ i => w.registered t = w.state.cbs ∧ w.called t = w.state.keys.take i
  | .store _ => w.called t = (w.registered t).sort (· ≤ ·)
  | _ => True

structure Steady (w : Watched T) : Prop where
  readers : Tally (fun t => (w.state.phase t).locks) w.state.readers
  inStep : ∀ t, InStep w t
  alone : Undisturbed w.state

theorem reads_locks {p : Phase T} (h : p.locks = false) : p.reads = false := by
  cases p with
  | notify | find | clearing => cases h
  | _ => rfl

/-- One thread goes on: it reads only where nobody clears, and clears only where nobody reads. -/
theorem Undisturbed.goto {s s' : State T} {p : Phase T} (h : Undisturbed s)
    (hphase : s'.phase = Function.update s.phase t p)
    (hcbs : s'.cbs = s.cbs ∨ ∀ t', t' ≠ t → (s.phase t').reads = false)
    (hread : p.reads = true → s.cbs ≠ ∅ → ∀ t', t' ≠ t → s.phase t' ≠ .clearing)
    (hclear : p = .clearing → s.cbs ≠ ∅ → ∀ t', t' ≠ t → (s.phase t').reads = false) :
    Undisturbed s' := by
  intro t₁ ht₁ hne t' ht'
  rw [hphase] at ht₁ ⊢
  by_cases e : t₁ = t
  · subst e
    rw [Function.update_self] at ht₁
    rw [Function.update_of_ne ht']
    rcases hcbs with hcbs | hcbs
    · exact hclear ht₁ (hcbs ▸ hne) t' ht'
    · exact hcbs t' ht'
  · rw [Function.update_of_ne e] at ht₁
    rcases hcbs with hcbs | hcbs
    · rw [hcbs] at hne
      by_cases e' : t' = t
      · subst e'
        rw [Function.update_self]
        cases hp : p.reads with
        | false => rfl
        | true => exact absurd ht₁ (hread hp hne t₁ e)
      · rw [Function.update_of_ne e']
        exact h t₁ ht₁ hne t' ht'
    · -- who clears reads as well
      have hno := hcbs t₁ e
      rw [ht₁] at hno
      cases hno

/-- A thread that does not read keeps its notes in step, whatever happens to `m_cbs`. -/
theorem InStep.of_eq (h : InStep w t) (hp : w'.state.phase t = w.state.phase t)
    (hr : w'.registered t = w.registered t) (hc : w'.called t = w.called t)
    (hcbs : w'.state.cbs = w.state.cbs ∨ (w.state.phase t).reads = false) : InStep w' t := by
  unfold InStep at h ⊢
  rw [hp, hr, hc]
  cases hph : w.state.phase t with
  | notify v i =>
    rw [hph] at h hcbs
    rcases hcbs with hcbs | hcbs
    · unfold State.keys at h ⊢
      rw [hcbs]
      exact h
    · cases hcbs
  | store v =>
    rw [hph] at h
    exact h
  | _ => trivial

/-- **One thread moves.** -/
theorem Steady.move (h : Steady w)
    (hp : ∀ t', t' ≠ t → w'.state.phase t' = w.state.phase t')
    (hr : ∀ t', t' ≠ t → w'.registered t' = w.registered t')
    (hc : ∀ t', t' ≠ t → w'.called t' = w.called t')
    (hcbs : w'.state.cbs = w.state.cbs ∨ ∀ t', t' ≠ t → (w.state.phase t').reads = false)
    (hn : w'.state.readers =
      w.state.readers + (w'.state.phase t).locks.toNat - (w.state.phase t).locks.toNat)
    (ht : InStep w' t) (halone : Undisturbed w'.state) : Steady w' := by
  refine ⟨h.readers.move (fun t' hne => by rw [hp t' hne]) hn, fun t' => ?_, halone⟩
  by_cases e : t' = t
  · subst e
    exact ht
  · refine (h.inStep t').of_eq (hp t' e) (hr t' e) (hc t' e) ?_
    rcases hcbs with hcbs | hcbs
    · exact .inl hcbs
    · exact .inr (hcbs t' e)

/-- The thread's phase asks nothing of its notes. -/
def Phase.quiet : Phase T → Bool
  | .notify .. | .store _ => false
  | _ => true

/-- A call goes to a phase without the lock. -/
theorem called_quiet {p : Phase T} (h : p.called = true) : p.quiet = true ∧ p.locks = false := by
  cases p with
  | idle | notify | store | find | clear | clearing => cases h
  | _ => exact ⟨rfl, rfl⟩

theorem InStep.of_quiet (h : (w.state.phase t).quiet = true) : InStep w t := by
  unfold InStep
  cases hp : w.state.phase t with
  | notify | store =>
    rw [hp] at h
    cases h
  | _ => trivial

/-- A thread goes to a phase that asks nothing of its notes. -/
theorem Steady.pass (h : Steady w) {s' : State T} {p : Phase T}
    (hphase : s'.phase = Function.update w.state.phase t p) (hp : p.quiet = true)
    (hcbs : s'.cbs = w.state.cbs ∨ ∀ t', t' ≠ t → (w.state.phase t').reads = false)
    (hread : p.reads = true → w.state.cbs ≠ ∅ → ∀ t', t' ≠ t → w.state.phase t' ≠ .clearing)
    (hclear : p = .clearing → w.state.cbs ≠ ∅ → ∀ t', t' ≠ t → (w.state.phase t').reads = false)
    (hn : s'.readers = w.state.readers + p.locks.toNat - (w.state.phase t).locks.toNat) :
    Steady { w with state := s' } := by
  have hself : s'.phase t = p := by rw [hphase, Function.update_self]
  refine h.move (t := t) (fun t' hne => ?_) (fun _ _ => rfl) (fun _ _ => rfl) hcbs ?_ ?_
    (h.alone.goto hphase hcbs hread hclear)
  · show s'.phase t' = _
    rw [hphase, Function.update_of_ne hne]
  · show s'.readers = w.state.readers + (s'.phase t).locks.toNat - _
    rw [hself]
    exact hn
  · refine .of_quiet ?_
    show (s'.phase t).quiet = true
    rw [hself]
    exact hp

/-- A thread that does not read asks nothing of the others. -/
theorem Steady.leave (h : Steady w) {s' : State T} {p : Phase T}
    (hphase : s'.phase = Function.update w.state.phase t p) (hp : p.quiet = true) (hp' : p.reads = false)
    (hcbs : s'.cbs = w.state.cbs ∨ ∀ t', t' ≠ t → (w.state.phase t').reads = false)
    (hn : s'.readers = w.state.readers + p.locks.toNat - (w.state.phase t).locks.toNat) :
    Steady { w with state := s' } := by
  refine h.pass hphase hp hcbs (fun hr => ?_) (fun he => ?_) hn
  · rw [hp'] at hr
    cases hr
  · rw [he] at hp'
    cases hp'

/-- Nobody reads `m_cbs` while nobody holds the read lock. -/
theorem Steady.nobody (h : Steady w) (hr : w.state.readers = 0) (t : ThreadId) :
    (w.state.phase t).reads = false :=
  reads_locks (h.readers.eq_zero_iff.mp hr t)

variable [BEq T] {fromStr : String → Option T} {l : Label T}

theorem watched_cases (h : watched fromStr w l = some w') :
    (∃ t op, l = .call t op ∧ w.state.phase t = .idle ∧
      w' = { w with state := w.state.call fromStr t op }) ∨
    ∃ t s', l = .move t ∧ Move w.state t s' ∧ w' = { w.watch (.move t) with state := s' } := by
  obtain ⟨s', hs, he⟩ := Option.map_eq_some_iff.mp h
  rcases step_cases hs with ⟨t, op, hl, hidle, hs'⟩ | ⟨t, hl, hm⟩
  · subst hl hs'
    exact .inl ⟨t, op, rfl, hidle, he.symm⟩
  · subst hl
    exact .inr ⟨t, s', rfl, hm, he.symm⟩

/-- A move from a phase that adds no notes. -/
theorem watch_quiet {p : Phase T} (hp : w.state.phase t = p) (hset : ∀ v, p ≠ .setValue v)
    (hq : ∀ v i, p ≠ .notify v i) : w.watch (.move t) = w := by
  -- the two hypotheses rule out the other branches
  simp only [Watched.watch, hp]

/-- **A move keeps the notes in step**, unless it clears `m_cbs` under another thread's walk. -/
theorem Steady.watch {s' : State T} (h : Steady w) (hl : ClearsAlone w (.move t))
    (hm : Move w.state t s') : Steady { w.watch (.move t) with state := s' } := by
  have hin := h.inStep t
  unfold InStep at hin
  cases hm with
  | same hp hv =>
    have hw : w.watch (.move t) = w := by simp [Watched.watch, hp, hv]
    rw [hw]
    exact h.leave rfl rfl rfl (.inl rfl) (by simp [hp, Phase.locks])
  | enter hp hv =>
    have hw : w.watch (.move t) = w.enter t := by simp [Watched.watch, hp, hv]
    rw [hw]
    have hto : w.toRead t = true := by simp [Watched.toRead, hp, hv]
    refine h.move (t := t) (fun t' hne => by simp [State.rdlock, hne])
      (fun t' hne => by simp [Watched.enter, hne]) (fun t' hne => by simp [Watched.enter, hne])
      (.inl rfl) ?_ ?_ (h.alone.goto rfl (.inl rfl) (fun _ hne t' ht' => (hl t rfl hne t' ht').2 hto)
        fun hq => by cases hq)
    · simp [State.rdlock, hp, Phase.locks]
    · simp [InStep, Watched.enter, State.rdlock]
  | @tell v i k hp hk =>
    have hw : w.watch (.move t) = w.note t k := by simp [Watched.watch, hp, hk]
    rw [hw]
    rw [hp] at hin
    have hread : (w.state.phase t).reads = true := by rw [hp]; rfl
    refine h.move (t := t) (fun t' hne => by simp [State.tell, hne]) (fun _ _ => rfl)
      (fun t' hne => by simp [Watched.note, hne]) (.inl rfl) ?_ ?_
      (h.alone.goto rfl (.inl rfl) (fun _ hne t' ht' hclr => ?_) fun hq => by cases hq)
    · simp [State.tell, hp, Phase.locks]
    · have htake : w.called t ++ [k] = w.state.keys.take (i + 1) := by
        rw [hin.2, List.take_add_one, hk]
        rfl
      unfold InStep
      simp only [goto_phase, Function.update_self]
      exact ⟨hin.1, (Function.update_self ..).trans htake⟩
    · have hno := h.alone t' hclr hne t (Ne.symm ht')
      rw [hread] at hno
      cases hno
  | @told v i hp hk =>
    have hw : w.watch (.move t) = w := by simp [Watched.watch, hp, hk]
    rw [hw]
    rw [hp] at hin
    refine h.move (t := t) (fun t' hne => by simp [State.unlock, hne]) (fun _ _ => rfl)
      (fun _ _ => rfl) (.inl rfl) ?_ ?_
      (h.alone.goto rfl (.inl rfl) (fun hq => by cases hq) fun hq => by cases hq)
    · simp [State.unlock, hp, Phase.locks]
    · have hall : w.called t = w.state.keys := by
        rw [hin.2, List.take_of_length_le (List.getElem?_eq_none_iff.mp hk)]
      unfold InStep
      simp only [goto_phase, Function.update_self]
      rw [hin.1]
      exact hall
  | store hp _ | getValue hp =>
    rw [watch_quiet hp (by simp) (by simp)]
    exact h.leave rfl rfl rfl (.inl rfl) (by simp [hp, Phase.locks])
  | addListener hp hr | delListener hp hr =>
    rw [watch_quiet hp (by simp) (by simp)]
    exact h.leave rfl rfl rfl (.inr fun t' _ => h.nobody hr t') (by simp [hp, Phase.locks])
  | getListener hp =>
    rw [watch_quiet hp (by simp) (by simp)]
    have hto : w.toRead t = true := by simp [Watched.toRead, hp]
    exact h.pass rfl rfl (.inl rfl) (fun _ hne t' ht' => (hl t rfl hne t' ht').2 hto)
      (fun hq => by cases hq) (by simp [State.rdlock, hp, Phase.locks])
  | clearListener hp =>
    rw [watch_quiet hp (by simp) (by simp)]
    exact h.leave rfl rfl rfl (.inl rfl) (by simp [State.rdlock, hp, Phase.locks])
  | find hp =>
    rw [watch_quiet hp (by simp) (by simp)]
    exact h.leave rfl rfl rfl (.inl rfl) (by simp [State.unlock, hp, Phase.locks])
  | clear hp =>
    rw [watch_quiet hp (by simp) (by simp)]
    have hnobody : w.state.cbs ≠ ∅ → ∀ t', t' ≠ t → (w.state.phase t').reads = false :=
      fun hne t' ht' => (hl t rfl hne t' ht').1 hp
    refine h.pass rfl rfl (.inl rfl) (fun _ hne t' ht' hclr => ?_) (fun _ => hnobody)
      (by simp [hp, Phase.locks])
    have hno := hnobody hne t' ht'
    rw [hclr] at hno
    cases hno
  | clearing hp =>
    rw [watch_quiet hp (by simp) (by simp)]
    refine h.leave rfl rfl rfl ?_ (by simp [State.unlock, hp, Phase.locks])
    by_cases hempty : w.state.cbs = ∅
    · exact .inl hempty.symm
    · exact .inr (h.alone t hp hempty)

theorem Steady.step (h : Steady w) (hl : ClearsAlone w l) (hs : watched fromStr w l = some w') :
    Steady w' := by
  rcases watched_cases hs with ⟨t, op, -, hidle, rfl⟩ | ⟨t, s', rfl, hm, rfl⟩
  · rcases call_cases fromStr w.state t op with hc | ⟨p, hp, hc⟩
    · rw [hc]
      exact h
    · obtain ⟨hq, hlock⟩ := called_quiet hp
      have hbefore : (w.state.phase t).locks = false := by rw [hidle]; rfl
      rw [hc]
      exact h.leave rfl hq (reads_locks hlock) (.inl rfl) (by simp [hbefore, hlock])
  · exact h.watch hl hm

/-- A thread that begins to read goes to a phase that reads, and leaves `m_cbs` as it is. -/
theorem reads_of_toRead {s' : State T} (hm : Move w.state t s') (h : w.toRead t = true) :
    (s'.phase t).reads = true ∧ s'.cbs = w.state.cbs := by
  unfold Watched.toRead at h
  cases hm with
  | enter hp _ | getListener hp => simp [State.rdlock, Phase.reads]
  | same hp hv => simp [hp, hv] at h
  | tell hp _ | told hp _ | store hp _ | getValue hp | addListener hp _ | delListener hp _ | find hp
    | clearListener hp | clear hp | clearing hp => simp [hp] at h

/-- The write lock protects the readers, and a clear under the read lock does not. -/
theorem Steady.untouched_iff (h : Steady w) (hs : watched fromStr w l = some w') :
    Untouched w l w' ↔ ClearsAlone w l := by
  constructor
  · rintro hu t rfl hne t' ht'
    rcases watched_cases hs with ⟨_, _, hl, -, -⟩ | ⟨t₁, s', hl, hm, rfl⟩
    · cases hl
    obtain rfl : t = t₁ := by injection hl
    have hother : s'.phase t' = w.state.phase t' := by
      cases hm <;> simp [State.rdlock, State.unlock, State.tell, ht']
    constructor
    · intro hp
      have hs' : s' = w.state.goto t .clearing := by
        -- only the beginning of a clear leaves the phase `clear`
        cases hm <;> first | rfl | simp_all
      rw [← hother]
      refine hu.across t ?_ ?_ t' ht'
      · show s'.phase t = .clearing
        rw [hs', goto_phase, Function.update_self]
      · show s'.cbs ≠ ∅
        rwa [hs', goto_cbs]
    · intro hto hclr
      obtain ⟨hread, hcbs⟩ := reads_of_toRead hm hto
      have hno : (s'.phase t).reads = false :=
        hu.across t' (hother.trans hclr) (hcbs ▸ hne) t (Ne.symm ht')
      rw [hread] at hno
      cases hno
  · intro hl
    refine ⟨fun hne => ?_, (h.step hl hs).alone⟩
    rcases watched_cases hs with ⟨t, op, -, -, rfl⟩ | ⟨t, s', rfl, hm, rfl⟩
    · refine absurd ?_ hne
      rcases call_cases fromStr w.state t op with hc | ⟨p, -, hc⟩ <;> simp only [hc, goto_cbs]
    · cases hm with
      | addListener _ hr | delListener _ hr => exact fun t' _ => h.nobody hr t'
      | clearing hp => exact h.alone t hp fun hempty => hne hempty.symm
      | _ => exact absurd rfl hne

end Run

/-! ### A clear before and during a walk -/

/-- `ClearsAlone`, for the first `n` threads. -/
def ClearsAlone.check [BEq T] (n : Nat) (w : Watched T) : Label T → Bool
  | .call t _ => decide (t < n)
  | .move t =>
    w.state.cbs == ∅ || (List.range n).all fun t' => t' == t ||
      match w.state.phase t, w.state.phase t' with
      | .clear, p => !p.reads
      | _, .clearing => !w.toRead t
      | _, _ => true

theorem ClearsAlone.of_check [BEq T] {n : Nat} {fromStr : String → Option T} {w w' : Watched T}
    {l : Label T} (hf : Few n w.state) (h : ClearsAlone.check n w l = true)
    (hs : watched fromStr w l = some w') : ClearsAlone w l ∧ Few n w'.state := by
  obtain ⟨s', hs', rfl⟩ := Option.map_eq_some_iff.mp hs
  cases l with
  | call t op =>
    refine ⟨fun _ he => (by cases he), hf.step (fun t' op' he => ?_) hs'⟩
    injection he with he _
    rw [← he]
    simpa [ClearsAlone.check] using h
  | move t =>
    refine ⟨?_, hf.step (fun t' op' he => by cases he) hs'⟩
    rintro _ he hne t' hne'
    injection he with he
    subst he
    simp only [ClearsAlone.check, Bool.or_eq_true, beq_iff_eq, hne, false_or, List.all_eq_true,
      List.mem_range] at h
    by_cases ht : t' < n
    · have hpair := (h t' ht).resolve_left hne'
      constructor
      · intro hp
        rw [hp] at hpair
        simpa using hpair
      · intro hto hclr
        rw [hclr, hto] at hpair
        cases hp : w.state.phase t with
        | clear => simp [Watched.toRead, hp] at hto
        | _ => simp [hp] at hpair
    · rw [hf t' (Nat.le_of_not_lt ht)]
      exact ⟨fun _ => rfl, fun _ hq => by cases hq⟩

/-- Thread 1 notifies the listener that thread 0 has added, and thread 0 clears afterwards. -/
def clearAfter : List (Label Nat) :=
  [.call 0 .addListener, .move 0, .call 1 (.setValue 5), .call 0 .clearListener, .move 1, .move 1,
    .move 1, .move 0, .move 0, .move 0]

/-- Thread 1 clears between the lock of thread 0 and its first call. -/
def clearDuring : List (Label Nat) :=
  [.call 0 (.setValue 5), .move 0, .call 1 .clearListener, .move 1, .move 1, .move 1, .move 0]

end LioNet.ConfigVar
