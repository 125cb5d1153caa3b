import LioNet.Config.Var

/-!
# The ids of the listeners of several variables

`addListener` and `delListener` of `config.h`, called on any number of variables of one type.  Each
variable has its own lock and its own map, but the counter `s_fun_id` is a static of the member function,
so all these variables share it, and no lock orders the calls on different variables.

Here a call is not one step as in `Var.lean`: each access to the counter is a step of its own.  The
increment reads and writes it, the key of the callback is a second read, the value returned a third.

`Watched` is the machine with notes that the program does not keep: what each call of `addListener` has
returned, and which listeners have not been deleted by their id since.
-/

namespace LioNet.ConfigVars

open LioNet.Lib
open ConfigVar (ListenerId ThreadId)

abbrev VarId := Nat

variable {C : Type}

inductive Op (C : Type)
  | addListener (o : VarId) (cb : C)
  | delListener (o : VarId) (key : ListenerId)
  deriving DecidableEq, Repr

/-- `fetchId` and `leave` remember the key, which the program does not need any more. -/
inductive Phase (C : Type)
  /-- outside these functions -/
  | idle
  /-- `addListener(cb)` on `o`, its lock comes next -/
  | addListener (o : VarId) (cb : C)
  /-- `++s_fun_id`, its read comes next -/
  | fetch (o : VarId) (cb : C)
  /-- `++s_fun_id` has read `n`, its write comes next -/
  | bump (o : VarId) (cb : C) (n : Nat)
  /-- `m_cbs[s_fun_id] = cb`, the read of the key comes next -/
  | key (o : VarId) (cb : C)
  /-- the store under key `k` comes next -/
  | store (o : VarId) (cb : C) (k : ListenerId)
  /-- `return s_fun_id`, its read comes next -/
  | fetchId (o : VarId) (cb : C) (k : ListenerId)
  /-- `id` will be returned, the unlock comes next -/
  | leave (o : VarId) (cb : C) (k id : ListenerId)
  /-- `delListener(k)` on `o`, its lock comes next -/
  | delListener (o : VarId) (k : ListenerId)
  /-- `m_cbs.erase(k)` comes next -/
  | erase (o : VarId) (k : ListenerId)
  /-- the unlock of `delListener` comes next -/
  | release (o : VarId)
  deriving DecidableEq, Repr

structure State (C : Type) where
  /-- `s_fun_id` -/
  funId : Nat
  /-- who holds the write lock of a variable -/
  owner : VarId → Option ThreadId
  cbs : VarId → ListenerId → Option C
  phase : ThreadId → Phase C

inductive Label (C : Type)
  | call (t : ThreadId) (op : Op C)
  /-- the next access of thread `t` -/
  | move (t : ThreadId)
  deriving DecidableEq, Repr

def State.construct (C : Type) : State C where
  funId := 0
  owner := fun _ => none
  cbs := fun _ _ => none
  phase := fun _ => .idle

def State.goto (s : State C) (t : ThreadId) (p : Phase C) : State C :=
  { s with phase := Function.update s.phase t p }

def State.lock (s : State C) (o : VarId) (t : ThreadId) : State C :=
  { s with owner := Function.update s.owner o (some t) }

def State.unlock (s : State C) (o : VarId) : State C :=
  { s with owner := Function.update s.owner o none }

/-- `m_cbs[k] = cb`, or `m_cbs.erase(k)` for none. -/
def State.put (s : State C) (o : VarId) (k : ListenerId) (cb : Option C) : State C :=
  { s with cbs := Function.update s.cbs o (Function.update (s.cbs o) k cb) }

def State.call (s : State C) (t : ThreadId) : Op C → State C
  | .addListener o cb => s.goto t (.addListener o cb)
  | .delListener o k => s.goto t (.delListener o k)

/-- The next access of a thread.  The counter is a `uint64_t`. -/
def State.move (s : State C) (t : ThreadId) : Option (State C) :=
  match s.phase t with
  | .idle => none
  | .addListener o cb =>
    if s.owner o = none then some ((s.lock o t).goto t (.fetch o cb)) else none
  | .fetch o cb => some (s.goto t (.bump o cb s.funId))
  | .bump o cb n => some ({ s with funId := (n + 1) % 2 ^ 64 }.goto t (.key o cb))
  | .key o cb => some (s.goto t (.store o cb s.funId))
  | .store o cb k => some ((s.put o k (some cb)).goto t (.fetchId o cb k))
  | .fetchId o cb k => some (s.goto t (.leave o cb k s.funId))
  | .leave o _ _ _ => some ((s.unlock o).goto t .idle)
  | .delListener o k =>
    if s.owner o = none then some ((s.lock o t).goto t (.erase o k)) else none
  | .erase o k => some ((s.put o k none).goto t (.release o))
  | .release o => some ((s.unlock o).goto t .idle)

def step (s : State C) : Label C → Option (State C)
  | .call t op =>
    match s.phase t with
    | .idle => some (s.call t op)
    | _ => none
  | .move t => s.move t

/-! ### The notes -/

/-- A finished call of `addListener`: the callback was stored under `key`, and `id` was returned. -/
structure Listener (C : Type) where
  var : VarId
  cb : C
  key : ListenerId
  id : ListenerId
  deriving DecidableEq, Repr

structure Watched (C : Type) where
  state : State C
  /-- all listeners, in the order in which their calls returned -/
  added : List (Listener C)
  /-- those whose id has not been deleted since -/
  live : List (Listener C)

def Watched.construct (C : Type) : Watched C where
  state := .construct C
  added := []
  live := []

/-- A call returns. -/
def Watched.add (w : Watched C) (l : Listener C) : Watched C :=
  { w with added := w.added ++ [l], live := w.live ++ [l] }

/-- `delListener(k)` on `o`: the listener for which `k` was returned is to go. -/
def Watched.delete (w : Watched C) (o : VarId) (k : ListenerId) : Watched C :=
  { w with live := w.live.filter fun l => ¬(l.var = o ∧ l.id = k) }

def Watched.watch (w : Watched C) : Label C → Watched C
  | .call .. => w
  | .move t =>
    match w.state.phase t with
    | .leave o cb k id => w.add ⟨o, cb, k, id⟩
    | .erase o k => w.delete o k
    | _ => w

def watched (w : Watched C) (l : Label C) : Option (Watched C) :=
  (step w.state l).map fun s => { w.watch l with state := s }

/-! ### What the ids should be -/

/-- The callback that a call has stored and not yet returned for. -/
def Phase.placed : Phase C → Option (VarId × ListenerId × C)
  | .fetchId o cb k | .leave o cb k _ => some (o, k, cb)
  | _ => none

/-- Variable `o` should have `cb` under `k`: for a live listener, or for a call that is about to return. -/
def Watched.Stored (w : Watched C) (o : VarId) (k : ListenerId) (cb : C) : Prop :=
  (∃ l ∈ w.live, l.var = o ∧ l.id = k ∧ l.cb = cb) ∨ ∃ t, (w.state.phase t).placed = some (o, k, cb)

/-- **An id names its listener.** -/
structure Named (w : Watched C) : Prop where
  /-- what was returned is the key of the callback -/
  key : ∀ l ∈ w.added, l.id = l.key
  /-- two live listeners of one variable differ in their ids -/
  distinct : w.live.Pairwise fun l l' => l.var = l'.var → l.id ≠ l'.id
  /-- `addListener` overwrites nothing -/
  fresh : ∀ t o cb k, w.state.phase t = .store o cb k → w.state.cbs o k = none
  /-- a map holds the live listeners, each under its id, and nothing else -/
  held : ∀ o k cb, w.state.cbs o k = some cb ↔ w.Stored o k cb
  /-- `delListener` removes the listener for which the id was returned, and no other -/
  deletes : ∀ t o k w', w.state.phase t = .erase o k → watched w (.move t) = some w' →
    ∀ l ∈ w.live, w'.state.cbs l.var l.key = if l.var = o ∧ l.id = k then none else some l.cb

/-- The call has read the key of its callback and will read what it returns. -/
def Phase.between : Phase C → Bool
  | .store .. | .fetchId .. => true
  | _ => false

/-- A write of the counter does not turn it back, and does not change it between the last two reads of
another call. -/
def Undisturbed (w : Watched C) (l : Label C) : Prop :=
  ∀ t o cb n, l = .move t → w.state.phase t = .bump o cb n →
    w.state.funId ≤ n + 1 ∧ n + 1 < 2 ^ 64 ∧
      (w.state.funId = n + 1 ∨ ∀ t', (w.state.phase t').between = false)

/-! ### What a move can be -/

section Moves

variable {w w' : Watched C} {s : State C} {t : ThreadId}

inductive Move (w : Watched C) (t : ThreadId) : Watched C → Prop
  | lock {o : VarId} {cb : C} : w.state.phase t = .addListener o cb → w.state.owner o = none →
      Move w t { w with state := (w.state.lock o t).goto t (.fetch o cb) }
  | fetch {o : VarId} {cb : C} : w.state.phase t = .fetch o cb →
      Move w t { w with state := w.state.goto t (.bump o cb w.state.funId) }
  | bump {o : VarId} {cb : C} {n : Nat} : w.state.phase t = .bump o cb n →
      Move w t { w with state := { w.state with funId := (n + 1) % 2 ^ 64 }.goto t (.key o cb) }
  | key {o : VarId} {cb : C} : w.state.phase t = .key o cb →
      Move w t { w with state := w.state.goto t (.store o cb w.state.funId) }
  | store {o : VarId} {cb : C} {k : ListenerId} : w.state.phase t = .store o cb k →
      Move w t { w with state := (w.state.put o k (some cb)).goto t (.fetchId o cb k) }
  | fetchId {o : VarId} {cb : C} {k : ListenerId} : w.state.phase t = .fetchId o cb k →
      Move w t { w with state := w.state.goto t (.leave o cb k w.state.funId) }
  | leave {o : VarId} {cb : C} {k id : ListenerId} : w.state.phase t = .leave o cb k id →
      Move w t { w.add ⟨o, cb, k, id⟩ with state := (w.state.unlock o).goto t .idle }
  | lockDel {o : VarId} {k : ListenerId} : w.state.phase t = .delListener o k →
      w.state.owner o = none → Move w t { w with state := (w.state.lock o t).goto t (.erase o k) }
  | erase {o : VarId} {k : ListenerId} : w.state.phase t = .erase o k →
      Move w t { w.delete o k with state := (w.state.put o k none).goto t (.release o) }
  | release {o : VarId} : w.state.phase t = .release o →
      Move w t { w with state := (w.state.unlock o).goto t .idle }

theorem watched_of_move (h : Move w t w') : watched w (.move t) = some w' := by
  cases h with
  | lock hp hfree | lockDel hp hfree =>
    simp [watched, step, State.move, Watched.watch, hp, hfree]
  | fetch hp | bump hp | key hp | store hp | fetchId hp | leave hp | erase hp | release hp =>
    simp [watched, step, State.move, Watched.watch, hp]

/-- A thread has one move at most. -/
theorem Move.of_watched {w₁ : Watched C} (hm : Move w t w₁) (h : watched w (.move t) = some w') :
    Move w t w' := by
  obtain rfl := Option.some.inj ((watched_of_move hm).symm.trans h)
  exact hm

/-- An idle thread has none, and a locked variable cannot be locked. -/
theorem watched_eq_none (h : w.state.phase t = .idle ∨
    ∃ o, w.state.owner o ≠ none ∧ ((∃ cb, w.state.phase t = .addListener o cb) ∨
      ∃ k, w.state.phase t = .delListener o k)) : watched w (.move t) = none := by
  rcases h with hp | ⟨o, hlocked, ⟨cb, hp⟩ | ⟨k, hp⟩⟩
  · simp [watched, step, State.move, hp]
  · simp [watched, step, State.move, hp, hlocked]
  · simp [watched, step, State.move, hp, hlocked]

theorem move_of_watched (h : watched w (.move t) = some w') : Move w t w' := by
  have hsome : watched w (.move t) ≠ none := by
    rw [h]
    exact Option.some_ne_none w'
  cases hp : w.state.phase t with
  | idle => exact absurd (watched_eq_none (.inl hp)) hsome
  | addListener o cb =>
    by_cases hfree : w.state.owner o = none
    · exact (Move.lock hp hfree).of_watched h
    · exact absurd (watched_eq_none (.inr ⟨o, hfree, .inl ⟨cb, hp⟩⟩)) hsome
  | delListener o k =>
    by_cases hfree : w.state.owner o = none
    · exact (Move.lockDel hp hfree).of_watched h
    · exact absurd (watched_eq_none (.inr ⟨o, hfree, .inr ⟨k, hp⟩⟩)) hsome
  | fetch o cb => exact (Move.fetch hp).of_watched h
  | bump o cb n => exact (Move.bump hp).of_watched h
  | key o cb => exact (Move.key hp).of_watched h
  | store o cb k => exact (Move.store hp).of_watched h
  | fetchId o cb k => exact (Move.fetchId hp).of_watched h
  | leave o cb k id => exact (Move.leave hp).of_watched h
  | erase o k => exact (Move.erase hp).of_watched h
  | release o => exact (Move.release hp).of_watched h

/-- A call is a call, and any other step is a move. -/
theorem watched_cases {l : Label C} (h : watched w l = some w') :
    (∃ t op, l = .call t op ∧ w.state.phase t = .idle ∧ w' = { w with state := w.state.call t op }) ∨
      ∃ t, l = .move t ∧ Move w t w' := by
  cases l with
  | call t op =>
    left
    obtain ⟨s, hs, rfl⟩ := Option.map_eq_some_iff.mp h
    dsimp only [step] at hs
    split at hs
    · rename_i hp
      obtain rfl := Option.some.inj hs
      exact ⟨t, op, rfl, hp, rfl⟩
    · cases hs
  | move t => exact .inr ⟨t, rfl, move_of_watched h⟩

end Moves

/-! ### The invariant -/

/-- The variable whose lock the thread holds. -/
def Phase.inside : Phase C → Option VarId
  | .fetch o _ | .bump o _ _ | .key o _ | .store o _ _ | .fetchId o _ _ | .leave o _ _ _ | .erase o _
  | .release o => some o
  | .idle | .addListener .. | .delListener .. => none

/-- All keys of `o` are below `n`. -/
def Watched.Below (w : Watched C) (o : VarId) (n : Nat) : Prop :=
  ∀ k, w.state.cbs o k ≠ none → k < n

/-- What the counter, the map and the live listeners are for a call that is under way. -/
def Phase.Fits (w : Watched C) : Phase C → Prop
  | .bump o _ n => w.Below o (n + 1)
  | .key o _ => w.Below o w.state.funId
  | .store o _ k => k = w.state.funId ∧ w.Below o k
  | .fetchId o _ k => k = w.state.funId ∧ ∀ l ∈ w.live, l.var = o → l.id ≠ k
  | .leave o _ k id => id = k ∧ ∀ l ∈ w.live, l.var = o → l.id ≠ k
  | _ => True

structure Sound (w : Watched C) : Prop where
  owns : ∀ t o, (w.state.phase t).inside = some o → w.state.owner o = some t
  fits : ∀ t, (w.state.phase t).Fits w
  /-- the counter is not below a key -/
  bound : ∀ o, w.Below o (w.state.funId + 1)
  added : ∀ l ∈ w.live, l ∈ w.added
  key : ∀ l ∈ w.added, l.id = l.key
  distinct : w.live.Pairwise fun l l' => l.var = l'.var → l.id ≠ l'.id
  held : ∀ o k cb, w.state.cbs o k = some cb ↔ w.Stored o k cb

/-- Thread `t` leaves alone the variables that others have locked; it does not turn the counter back,
and for a call between its last two reads it does not change it. -/
structure Spares (w w' : Watched C) (t : ThreadId) : Prop where
  phase : ∀ t', t' ≠ t → w'.state.phase t' = w.state.phase t'
  locked : ∀ t' o, t' ≠ t → w.state.owner o = some t' → w'.state.owner o = some t' ∧
    w'.state.cbs o = w.state.cbs o ∧ ∀ l ∈ w'.live, l.var = o → l ∈ w.live
  funId : w.state.funId ≤ w'.state.funId
  still : w'.state.funId = w.state.funId ∨ ∀ t', (w.state.phase t').between = false

section Run

variable {w w' : Watched C} {t t' : ThreadId} {o : VarId} {p : Phase C}

theorem Watched.Below.mono {n n' : Nat} (h : w.Below o n) (hcbs : w'.state.cbs o = w.state.cbs o)
    (hn : n ≤ n') : w'.Below o n' := by
  intro k hk
  rw [hcbs] at hk
  exact Nat.lt_of_lt_of_le (h k hk) hn

/-- A call that is under way does not see a step that spares its variable. -/
theorem Phase.Fits.mono (h : p.Fits w) (hcbs : ∀ o, p.inside = some o → w'.state.cbs o = w.state.cbs o)
    (hlive : ∀ o, p.inside = some o → ∀ l ∈ w'.live, l.var = o → l ∈ w.live)
    (hle : w.state.funId ≤ w'.state.funId)
    (hp : p.between = true → w'.state.funId = w.state.funId) : p.Fits w' := by
  have hid : ∀ {o k}, p.inside = some o → (∀ l ∈ w.live, l.var = o → l.id ≠ k) →
      ∀ l ∈ w'.live, l.var = o → l.id ≠ k := fun hi hl l hm hv => hl l (hlive _ hi l hm hv) hv
  cases p with
  | bump o cb n => exact Watched.Below.mono h (hcbs o rfl) le_rfl
  | key o cb => exact Watched.Below.mono h (hcbs o rfl) hle
  | store o cb k => exact ⟨h.1.trans (hp rfl).symm, h.2.mono (hcbs o rfl) le_rfl⟩
  | fetchId o cb k => exact ⟨h.1.trans (hp rfl).symm, hid rfl h.2⟩
  | leave o cb k id => exact ⟨h.1, hid rfl h.2⟩
  | idle | addListener | fetch | delListener | erase | release => trivial

/-- The other threads, when `t` moves. -/
theorem Sound.others (h : Sound w) (hb : Spares w w' t) (hne : t' ≠ t) :
    (∀ o, (w'.state.phase t').inside = some o → w'.state.owner o = some t') ∧
      (w'.state.phase t').Fits w' := by
  rw [hb.phase t' hne]
  have hlocked := fun o (hi : (w.state.phase t').inside = some o) =>
    hb.locked t' o hne (h.owns t' o hi)
  refine ⟨fun o hi => (hlocked o hi).1, (h.fits t').mono (fun o hi => (hlocked o hi).2.1)
    (fun o hi => (hlocked o hi).2.2) hb.funId fun hp => ?_⟩
  rcases hb.still with hs | hs
  · exact hs
  · rw [hs t'] at hp
    cases hp

/-- What another thread has locked is not the variable that `t` is in. -/
theorem Sound.locked_ne (h : Sound w) (hi : (w.state.phase t).inside = some o) {o' : VarId}
    (hne : t' ≠ t) (hl : w.state.owner o' = some t') : o' ≠ o := by
  rintro rfl
  rw [h.owns t o' hi] at hl
  exact hne (Option.some.inj hl).symm

/-- All threads after a step of `t`. -/
theorem Sound.calls (h : Sound w) (hb : Spares w w' t)
    (hown : ∀ o', (w'.state.phase t).inside = some o' → w'.state.owner o' = some t)
    (hfit : (w'.state.phase t).Fits w') :
    (∀ t' o', (w'.state.phase t').inside = some o' → w'.state.owner o' = some t') ∧
      ∀ t', (w'.state.phase t').Fits w' := by
  have hboth : ∀ t', (∀ o', (w'.state.phase t').inside = some o' → w'.state.owner o' = some t') ∧
      (w'.state.phase t').Fits w' := by
    intro t'
    by_cases e : t' = t
    · subst e
      exact ⟨hown, hfit⟩
    · exact h.others hb e
  exact ⟨fun t' => (hboth t').1, fun t' => (hboth t').2⟩

/-- **A step that leaves the maps and the listeners as they are.** -/
theorem Sound.quiet (h : Sound w) {s : State C} (hphase : s.phase = w.state.phase)
    (hcbs : s.cbs = w.state.cbs)
    (hlocked : ∀ t' o, t' ≠ t → w.state.owner o = some t' → s.owner o = some t')
    (hfun : w.state.funId ≤ s.funId)
    (hstill : s.funId = w.state.funId ∨ ∀ t', (w.state.phase t').between = false)
    (hplaced : p.placed = (w.state.phase t).placed)
    (hown : ∀ o, p.inside = some o → s.owner o = some t)
    (hfit : p.Fits { w with state := s.goto t p }) : Sound { w with state := s.goto t p } := by
  have hself : (s.goto t p).phase t = p := Function.update_self ..
  have hother : ∀ t', t' ≠ t → (s.goto t p).phase t' = w.state.phase t' := by
    intro t' hne
    rw [← hphase]
    exact Function.update_of_ne hne ..
  have hsame : ∀ t', ((s.goto t p).phase t').placed = (w.state.phase t').placed := by
    intro t'
    by_cases e : t' = t
    · rw [e, hself, hplaced]
    · rw [hother t' e]
  have hb : Spares w { w with state := s.goto t p } t := by
    refine ⟨hother, fun t' o hne hl => ?_, hfun, hstill⟩
    exact ⟨hlocked t' o hne hl, congrFun hcbs o, fun l hm _ => hm⟩
  obtain ⟨howns, hfits⟩ := h.calls hb (by rw [hself]; exact hown) (by rw [hself]; exact hfit)
  refine ⟨howns, hfits, fun o => ?_, h.added, h.key, h.distinct, fun o k cb => ?_⟩
  · exact (h.bound o).mono (congrFun hcbs o) (Nat.succ_le_succ hfun)
  · have hheld := h.held o k cb
    rw [← hcbs] at hheld
    refine hheld.trans (or_congr Iff.rfl (exists_congr fun t' => ?_))
    rw [hsame t']

/-! ### The steps that change a map -/

theorem put_cbs (s : State C) (o : VarId) (k : ListenerId) (cb : Option C) (o' : VarId)
    (k' : ListenerId) :
    (s.put o k cb).cbs o' k' = if o' = o ∧ k' = k then cb else s.cbs o' k' := by
  unfold State.put
  by_cases ho : o' = o
  · subst ho
    by_cases hk : k' = k
    · subst hk
      simp
    · simp [hk]
  · simp [ho]

theorem put_of_ne {s : State C} {k : ListenerId} {cb : Option C} {o' : VarId} (h : o' ≠ o) :
    (s.put o k cb).cbs o' = s.cbs o' := Function.update_of_ne h ..

theorem inside_of_placed {k : ListenerId} {cb : C} (h : p.placed = some (o, k, cb)) :
    p.inside = some o := by
  cases p with
  | fetchId | leave =>
    obtain ⟨rfl, -⟩ := Prod.mk.inj (Option.some.inj h)
    rfl
  | _ => cases h

/-- While `t` holds the lock, no other call has stored something in `o`. -/
theorem Sound.alone (h : Sound w) (hi : (w.state.phase t).inside = some o) {k : ListenerId} {cb : C}
    (hp : (w.state.phase t').placed = some (o, k, cb)) : t' = t := by
  by_contra hne
  exact h.locked_ne hi hne (h.owns t' o (inside_of_placed hp)) rfl

/-- What thread `t` and what the others have stored. -/
theorem stored_iff (w : Watched C) (t : ThreadId) (o : VarId) (k : ListenerId) (cb : C) :
    w.Stored o k cb ↔ (∃ l ∈ w.live, l.var = o ∧ l.id = k ∧ l.cb = cb) ∨
      (w.state.phase t).placed = some (o, k, cb) ∨
      ∃ t', t' ≠ t ∧ (w.state.phase t').placed = some (o, k, cb) := by
  refine or_congr Iff.rfl ⟨?_, ?_⟩
  · rintro ⟨t', hp⟩
    by_cases e : t' = t
    · subst e
      exact .inl hp
    · exact .inr ⟨t', e, hp⟩
  · rintro (hp | ⟨t', -, hp⟩)
    · exact ⟨t, hp⟩
    · exact ⟨t', hp⟩

/-- A step of `t` leaves what the others have stored. -/
theorem Spares.others_placed (hb : Spares w w' t) (x : VarId × ListenerId × C) :
    (∃ t', t' ≠ t ∧ (w'.state.phase t').placed = some x) ↔
      ∃ t', t' ≠ t ∧ (w.state.phase t').placed = some x := by
  refine exists_congr fun t' => and_congr_right fun hne => ?_
  rw [hb.phase t' hne]

section Steps

variable {cb : C} {k id : ListenerId}

theorem Sound.spares_put (h : Sound w) (hi : (w.state.phase t).inside = some o) (c : Option C)
    {live : List (Listener C)} (hlive : ∀ l ∈ live, l ∈ w.live) :
    Spares w ⟨(w.state.put o k c).goto t p, w.added, live⟩ t where
  phase _ hne := Function.update_of_ne hne ..
  locked _ _ hne hl := ⟨hl, put_of_ne (h.locked_ne hi hne hl), fun l hm _ => hlive l hm⟩
  funId := le_rfl
  still := .inl rfl

theorem Sound.store (h : Sound w) (hp : w.state.phase t = .store o cb k) :
    Sound { w with state := (w.state.put o k (some cb)).goto t (.fetchId o cb k) } := by
  have hin : (w.state.phase t).inside = some o := by rw [hp]; rfl
  have hself : ((w.state.put o k (some cb)).goto t (.fetchId o cb k)).phase t = .fetchId o cb k :=
    Function.update_self ..
  have hfit := h.fits t
  rw [hp] at hfit
  obtain ⟨hk, hbelow⟩ := hfit
  -- the key is above all keys, so it is new
  have hnone : w.state.cbs o k = none := by
    by_contra hne
    exact Nat.lt_irrefl k (hbelow k hne)
  have hnolive : ∀ l ∈ w.live, l.var = o → l.id ≠ k := by
    rintro l hl rfl rfl
    have hsome := (h.held l.var l.id l.cb).mpr (.inl ⟨l, hl, rfl, rfl, rfl⟩)
    rw [hnone] at hsome
    cases hsome
  have hb := h.spares_put (k := k) (p := .fetchId o cb k) hin (some cb) fun _ hl => hl
  obtain ⟨howns, hfits⟩ := h.calls hb (by
    rw [hself]
    rintro o' ⟨⟩
    exact h.owns t o hin) (by
    rw [hself]
    exact ⟨hk, hnolive⟩)
  refine ⟨howns, hfits, fun o' k' hne => ?_, h.added, h.key, h.distinct, fun o' k' cb' => ?_⟩
  · change (w.state.put o k (some cb)).cbs o' k' ≠ none at hne
    rw [put_cbs] at hne
    split at hne
    · rename_i e
      rw [e.2, hk]
      exact Nat.lt_succ_self _
    · exact h.bound o' k' hne
  · change (w.state.put o k (some cb)).cbs o' k' = some cb' ↔ _
    rw [stored_iff _ t, hb.others_placed, hself, put_cbs]
    have hheld := h.held o' k' cb'
    rw [stored_iff w t, hp] at hheld
    split
    · rename_i e
      obtain ⟨rfl, rfl⟩ := e
      constructor
      · rintro ⟨⟩
        exact .inr (.inl rfl)
      · rintro (⟨l, hl, hvar, hid, -⟩ | hplaced | ⟨t', hne, hplaced⟩)
        · exact absurd hid (hnolive l hl hvar)
        · exact congrArg some (Prod.mk.inj (Prod.mk.inj (Option.some.inj hplaced)).2).2
        · exact absurd (h.alone hin hplaced) hne
    · rename_i e
      refine hheld.trans (or_congr Iff.rfl (or_congr_left ⟨nofun, fun hplaced => ?_⟩))
      obtain ⟨rfl, hrest⟩ := Prod.mk.inj (Option.some.inj hplaced)
      exact absurd ⟨rfl, (Prod.mk.inj hrest).1.symm⟩ e

theorem Sound.leave (h : Sound w) (hp : w.state.phase t = .leave o cb k id) :
    Sound { w.add ⟨o, cb, k, id⟩ with state := (w.state.unlock o).goto t .idle } := by
  have hin : (w.state.phase t).inside = some o := by rw [hp]; rfl
  have hself : ((w.state.unlock o).goto t .idle).phase t = .idle := Function.update_self ..
  have hfit := h.fits t
  rw [hp] at hfit
  obtain ⟨rfl, hnolive⟩ := hfit
  have hb : Spares w
      { w.add ⟨o, cb, id, id⟩ with state := (w.state.unlock o).goto t .idle } t := by
    refine ⟨fun _ hne => Function.update_of_ne hne .., fun t' o' hne hl => ?_, le_rfl, .inl rfl⟩
    have ho := h.locked_ne hin hne hl
    refine ⟨(Function.update_of_ne ho ..).trans hl, rfl, fun l hm hvar => ?_⟩
    rcases List.mem_append.mp hm with hm | hm
    · exact hm
    · rw [List.mem_singleton.mp hm] at hvar
      exact absurd hvar.symm ho
  obtain ⟨howns, hfits⟩ := h.calls hb (by rw [hself]; exact nofun)
    (by rw [hself]; trivial)
  refine ⟨howns, hfits, h.bound, fun l hl => ?_, fun l hl => ?_, ?_, fun o' k' cb' => ?_⟩
  · rcases List.mem_append.mp hl with hl | hl
    · exact List.mem_append_left _ (h.added l hl)
    · exact List.mem_append_right _ hl
  · rcases List.mem_append.mp hl with hl | hl
    · exact h.key l hl
    · rw [List.mem_singleton.mp hl]
  · refine List.pairwise_append.mpr ⟨h.distinct, List.pairwise_singleton .., fun l hl l' hl' => ?_⟩
    rw [List.mem_singleton.mp hl']
    exact hnolive l hl
  · have hheld := h.held o' k' cb'
    rw [stored_iff w t, hp] at hheld
    rw [stored_iff _ t, hb.others_placed, hself]
    refine hheld.trans ⟨?_, ?_⟩
    · rintro (⟨l, hl, he⟩ | hplaced | hothers)
      · exact .inl ⟨l, List.mem_append_left _ hl, he⟩
      · obtain ⟨rfl, hrest⟩ := Prod.mk.inj (Option.some.inj hplaced)
        obtain ⟨rfl, rfl⟩ := Prod.mk.inj hrest
        exact .inl ⟨_, List.mem_append_right _ (List.mem_singleton_self _), rfl, rfl, rfl⟩
      · exact .inr (.inr hothers)
    · rintro (⟨l, hl, he⟩ | hplaced | hothers)
      · rcases List.mem_append.mp hl with hl | hl
        · exact .inl ⟨l, hl, he⟩
        · obtain rfl := List.mem_singleton.mp hl
          obtain ⟨rfl, rfl, rfl⟩ := he
          exact .inr (.inl rfl)
      · cases hplaced
      · exact .inr (.inr hothers)

theorem Sound.erase (h : Sound w) (hp : w.state.phase t = .erase o k) :
    Sound { w.delete o k with state := (w.state.put o k none).goto t (.release o) } := by
  have hin : (w.state.phase t).inside = some o := by rw [hp]; rfl
  have hself : ((w.state.put o k none).goto t (.release o)).phase t = .release o :=
    Function.update_self ..
  have hmem : ∀ {l}, l ∈ (w.delete o k).live ↔ l ∈ w.live ∧ ¬(l.var = o ∧ l.id = k) := by
    intro l
    rw [Watched.delete, List.mem_filter, decide_eq_true_iff]
  have hb := h.spares_put (k := k) (p := .release o) hin none fun l hl => (hmem.mp hl).1
  obtain ⟨howns, hfits⟩ := h.calls hb (by
    rw [hself]
    rintro o' ⟨⟩
    exact h.owns t o hin) (by rw [hself]; trivial)
  refine ⟨howns, hfits, fun o' k' hne => ?_, fun l hl => h.added l (hmem.mp hl).1, h.key,
    h.distinct.filter _, fun o' k' cb' => ?_⟩
  · change (w.state.put o k none).cbs o' k' ≠ none at hne
    rw [put_cbs] at hne
    split at hne
    · exact absurd rfl hne
    · exact h.bound o' k' hne
  · have hheld := h.held o' k' cb'
    rw [stored_iff w t, hp] at hheld
    change (w.state.put o k none).cbs o' k' = some cb' ↔ _
    rw [stored_iff _ t, hb.others_placed, hself, put_cbs]
    split
    · rename_i e
      obtain ⟨rfl, rfl⟩ := e
      refine iff_of_false nofun ?_
      rintro (⟨l, hl, hvar, hid, -⟩ | hplaced | ⟨t', hne, hplaced⟩)
      · exact (hmem.mp hl).2 ⟨hvar, hid⟩
      · cases hplaced
      · exact hne (h.alone hin hplaced)
    · rename_i e
      refine hheld.trans (or_congr (exists_congr fun l => ?_) Iff.rfl)
      constructor
      · rintro ⟨hl, rfl, rfl, hcb⟩
        exact ⟨hmem.mpr ⟨hl, e⟩, rfl, rfl, hcb⟩
      · rintro ⟨hl, he⟩
        exact ⟨(hmem.mp hl).1, he⟩

end Steps

/-! ### Every run -/

/-- A thread passes on within its call, and only its phase changes. -/
theorem Sound.pass (h : Sound w) (hin : p.inside = (w.state.phase t).inside)
    (hplaced : p.placed = (w.state.phase t).placed) (hfit : p.Fits { w with state := w.state.goto t p }) :
    Sound { w with state := w.state.goto t p } :=
  h.quiet rfl rfl (fun _ _ _ hl => hl) le_rfl (.inl rfl) hplaced
    (fun o hi => h.owns t o (hin.symm.trans hi)) hfit

theorem Sound.lock (h : Sound w) (hfree : w.state.owner o = none)
    (hbefore : (w.state.phase t).placed = none) (hp : p.inside = some o) (hplaced : p.placed = none)
    (hfit : p.Fits { w with state := (w.state.lock o t).goto t p }) :
    Sound { w with state := (w.state.lock o t).goto t p } := by
  refine h.quiet rfl rfl (fun t' o' _ hl => ?_) le_rfl (.inl rfl) (hplaced.trans hbefore.symm)
    (fun o' ho' => ?_) hfit
  · have ho : o' ≠ o := by
      rintro rfl
      rw [hfree] at hl
      cases hl
    exact (Function.update_of_ne ho ..).trans hl
  · rw [hp] at ho'
    obtain rfl := Option.some.inj ho'
    exact Function.update_self ..

/-- **A move keeps the invariant**, unless it disturbs the counter. -/
theorem Sound.move (h : Sound w) (hl : Undisturbed w (.move t)) (hm : Move w t w') : Sound w' := by
  have hfit := h.fits t
  cases hm with
  | lock hp hfree => exact h.lock hfree (by rw [hp]; rfl) rfl rfl trivial
  | lockDel hp hfree => exact h.lock hfree (by rw [hp]; rfl) rfl rfl trivial
  | @fetch o cb hp => exact h.pass (by rw [hp]; rfl) (by rw [hp]; rfl) (h.bound o)
  | @bump o cb n hp =>
    obtain ⟨hle, hlt, hstill⟩ := hl t o cb n rfl hp
    rw [hp] at hfit
    have hin : (w.state.phase t).inside = some o := by rw [hp]; rfl
    have hmod : (n + 1) % 2 ^ 64 = n + 1 := Nat.mod_eq_of_lt hlt
    rw [hmod]
    refine h.quiet rfl rfl (fun _ _ _ hl => hl) hle (hstill.imp_left Eq.symm) (by rw [hp]; rfl) ?_ hfit
    rintro o' ⟨⟩
    exact h.owns t o hin
  | @key o cb hp =>
    rw [hp] at hfit
    exact h.pass (by rw [hp]; rfl) (by rw [hp]; rfl) ⟨rfl, hfit⟩
  | store hp => exact h.store hp
  | @fetchId o cb k hp =>
    rw [hp] at hfit
    exact h.pass (by rw [hp]; rfl) (by rw [hp]; rfl) ⟨hfit.1.symm, hfit.2⟩
  | leave hp => exact h.leave hp
  | erase hp => exact h.erase hp
  | @release o hp =>
    have hin : (w.state.phase t).inside = some o := by rw [hp]; rfl
    refine h.quiet rfl rfl (fun t' o' hne hl => ?_) le_rfl (.inl rfl) (by rw [hp]; rfl) nofun trivial
    exact (Function.update_of_ne (h.locked_ne hin hne hl) ..).trans hl

theorem Sound.call (h : Sound w) (hidle : w.state.phase t = .idle) (op : Op C) :
    Sound { w with state := w.state.call t op } := by
  cases op with
  | addListener o cb => exact h.pass (by rw [hidle]; rfl) (by rw [hidle]; rfl) trivial
  | delListener o k => exact h.pass (by rw [hidle]; rfl) (by rw [hidle]; rfl) trivial

theorem sound_construct : Sound (.construct C) where
  owns _ _ hi := by cases hi
  fits _ := trivial
  bound _ _ hne := absurd rfl hne
  added _ hl := absurd hl List.not_mem_nil
  key _ hl := absurd hl List.not_mem_nil
  distinct := .nil
  held _ _ _ := iff_of_false nofun (by rintro (⟨l, hl, -⟩ | ⟨t, hp⟩) <;> [cases hl; cases hp])

theorem Sound.named (h : Sound w) : Named w where
  key := h.key
  distinct := h.distinct
  fresh t o cb k hp := by
    by_contra hne
    have hfit := h.fits t
    rw [hp] at hfit
    exact Nat.lt_irrefl k (hfit.2 k hne)
  held := h.held
  deletes t o k w' hp hw l hl := by
    have hsome := (h.held l.var l.id l.cb).mpr (.inl ⟨l, hl, rfl, rfl, rfl⟩)
    have hm := move_of_watched hw
    cases hm with
    | erase hp' =>
      obtain ⟨rfl, rfl⟩ := Phase.erase.inj (hp.symm.trans hp')
      change (w.state.put _ _ none).cbs l.var l.key = _
      rw [put_cbs, ← h.key l (h.added l hl), hsome]
    | lock hp' | fetch hp' | bump hp' | key hp' | store hp' | fetchId hp' | leave hp' | lockDel hp'
      | release hp' => cases hp.symm.trans hp'

theorem Sound.reach (h : Reach watched Undisturbed (.construct C) w) : Sound w := by
  refine h.invariant sound_construct fun hI hl hs => ?_
  rcases watched_cases hs with ⟨t, op, -, hidle, rfl⟩ | ⟨t, rfl, hm⟩
  · exact hI.call hidle op
  · exact hI.move hl hm

/-- **The ids name their listeners in every run whose writes of the counter are undisturbed.** -/
theorem ids_name_listeners (h : Reach watched Undisturbed (.construct C) w) : Named w :=
  (Sound.reach h).named

/-- A change of the counter between the last two reads of a call gives it a wrong id. -/
theorem wrong_id (h : Reach watched Undisturbed (.construct C) w) {o o' : VarId} {cb cb' : C} {n : Nat}
    {k : ListenerId} (hp : w.state.phase t = .bump o cb n) (hlt : n + 1 < 2 ^ 64)
    (hne : w.state.funId ≠ n + 1) (hp' : w.state.phase t' = .fetchId o' cb' k) :
    ∃ w', runs watched w [.move t, .move t', .move t'] = some w' ∧
      ⟨o', cb', k, n + 1⟩ ∈ w'.added ∧ n + 1 ≠ k := by
  have hk : k = w.state.funId := by
    have hfit := (Sound.reach h).fits t'
    rw [hp'] at hfit
    exact hfit.1
  have htt : t' ≠ t := by
    rintro rfl
    rw [hp] at hp'
    cases hp'
  obtain ⟨w₁, hbump, hfun, hphase⟩ : ∃ w₁, watched w (.move t) = some w₁ ∧ w₁.state.funId = n + 1 ∧
      w₁.state.phase t' = .fetchId o' cb' k :=
    ⟨_, watched_of_move (.bump hp), Nat.mod_eq_of_lt hlt, (Function.update_of_ne htt ..).trans hp'⟩
  obtain ⟨w₂, hfetch, hphase⟩ : ∃ w₂, watched w₁ (.move t') = some w₂ ∧
      w₂.state.phase t' = .leave o' cb' k (n + 1) := by
    rw [← hfun]
    exact ⟨_, watched_of_move (.fetchId hphase), Function.update_self ..⟩
  obtain ⟨w₃, hleave, hadded⟩ : ∃ w₃, watched w₂ (.move t') = some w₃ ∧
      w₃.added = w₂.added ++ [⟨o', cb', k, n + 1⟩] := ⟨_, watched_of_move (.leave hphase), rfl⟩
  refine ⟨w₃, ?_, ?_, fun he => hne (hk.symm.trans he.symm)⟩
  · rw [runs, hbump, Option.bind_some, runs, hfetch, Option.bind_some, runs, hleave]
    rfl
  · rw [hadded]
    exact List.mem_append_right _ (List.mem_singleton_self _)

/-! ### A counter that has been turned back -/

/-- A thread that calls `addListener` and is not interrupted, up to the store. -/
theorem runs_to_store (ho : w.state.owner o = none) (ht : w.state.phase t = .idle) (cb : C) :
    ∃ w', runs watched w (.call t (.addListener o cb) :: List.replicate 4 (.move t)) = some w' ∧
      w'.state.phase t = .store o cb w'.state.funId ∧
      w'.state.funId = (w.state.funId + 1) % 2 ^ 64 ∧ w'.state.cbs = w.state.cbs := by
  refine ⟨⟨⟨(w.state.funId + 1) % 2 ^ 64, Function.update w.state.owner o (some t), w.state.cbs,
    Function.update w.state.phase t (.store o cb ((w.state.funId + 1) % 2 ^ 64))⟩, w.added, w.live⟩,
    ?_, Function.update_self .., rfl, rfl⟩
  simp [runs, watched, step, State.call, State.move, State.goto, State.lock, Watched.watch, ht, ho,
    List.replicate]

/-- The rest of the call. -/
theorem runs_from_store {cb : C} {k : ListenerId} (hp : w.state.phase t = .store o cb k) :
    ∃ w', runs watched w (List.replicate 3 (.move t)) = some w' ∧ w'.state.phase t = .idle ∧
      w'.state.owner o = none ∧ w'.state.funId = w.state.funId ∧
      w'.state.cbs = (w.state.put o k (some cb)).cbs := by
  refine ⟨⟨⟨w.state.funId, Function.update w.state.owner o none, (w.state.put o k (some cb)).cbs,
    Function.update w.state.phase t .idle⟩, w.added ++ [⟨o, cb, k, w.state.funId⟩],
    w.live ++ [⟨o, cb, k, w.state.funId⟩]⟩, ?_, Function.update_self .., Function.update_self .., rfl, rfl⟩
  simp [runs, watched, step, State.move, State.goto, State.put, State.unlock, Watched.watch, Watched.add,
    hp, List.replicate]

/-- **When the counter is below a key of a variable, adding to it overwrites a listener**, sooner or
later. -/
theorem overwrites_of_lt {k : Nat} (hk : w.state.cbs o k ≠ none) (hlt : w.state.funId < k)
    (hmax : k < 2 ^ 64) (ho : w.state.owner o = none) (ht : w.state.phase t = .idle) (cb : C) :
    ∃ ls w' k', runs watched w ls = some w' ∧ w'.state.phase t = .store o cb k' ∧
      w'.state.cbs o k' ≠ none := by
  induction hd : k - w.state.funId generalizing w with
  | zero => omega
  | succ d ih =>
    obtain ⟨w₁, hrun, hp, hfun, hcbs⟩ := runs_to_store ho ht cb
    rw [Nat.mod_eq_of_lt (by omega)] at hfun
    by_cases hnew : w₁.state.cbs o w₁.state.funId = none
    · -- the number is free, so the call ends well, and the counter is closer to `k`
      obtain ⟨w₂, hrun', hp', ho', hfun', hcbs'⟩ := runs_from_store hp
      have hne : k ≠ w₁.state.funId := by
        rintro rfl
        rw [hcbs] at hnew
        exact hk hnew
      have hk' : w₂.state.cbs o k ≠ none := by
        rw [hcbs', put_cbs, if_neg fun e => hne e.2, hcbs]
        exact hk
      obtain ⟨ls, w', k', hrest, hend⟩ := ih hk' (by omega) ho' hp' (by omega)
      refine ⟨Label.call t (.addListener o cb) :: List.replicate 4 (Label.move t) ++
        (List.replicate 3 (Label.move t) ++ ls), w', k', ?_, hend⟩
      rw [runs_append, hrun, Option.bind_some, runs_append, hrun', Option.bind_some, hrest]
    · exact ⟨_, w₁, _, hrun, hp, hnew⟩

end Run

/-! ### Two calls at once -/

/-- No thread but the first `n` is in a call. -/
def Few (n : Nat) (w : Watched C) : Prop := ∀ t, n ≤ t → w.state.phase t = .idle

/-- `Undisturbed`, for the first `n` threads. -/
def Undisturbed.check (n : Nat) (w : Watched C) : Label C → Bool
  | .call t _ => decide (t < n)
  | .move t =>
    match w.state.phase t with
    | .bump _ _ m =>
      decide (w.state.funId ≤ m + 1 ∧ m + 1 < 2 ^ 64) &&
        (w.state.funId == m + 1 || (List.range n).all fun t' => !(w.state.phase t').between)
    | _ => true

theorem Few.step {n : Nat} {w w' : Watched C} {l : Label C} (h : Few n w)
    (hl : ∀ t op, l = .call t op → t < n) (hs : watched w l = some w') : Few n w' := by
  have hgoto : ∀ {s : State C} {t : ThreadId} {p : Phase C}, s.phase = w.state.phase → t < n →
      ∀ t', n ≤ t' → (s.goto t p).phase t' = .idle := by
    intro s t p hphase ht t' ht'
    have hne : t' ≠ t := Nat.ne_of_gt (Nat.lt_of_lt_of_le ht ht')
    rw [State.goto, hphase]
    exact (Function.update_of_ne hne ..).trans (h t' ht')
  rcases watched_cases hs with ⟨t, op, rfl, -, rfl⟩ | ⟨t, rfl, hm⟩
  · have ht := hl t op rfl
    cases op <;> exact hgoto rfl ht
  · have ht : t < n := by
      by_contra hge
      have hidle := h t (Nat.le_of_not_lt hge)
      rw [watched_eq_none (.inl hidle)] at hs
      cases hs
    cases hm <;> exact hgoto rfl ht

theorem Undisturbed.of_check {n : Nat} {w w' : Watched C} {l : Label C} (hf : Few n w)
    (h : Undisturbed.check n w l = true) (hs : watched w l = some w') :
    Undisturbed w l ∧ Few n w' := by
  cases l with
  | call t op =>
    refine ⟨fun _ _ _ _ he => (by cases he), hf.step (fun t' op' he => ?_) hs⟩
    injection he with he _
    rw [← he]
    simpa [Undisturbed.check] using h
  | move t =>
    refine ⟨?_, hf.step (fun t' op' he => by cases he) hs⟩
    rintro _ o cb m he hp
    injection he with he
    subst he
    simp only [Undisturbed.check, hp, Bool.and_eq_true, decide_eq_true_eq, Bool.or_eq_true, beq_iff_eq,
      List.all_eq_true, List.mem_range, Bool.not_eq_true'] at h
    obtain ⟨⟨hle, hlt⟩, hstill⟩ := h
    refine ⟨hle, hlt, hstill.imp_right fun hall t' => ?_⟩
    by_cases ht : t' < n
    · exact hall t' ht
    · rw [hf t' (Nat.le_of_not_lt ht)]
      rfl

/-- Both threads add a listener, each to a variable of its own and with overlapping calls, and thread 0
deletes its own. -/
def inTurn : List (Label Nat) :=
  [.call 0 (.addListener 0 10), .call 1 (.addListener 1 20), .move 0, .move 1, .move 0, .move 0, .move 1,
    .move 0, .move 0, .move 0, .move 0, .move 1, .move 1, .move 1, .move 1, .move 1,
    .call 0 (.delListener 0 1), .move 0, .move 0, .move 0]

theorem ids_name_listeners_in_turn :
    ∃ w, runs (guarded watched (Undisturbed.check 2)) (.construct Nat) inTurn = some w ∧
      w.added = [⟨0, 10, 1, 1⟩, ⟨1, 20, 2, 2⟩] ∧ w.live = [⟨1, 20, 2, 2⟩] ∧ Named w := by
  obtain ⟨w, hr, hc⟩ := exists_of_runs (guarded watched (Undisturbed.check 2)) (.construct Nat) inTurn
    (fun w => w.added == [⟨0, 10, 1, 1⟩, ⟨1, 20, 2, 2⟩] && w.live == [⟨1, 20, 2, 2⟩])
    (by decide +kernel)
  obtain ⟨hreach, -⟩ := Reach.of_guarded (I := Few 2) .refl (fun _ _ => rfl)
    (fun hf hp hs => Undisturbed.of_check hf hp hs) hr
  simp only [Bool.and_eq_true, beq_iff_eq] at hc
  exact ⟨w, hr, hc.1, hc.2, ids_name_listeners hreach⟩

/-- Thread 1 increments the counter after thread 0 has stored its callback and before it reads what it
returns. -/
def torn : List (Label Nat) :=
  [.call 0 (.addListener 0 10), .call 1 (.addListener 1 20), .move 0, .move 0, .move 0, .move 0, .move 0,
    .move 1, .move 1, .move 1, .move 0, .move 0]

theorem not_named_torn :
    ¬∀ w, Reach watched (fun _ _ => True) (.construct Nat) w → Named w := by
  intro h
  obtain ⟨w, hr, hc⟩ := exists_of_runs watched (.construct Nat) torn
    (fun w => w.added == [⟨0, 10, 1, 2⟩]) (by decide +kernel)
  have hreach : Reach watched (fun _ _ => True) (.construct Nat) w := .of_runs .refl (fun _ _ => trivial) hr
  have hkey := (h w hreach).key ⟨0, 10, 1, 2⟩ (by rw [beq_iff_eq.mp hc]; exact List.mem_singleton_self _)
  -- the callback is stored under 1, and 2 was returned
  exact absurd hkey (by decide)

end LioNet.ConfigVars
