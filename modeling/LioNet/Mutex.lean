import Mathlib.Logic.Function.Basic
import LioNet.Lib.LockOrder
import LioNet.Lib.Tally

/-!
# Mutexes and their scoped locks

The classes of `mutex.h`.  A mutex is what its functions do to its state: `lock` is `none` while the
call waits (or spins), `unlock` is `none` where the call is not defined, since nobody has the mutex.
`ScopedLockImpl`, `ReadScopedLockImpl` and `WriteScopedLockImpl` differ only in the function that they
lock with, so they are one `Guard` with a mode.

Any number of guards on one mutex, in any threads, are constructed, locked, unlocked and destroyed in
any order.  `Lawful` is what a mutex promises, by how often it is locked in which mode;
`Inv` says that these numbers are those of the guards whose `m_locked` is set.  So guards exclude each
other, none is ever unlocked twice, and a mutex whose guards are gone is free.
-/

namespace LioNet.Guards

open Lib Lib.Locks

/-! ## The mutexes -/

structure Lockable (σ : Type) where
  construct : σ
  lock : Mode → σ → Option σ
  unlock : σ → Option σ

/-- `Mutex`, by whether it is locked.  There is no `rdlock`. -/
def Mutex : Lockable Bool where
  construct := false
  lock
    | .exclusive, false => some true
    | _, _ => none
  unlock locked := if locked then some false else none

def Spinlock : Lockable Bool := Mutex

/-- `atomic_flag_test_and_set`: what the flag was, and what it is. -/
def testAndSet (flag : Bool) : Bool × Bool := (flag, true)

/-- One pass of the loop in `CASLock::lock`, whose condition is what the flag was.  `unlock` clears the
flag, whatever it was, so it is always defined. -/
def CASLock : Lockable Bool where
  construct := false
  lock
    | .exclusive, flag => if (testAndSet flag).1 then none else some (testAndSet flag).2
    | .shared, _ => none
  unlock _ := some false

structure RW where
  readers : ℕ
  writer : Bool
  deriving DecidableEq, Repr

/-- `RWMutex`: `rdlock` is `lock .shared`, and `wrlock` is `lock .exclusive`. -/
def RWMutex : Lockable RW where
  construct := ⟨0, false⟩
  lock
    | .shared, ⟨r, false⟩ => some ⟨r + 1, false⟩
    | .exclusive, ⟨0, false⟩ => some ⟨0, true⟩
    | _, _ => none
  unlock
    | ⟨r, true⟩ => some ⟨r, false⟩
    | ⟨r + 1, false⟩ => some ⟨r, false⟩
    | ⟨0, false⟩ => none

/-! ## Guards -/

/-- A scoped lock. -/
structure Guard where
  mode : Mode
  m_locked : Bool
  deriving DecidableEq, Repr

structure State (σ : Type) where
  mutex : σ
  guards : ℕ → Option Guard
  /-- a mutex was unlocked that nobody had -/
  undefined : Bool

inductive Label
  | construct (g : ℕ) (m : Mode)
  | lock (g : ℕ)
  | unlock (g : ℕ)
  | destroy (g : ℕ)
  deriving DecidableEq, Repr

section Step

variable {σ : Type} (K : Lockable σ)

def State.initial : State σ where
  mutex := K.construct
  guards := fun _ => none
  undefined := false

def State.put (s : State σ) (g : ℕ) (x : Option Guard) : State σ :=
  { s with guards := Function.update s.guards g x }

/-- Lock the mutex for a guard, which then says so. -/
def State.take (s : State σ) (g : ℕ) (m : Mode) : Option (State σ) :=
  (K.lock m s.mutex).map fun x => { s with mutex := x }.put g (some ⟨m, true⟩)

/-- `unlock`: nothing, where `m_locked` is not set. -/
def State.give (s : State σ) (g : ℕ) (x : Guard) : State σ :=
  if x.m_locked then
    match K.unlock s.mutex with
    | some y => { s with mutex := y }.put g (some ⟨x.mode, false⟩)
    | none => { s with undefined := true }
  else s

def step (s : State σ) : Label → Option (State σ)
  | .construct g m =>
    match s.guards g with
    | none => s.take K g m
    | some _ => none
  | .lock g =>
    match s.guards g with
    | some ⟨m, false⟩ => s.take K g m
    | some ⟨_, true⟩ => some s
    | none => none
  | .unlock g => (s.guards g).map (s.give K g)
  | .destroy g => (s.guards g).map fun x => (s.give K g x).put g none

/-- The guard has the mutex in this mode. -/
def State.has (s : State σ) (m : Mode) (g : ℕ) : Bool := s.guards g == some ⟨m, true⟩

theorem has_put (s : State σ) (g g' : ℕ) (o : Option Guard) (m : Mode) :
    (s.put g o).has m g' = if g' = g then o == some ⟨m, true⟩ else s.has m g' := by
  by_cases h : g' = g
  · simp [State.has, State.put, h]
  · simp [State.has, State.put, h]

end Step

/-! ## Guards exclude each other -/

/-- Nobody shares an exclusive mutex. -/
def Excl (n : Mode → ℕ) : Prop := 0 < n .exclusive → n .exclusive = 1 ∧ n .shared = 0

/-- What the functions of a mutex do to the number of times it is locked in each mode. -/
structure Lawful {σ : Type} (K : Lockable σ) (count : σ → Mode → ℕ) : Prop where
  construct : ∀ m, count K.construct m = 0
  lock : ∀ {m x y}, K.lock m x = some y →
    (count x .exclusive = 0 ∧ (m = .exclusive → count x .shared = 0)) ∧
      ∀ m', count y m' = count x m' + if m' = m then 1 else 0
  unlock : ∀ {m x}, Excl (count x) → 0 < count x m →
    ∃ y, K.unlock x = some y ∧ ∀ m', count y m' = count x m' - if m' = m then 1 else 0

structure Inv {σ : Type} (count : σ → Mode → ℕ) (s : State σ) : Prop where
  tally : ∀ m, Tally (s.has m) (count s.mutex m)
  excl : Excl (count s.mutex)
  defined : s.undefined = false

section Invariant

variable {σ : Type} {K : Lockable σ} {count : σ → Mode → ℕ} {s s' : State σ} {g : ℕ}

theorem Inv.initial (hK : Lawful K count) : Inv count (State.initial K) where
  tally m := by
    rw [show count (State.initial K).mutex m = 0 from hK.construct m]
    exact tally_none fun g => rfl
  excl h := by
    rw [show count (State.initial K).mutex .exclusive = 0 from hK.construct _] at h
    exact absurd h (Nat.lt_irrefl 0)
  defined := rfl

theorem Inv.take (h : Inv count s) (hK : Lawful K count) {m : Mode}
    (hg : ∀ m', s.has m' g = false) (ht : s.take K g m = some s') : Inv count s' := by
  obtain ⟨x, hx, rfl⟩ := Option.map_eq_some_iff.mp ht
  obtain ⟨⟨hw, hr⟩, hcount⟩ := hK.lock hx
  refine ⟨fun m' => ?_, fun hpos => ?_, h.defined⟩
  · refine (h.tally m').move (i := g) (fun j hj => ?_) ?_
    · rw [has_put, if_neg hj]
      rfl
    · show count x m' = _
      rw [hcount, has_put, hg m']
      by_cases hm : m' = m
      · simp [hm]
      · simp [hm, Ne.symm hm]
  · change 0 < count x .exclusive at hpos
    change count x .exclusive = 1 ∧ count x .shared = 0
    cases m with
    | shared => simp [hcount, hw] at hpos
    | exclusive => simp [hcount, hw, hr]

theorem Inv.give (h : Inv count s) (hK : Lawful K count) {x : Guard} (hg : s.guards g = some x) :
    Inv count (s.give K g x) ∧ ∀ m, (s.give K g x).has m g = false := by
  obtain ⟨m, locked⟩ := x
  cases locked with
  | false => exact ⟨h, fun m' => by simp [State.give, State.has, hg]⟩
  | true =>
    have hhas : ∀ m', s.has m' g = decide (m' = m) := by
      intro m'
      by_cases hm : m' = m
      · simp [State.has, hg, hm]
      · simp [State.has, hg, hm, Ne.symm hm]
    have hpos : 0 < count s.mutex m := (h.tally m).pos (i := g) (by simp [hhas])
    obtain ⟨y, hy, hcount⟩ := hK.unlock h.excl hpos
    have he : s.give K g ⟨m, true⟩ = { s with mutex := y }.put g (some ⟨m, false⟩) := by
      simp [State.give, hy]
    rw [he]
    refine ⟨⟨fun m' => ?_, fun hpos => ?_, h.defined⟩, fun m' => by simp [has_put]⟩
    · refine (h.tally m').move (i := g) (fun j hj => ?_) ?_
      · rw [has_put, if_neg hj]
        rfl
      · show count y m' = _
        have hfree : (some ⟨m, false⟩ == (some ⟨m', true⟩ : Option Guard)) = false := by
          simp only [beq_eq_false_iff_ne, ne_eq, Option.some.injEq, Guard.mk.injEq, Bool.false_eq_true,
            and_false, not_false_eq_true]
        rw [hcount, has_put, if_pos rfl, hfree, hhas]
        by_cases hm : m' = m
        · simp [hm]
        · simp [hm]
    · change 0 < count y .exclusive at hpos
      change count y .exclusive = 1 ∧ count y .shared = 0
      rw [hcount] at hpos ⊢
      rw [hcount]
      have hx := h.excl (by omega)
      omega

/-- A guard that does not have the mutex may change or go. -/
theorem Inv.put (h : Inv count s) {o : Option Guard} (hg : ∀ m, s.has m g = false)
    (ho : ∀ m, o ≠ some ⟨m, true⟩) : Inv count (s.put g o) := by
  refine ⟨fun m => (h.tally m).congr fun j => ?_, h.excl, h.defined⟩
  by_cases hj : j = g
  · simp [has_put, hj, hg, ho]
  · simp [has_put, hj]

theorem Inv.step (h : Inv count s) (hK : Lawful K count) {l : Label} (hs : step K s l = some s') :
    Inv count s' := by
  cases l with
  | construct g m =>
    dsimp only [Guards.step] at hs
    split at hs
    · rename_i hg
      exact h.take hK (fun m' => by simp [State.has, hg]) hs
    · cases hs
  | lock g =>
    dsimp only [Guards.step] at hs
    split at hs
    · rename_i m hg
      exact h.take hK (fun m' => by simp [State.has, hg]) hs
    · obtain rfl := Option.some.inj hs
      exact h
    · cases hs
  | unlock g =>
    obtain ⟨x, hg, rfl⟩ := Option.map_eq_some_iff.mp hs
    exact (h.give hK hg).1
  | destroy g =>
    obtain ⟨x, hg, rfl⟩ := Option.map_eq_some_iff.mp hs
    obtain ⟨hi, hhas⟩ := h.give hK hg
    exact hi.put hhas fun m => nofun

theorem Inv.reach (hK : Lawful K count)
    (hr : Reach (Guards.step K) (fun _ _ => True) (State.initial K) s) : Inv count s :=
  hr.invariant (Inv.initial hK) fun h _ hs => h.step hK hs

/-- A guard that has the mutex exclusively has it alone. -/
theorem Inv.alone (h : Inv count s) {m : Mode} {g' : ℕ} (hg : s.has .exclusive g = true)
    (hg' : s.has m g' = true) : g' = g ∧ m = .exclusive := by
  obtain ⟨hone, hzero⟩ := h.excl ((h.tally .exclusive).pos hg)
  cases m with
  | shared =>
    have hp := (h.tally .shared).pos hg'
    rw [hzero] at hp
    exact absurd hp (Nat.lt_irrefl 0)
  | exclusive =>
    refine ⟨?_, rfl⟩
    have ht := h.tally .exclusive
    rw [hone] at ht
    exact ht.eq_of_one hg' hg

end Invariant

/-! ### The mutexes are lawful -/

/-- A mutex without readers. -/
def alone (locked : Bool) : Mode → ℕ
  | .shared => 0
  | .exclusive => locked.toNat

theorem Mutex.lawful : Lawful Mutex alone where
  construct m := by cases m <;> rfl
  lock {m x y} h := by
    cases m with
    | shared => cases h
    | exclusive =>
      cases x with
      | true => cases h
      | false =>
        obtain rfl := Option.some.inj h
        exact ⟨⟨rfl, fun _ => rfl⟩, fun m' => by cases m' <;> rfl⟩
  unlock {m x} _ hpos := by
    cases m with
    | shared => exact absurd hpos (Nat.lt_irrefl 0)
    | exclusive =>
      cases x with
      | false => exact absurd hpos (Nat.lt_irrefl 0)
      | true => exact ⟨false, rfl, fun m' => by cases m' <;> rfl⟩

theorem CASLock.lock_eq (m : Mode) (x : Bool) : CASLock.lock m x = Mutex.lock m x := by
  cases m with
  | shared => rfl
  | exclusive => cases x <;> rfl

theorem CASLock.lawful : Lawful CASLock alone where
  construct := Mutex.lawful.construct
  lock h := Mutex.lawful.lock (CASLock.lock_eq _ _ ▸ h)
  unlock {m x} hx hpos := by
    obtain ⟨y, hy, hcount⟩ := Mutex.lawful.unlock hx hpos
    cases x with
    | false => cases hy
    | true =>
      obtain rfl := Option.some.inj hy
      exact ⟨false, rfl, hcount⟩

def RW.count (x : RW) : Mode → ℕ
  | .shared => x.readers
  | .exclusive => x.writer.toNat

theorem RWMutex.lawful : Lawful RWMutex RW.count where
  construct m := by cases m <;> rfl
  lock {m x y} h := by
    obtain ⟨r, w⟩ := x
    cases w with
    | true => cases m <;> cases r <;> cases h
    | false =>
      cases m with
      | shared =>
        obtain rfl := Option.some.inj h
        exact ⟨⟨rfl, nofun⟩, fun m' => by cases m' <;> rfl⟩
      | exclusive =>
        cases r with
        | succ r => cases h
        | zero =>
          obtain rfl := Option.some.inj h
          exact ⟨⟨rfl, fun _ => rfl⟩, fun m' => by cases m' <;> rfl⟩
  unlock {m x} hx hpos := by
    obtain ⟨r, w⟩ := x
    cases w with
    | true =>
      obtain rfl : r = 0 := (hx Nat.one_pos).2
      cases m with
      | shared => exact absurd hpos (Nat.lt_irrefl 0)
      | exclusive => exact ⟨⟨0, false⟩, rfl, fun m' => by cases m' <;> rfl⟩
    | false =>
      cases m with
      | exclusive => exact absurd hpos (Nat.lt_irrefl 0)
      | shared =>
        cases r with
        | zero => exact absurd hpos (Nat.lt_irrefl 0)
        | succ r => exact ⟨⟨r, false⟩, rfl, fun m' => by cases m' <;> rfl⟩

/-! ### What a mutex says about its guards -/

section Agree

variable {g : ℕ}

/-- **An `RWMutex` is what its guards say.**  However any number of scoped read and write locks on it
are made, locked, unlocked and destroyed in any interleaving: it counts the read locks that are
locked, it has a writer exactly if a write lock is locked, that one is alone, nothing is unlocked that
is not locked, and a call waits only while some guard is locked. -/
theorem rwmutex_agrees {s : State RW}
    (hr : Reach (step RWMutex) (fun _ _ => True) (State.initial RWMutex) s) :
    s.undefined = false ∧ Tally (s.has .shared) s.mutex.readers ∧
      Tally (s.has .exclusive) s.mutex.writer.toNat ∧
      (∀ g m g', s.has .exclusive g = true → s.has m g' = true → g' = g ∧ m = .exclusive) ∧
      ∀ m, RWMutex.lock m s.mutex = none → ∃ g m', s.has m' g = true := by
  have hi := Inv.reach RWMutex.lawful hr
  refine ⟨hi.defined, hi.tally .shared, hi.tally .exclusive, fun g m g' => hi.alone, fun m hm => ?_⟩
  by_contra hno
  have hfree : ∀ m' g, s.has m' g = false := by
    intro m' g
    by_contra hg
    exact hno ⟨g, m', by simpa using hg⟩
  have hzero : ∀ m', RW.count s.mutex m' = 0 := fun m' =>
    (hi.tally m').eq_zero_iff.mpr (hfree m')
  obtain ⟨⟨r, w⟩, guards, undefined⟩ := s
  obtain rfl : r = 0 := hzero .shared
  cases w with
  | true => exact absurd (show 1 = 0 from hzero .exclusive) (by decide)
  | false => cases m <;> cases hm

/-- Two readers come and go, and a writer that has waited for them. -/
def readersThenWriter : List Label :=
  [.construct 0 .shared, .construct 1 .shared, .unlock 0, .unlock 0, .destroy 1, .construct 2 .exclusive]

example : ∃ s : State RW,
    runs (step RWMutex) (State.initial RWMutex) readersThenWriter = some s ∧
      s.undefined = false ∧ s.mutex = ⟨0, true⟩ ∧ Tally (s.has .shared) 0 := by
  obtain ⟨s, hr, hc⟩ := exists_of_runs (step RWMutex) (State.initial RWMutex) readersThenWriter
    (fun s => decide (s.mutex = ⟨0, true⟩)) (by decide)
  have hm : s.mutex = ⟨0, true⟩ := of_decide_eq_true hc
  obtain ⟨hu, ht, -⟩ := rwmutex_agrees (.of_runs (p := fun _ => True) .refl (fun _ _ => trivial) hr)
  rw [hm] at ht
  exact ⟨s, hr, hu, hm, ht⟩

/-- The flag of a `CASLock` is set exactly while one of its guards is locked. -/
theorem caslock_agrees {s : State Bool}
    (hr : Reach (step CASLock) (fun _ _ => True) (State.initial CASLock) s) :
    (s.mutex = true ↔ ∃ g, s.has .exclusive g = true) ∧
      ∀ g g', s.has .exclusive g = true → s.has .exclusive g' = true → g' = g := by
  have hi := Inv.reach CASLock.lawful hr
  have ht : Tally (s.has .exclusive) s.mutex.toNat := hi.tally .exclusive
  refine ⟨⟨fun hm => ?_, fun ⟨g, hg⟩ => ?_⟩, fun g g' hg hg' => (hi.alone hg hg').1⟩
  · by_contra hno
    have hzero := ht.eq_zero_iff.mpr fun g => by
      by_contra hg
      exact hno ⟨g, by simpa using hg⟩
    rw [hm] at hzero
    cases hzero
  · have hpos := ht.pos hg
    cases hm : s.mutex with
    | true => rfl
    | false =>
      rw [hm] at hpos
      exact absurd hpos (Nat.lt_irrefl 0)

/-- A guard comes and goes, and the next one has the lock. -/
def oneThenOther : List Label := [.construct 0 .exclusive, .unlock 0, .construct 1 .exclusive]

example : ∃ s : State Bool,
    runs (step CASLock) (State.initial CASLock) oneThenOther = some s ∧
      (∃ g, s.has .exclusive g = true) ∧
        ∀ g g', s.has .exclusive g = true → s.has .exclusive g' = true → g' = g := by
  obtain ⟨s, hr, hc⟩ := exists_of_runs (step CASLock) (State.initial CASLock) oneThenOther
    (fun s => s.mutex) (by decide)
  obtain ⟨hflag, halone⟩ :=
    caslock_agrees (.of_runs (p := fun _ => True) .refl (fun _ _ => trivial) hr)
  exact ⟨s, hr, hflag.mp hc, halone⟩

end Agree

/-! ### The locks with their holders named -/

/-- A lock with its holders forgotten. -/
def RW.ofHold : Hold → RW
  | .readers ts => ⟨ts.length, false⟩
  | .writer _ => ⟨0, true⟩

theorem RWMutex.lock_ofHold (h : Hold) (m : Mode) (t : ℕ) :
    RWMutex.lock m (.ofHold h) = (h.take t m).map .ofHold := by
  cases h with
  | writer u => cases m <;> rfl
  | readers ts =>
    cases m with
    | shared => rfl
    | exclusive => cases ts <;> rfl

theorem RWMutex.unlock_ofHold {h : Hold} {t : ℕ} (ht : t ∈ h.holders) :
    RWMutex.unlock (.ofHold h) = some (.ofHold (h.give t)) := by
  cases h with
  | writer u => rfl
  | readers ts =>
    have ht' : t ∈ ts := ht
    cases ts with
    | nil => cases ht
    | cons u us =>
      simp [RW.ofHold, RWMutex, Hold.give, List.length_erase_of_mem ht']

/-- A mutex that is only locked exclusively is locked while it has a holder. -/
theorem Mutex.lock_holders (h : Hold) (t : ℕ) :
    Mutex.lock .exclusive (!h.holders.isEmpty) =
      (h.take t .exclusive).map fun h' => !h'.holders.isEmpty := by
  cases h with
  | writer u => rfl
  | readers ts => cases ts <;> rfl

end LioNet.Guards
