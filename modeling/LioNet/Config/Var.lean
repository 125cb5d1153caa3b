import Mathlib.Data.Finset.Sort
import LioNet.Lib.Transition

/-!
# A configuration variable and the threads that use it

`ConfigVar<T>` of `config.h`.  Any number of threads call its functions; each function works in
sections under `m_mutex`, a reader-writer lock.

A phase of a thread names the next section, or the next access inside a read section: readers may
overlap, so a read section that makes several accesses takes several steps.  A write section excludes
everybody else and is one step; it is possible while `readers`, the number of read locks held, is 0.
`m_cbs.clear()` is in a read section and takes two: it walks over the map and frees its nodes, and others
may come in between.

`m_cbs` is a `std::map`, so it is walked in the order of the keys.  `log` records the calls of the
listeners in the order in which they happen; the program never reads it.  `FromStr` is the parameter
`fromStr`, with `none` where the conversion throws.  Listeners neither throw nor use the variable.
-/

namespace LioNet.ConfigVar

abbrev ListenerId := Nat
abbrev ThreadId := Nat

variable {T : Type}

inductive Op (T : Type)
  | setValue (v : T)
  | fromString (val : String)
  | getValue
  | addListener
  | delListener (key : ListenerId)
  | getListener (key : ListenerId)
  | clearListener
  deriving DecidableEq, Repr

inductive Phase (T : Type)
  /-- outside the variable's functions -/
  | idle
  /-- `setValue(v)`, its `ReadLock` comes next -/
  | setValue (v : T)
  /-- `setValue(v)` in its read section; `i` listeners have been called -/
  | notify (v : T) (i : Nat)
  /-- `setValue(v)`, its `WriteLock` comes next -/
  | store (v : T)
  | getValue
  | addListener
  | delListener (key : ListenerId)
  | getListener (key : ListenerId)
  /-- `getListener(key)` in its read section, `m_cbs.find` comes next -/
  | find (key : ListenerId)
  | clearListener
  /-- `clearListener()` in its read section, `m_cbs.clear` comes next -/
  | clear
  /-- in the middle of `m_cbs.clear` -/
  | clearing
  deriving DecidableEq, Repr

/-- One call of a listener. -/
structure Notice (T : Type) where
  key : ListenerId
  oldValue : T
  newValue : T
  deriving DecidableEq, Repr

structure State (T : Type) where
  val : T
  cbs : Finset ListenerId
  funId : Nat
  readers : Nat
  phase : ThreadId → Phase T
  log : List (Notice T)

inductive Label (T : Type)
  /-- thread `t` calls a function of the variable -/
  | call (t : ThreadId) (op : Op T)
  /-- the next access of thread `t` -/
  | move (t : ThreadId)
  deriving DecidableEq, Repr

/-- The constructor. -/
def State.construct (defaultValue : T) (cbs : Finset ListenerId) (funId : Nat) : State T where
  val := defaultValue
  cbs := cbs
  funId := funId
  readers := 0
  phase := fun _ => .idle
  log := []

/-- The listeners in the order in which `m_cbs` is walked. -/
def State.keys (s : State T) : List ListenerId := s.cbs.sort (· ≤ ·)

/-- What one listener was told, in order. -/
def State.heard (s : State T) (k : ListenerId) : List (T × T) :=
  (s.log.filter (·.key = k)).map fun n => (n.oldValue, n.newValue)

def State.goto (s : State T) (t : ThreadId) (p : Phase T) : State T :=
  { s with phase := Function.update s.phase t p }

/-- Take the read lock. -/
def State.rdlock (s : State T) : State T := { s with readers := s.readers + 1 }

/-- Give the read lock back. -/
def State.unlock (s : State T) : State T := { s with readers := s.readers - 1 }

/-- Call listener `k`. -/
def State.tell (s : State T) (k : ListenerId) (v : T) : State T :=
  { s with log := s.log ++ [⟨k, s.val, v⟩] }

section Goto

variable (s : State T) (t : ThreadId) (p : Phase T)

@[simp] theorem goto_val : (s.goto t p).val = s.val := rfl
@[simp] theorem goto_cbs : (s.goto t p).cbs = s.cbs := rfl
@[simp] theorem goto_keys : (s.goto t p).keys = s.keys := rfl
@[simp] theorem goto_readers : (s.goto t p).readers = s.readers := rfl
@[simp] theorem goto_phase : (s.goto t p).phase = Function.update s.phase t p := rfl
@[simp] theorem goto_log : (s.goto t p).log = s.log := rfl
@[simp] theorem goto_heard : (s.goto t p).heard = s.heard := rfl

variable {s t p}

/-- What holds of every thread's phase holds when one thread has gone to a phase for which it holds. -/
theorem forall_goto {P : ThreadId → Phase T → Prop} (h : ∀ t', P t' (s.phase t')) (hp : P t p) :
    ∀ t', P t' ((s.goto t p).phase t') := by
  intro t'
  by_cases e : t' = t
  · subst e
    simpa using hp
  · simpa [e] using h t'

end Goto

section Step

variable [BEq T] (fromStr : String → Option T)

/-- A call, up to the function's first lock.  `fromString` converts first; a conversion that throws
ends the call. -/
def State.call (s : State T) (t : ThreadId) : Op T → State T
  | .setValue v => s.goto t (.setValue v)
  | .fromString val =>
    match fromStr val with
    | some v => s.goto t (.setValue v)
    | none => s
  | .getValue => s.goto t .getValue
  | .addListener => s.goto t .addListener
  | .delListener k => s.goto t (.delListener k)
  | .getListener k => s.goto t (.getListener k)
  | .clearListener => s.goto t .clearListener

/-- The next access of a thread.  A walk over `m_cbs` reads the map as it is. -/
def State.move (s : State T) (t : ThreadId) : Option (State T) :=
  match s.phase t with
  | .idle => none
  | .setValue v =>
    if v == s.val then some (s.goto t .idle) else some (s.rdlock.goto t (.notify v 0))
  | .notify v i =>
    match s.keys[i]? with
    | some k => some ((s.tell k v).goto t (.notify v (i + 1)))
    | none => some (s.unlock.goto t (.store v))
  | .store v => if s.readers = 0 then some ({ s with val := v }.goto t .idle) else none
  | .getValue => some (s.goto t .idle)
  | .addListener =>
    if s.readers = 0 then
      some ({ s with funId := s.funId + 1, cbs := insert (s.funId + 1) s.cbs }.goto t .idle)
    else none
  | .delListener k =>
    if s.readers = 0 then some ({ s with cbs := s.cbs.erase k }.goto t .idle) else none
  | .getListener k => some (s.rdlock.goto t (.find k))
  | .find _ => some (s.unlock.goto t .idle)
  | .clearListener => some (s.rdlock.goto t .clear)
  | .clear => some (s.goto t .clearing)
  | .clearing => some ({ s with cbs := ∅ }.unlock.goto t .idle)

def step (s : State T) : Label T → Option (State T)
  | .call t op =>
    match s.phase t with
    | .idle => some (s.call fromStr t op)
    | _ => none
  | .move t => s.move t

end Step

/-! ### What a call can be -/

/-- The phases between a call and its first lock. -/
def Phase.called : Phase T → Bool
  | .setValue _ | .getValue | .addListener | .delListener _ | .getListener _ | .clearListener => true
  | .idle | .notify .. | .store _ | .find _ | .clear | .clearing => false

theorem call_cases (fromStr : String → Option T) (s : State T) (t : ThreadId) (op : Op T) :
    s.call fromStr t op = s ∨ ∃ p, p.called = true ∧ s.call fromStr t op = s.goto t p := by
  cases op with
  | fromString val =>
    cases hv : fromStr val with
    | some v =>
      right
      refine ⟨.setValue v, rfl, ?_⟩
      simp only [State.call, hv]
    | none =>
      left
      simp only [State.call, hv]
  | setValue | getValue | addListener | delListener | getListener | clearListener =>
    exact .inr ⟨_, rfl, rfl⟩

/-! ### What a move can be -/

section Moves

variable [BEq T] {s s' : State T} {t : ThreadId}

inductive Move (s : State T) (t : ThreadId) : State T → Prop
  /-- the value is the stored one -/
  | same {v : T} : s.phase t = .setValue v → (v == s.val) = true → Move s t (s.goto t .idle)
  | enter {v : T} : s.phase t = .setValue v → (v == s.val) = false →
      Move s t (s.rdlock.goto t (.notify v 0))
  | tell {v : T} {i : Nat} {k : ListenerId} : s.phase t = .notify v i → s.keys[i]? = some k →
      Move s t ((s.tell k v).goto t (.notify v (i + 1)))
  /-- the walk is over -/
  | told {v : T} {i : Nat} : s.phase t = .notify v i → s.keys[i]? = none →
      Move s t (s.unlock.goto t (.store v))
  | store {v : T} : s.phase t = .store v → s.readers = 0 → Move s t ({ s with val := v }.goto t .idle)
  | getValue : s.phase t = .getValue → Move s t (s.goto t .idle)
  | addListener : s.phase t = .addListener → s.readers = 0 →
      Move s t ({ s with funId := s.funId + 1, cbs := insert (s.funId + 1) s.cbs }.goto t .idle)
  | delListener {k : ListenerId} : s.phase t = .delListener k → s.readers = 0 →
      Move s t ({ s with cbs := s.cbs.erase k }.goto t .idle)
  | getListener {k : ListenerId} : s.phase t = .getListener k → Move s t (s.rdlock.goto t (.find k))
  | find {k : ListenerId} : s.phase t = .find k → Move s t (s.unlock.goto t .idle)
  | clearListener : s.phase t = .clearListener → Move s t (s.rdlock.goto t .clear)
  | clear : s.phase t = .clear → Move s t (s.goto t .clearing)
  | clearing : s.phase t = .clearing → Move s t ({ s with cbs := ∅ }.unlock.goto t .idle)

theorem move_of_move (h : s.move t = some s') : Move s t s' := by
  unfold State.move at h
  split at h
  · cases h
  · rename_i v hp
    split at h
    · rename_i hv
      obtain rfl := Option.some.inj h
      exact .same hp hv
    · rename_i hv
      obtain rfl := Option.some.inj h
      exact .enter hp (by simpa using hv)
  · rename_i v i hp
    split at h
    · rename_i k hk
      obtain rfl := Option.some.inj h
      exact .tell hp hk
    · rename_i hk
      obtain rfl := Option.some.inj h
      exact .told hp hk
  · rename_i v hp
    split at h
    · rename_i hr
      obtain rfl := Option.some.inj h
      exact .store hp hr
    · cases h
  · rename_i hp
    obtain rfl := Option.some.inj h
    exact .getValue hp
  · rename_i hp
    split at h
    · rename_i hr
      obtain rfl := Option.some.inj h
      exact .addListener hp hr
    · cases h
  · rename_i k hp
    split at h
    · rename_i hr
      obtain rfl := Option.some.inj h
      exact .delListener hp hr
    · cases h
  · rename_i k hp
    obtain rfl := Option.some.inj h
    exact .getListener hp
  · rename_i k hp
    obtain rfl := Option.some.inj h
    exact .find hp
  · rename_i hp
    obtain rfl := Option.some.inj h
    exact .clearListener hp
  · rename_i hp
    obtain rfl := Option.some.inj h
    exact .clear hp
  · rename_i hp
    obtain rfl := Option.some.inj h
    exact .clearing hp

variable {fromStr : String → Option T}

/-- A call is a call, and any other step is a move. -/
theorem step_cases {l : Label T} (h : step fromStr s l = some s') :
    (∃ t op, l = .call t op ∧ s.phase t = .idle ∧ s' = s.call fromStr t op) ∨
      ∃ t, l = .move t ∧ Move s t s' := by
  cases l with
  | call t op =>
    left
    dsimp only [step] at h
    split at h
    · rename_i hp
      exact ⟨t, op, rfl, hp, (Option.some.inj h).symm⟩
    · cases h
  | move t => exact .inr ⟨t, rfl, move_of_move h⟩

end Moves

end LioNet.ConfigVar
