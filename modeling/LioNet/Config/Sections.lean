import LioNet.Lib.Simulation
import LioNet.Lib.Tally
import LioNet.Mutex
import LioNet.Config.Var

/-!
# The sections of a configuration variable, access by access

`Var.lean` takes a write section as one step and looks at `m_mutex` as a number of readers.  Here the
mutex is the `RWMutex` of `mutex.h`, every `lock` and `unlock` is a step, and so is every access: an
assignment to `m_val` and a change of `m_cbs` take two steps, and in between the object is `torn`.
Whatever reads a torn object sets `fault`.

`sections_refine`: as long as nobody calls `clearListener`, which changes `m_cbs` under a read lock,
no access is a fault, and every run is one of `Var.lean`.  There a write section happens at its last
access, a read section at the access that decides how it goes on.
-/

namespace LioNet.ConfigVar.Sections

open Lib Lib.Locks Guards

/-- An object that may be in the middle of a change; `old` is what it was. -/
inductive Cell (α : Type)
  | whole (x : α)
  | torn (old : α)
  deriving DecidableEq, Repr

/-- What the object is, or was before the change. -/
def Cell.old {α : Type} : Cell α → α
  | .whole x | .torn x => x

def Cell.isTorn {α : Type} : Cell α → Bool
  | .whole _ => false
  | .torn _ => true

/-- What a thread does next. -/
inductive Phase (T : Type)
  | idle
  | setValue (v : T)
  /-- `v == m_val` -/
  | compare (v : T)
  | notify (v : T) (i : Nat)
  | told (v : T)
  | store (v : T)
  /-- `m_val = v` begins -/
  | assign (v : T)
  | assigning (v : T)
  | getValue
  /-- `return m_val` -/
  | copy
  | addListener
  /-- `++s_fun_id` -/
  | count
  /-- `m_cbs[s_fun_id] = cb` begins -/
  | insert
  | inserting
  | delListener (key : ListenerId)
  | erase (key : ListenerId)
  | erasing (key : ListenerId)
  | getListener (key : ListenerId)
  | find (key : ListenerId)
  | clearListener
  | clear
  | clearing
  /-- the end of a section, which is the last of its call -/
  | readUnlock
  | writeUnlock
  deriving DecidableEq, Repr

structure State (T : Type) where
  m_mutex : RW
  m_val : Cell T
  m_cbs : Cell (Finset ListenerId)
  funId : Nat
  phase : ThreadId → Phase T
  log : List (Notice T)
  fault : Bool

variable {T : Type}

/-- The constructor. -/
def State.construct (defaultValue : T) (cbs : Finset ListenerId) (funId : Nat) : State T where
  m_mutex := RWMutex.construct
  m_val := .whole defaultValue
  m_cbs := .whole cbs
  funId := funId
  phase := fun _ => .idle
  log := []
  fault := false

def State.goto (s : State T) (t : ThreadId) (p : Phase T) : State T :=
  { s with phase := Function.update s.phase t p }

/-- The lock that comes next, and what follows it. -/
def Phase.lockNext : Phase T → Option (Mode × Phase T)
  | .setValue v => some (.shared, .compare v)
  | .store v => some (.exclusive, .assign v)
  | .getValue => some (.shared, .copy)
  | .addListener => some (.exclusive, .count)
  | .delListener k => some (.exclusive, .erase k)
  | .getListener k => some (.shared, .find k)
  | .clearListener => some (.shared, .clear)
  | _ => none

/-- The unlock that comes next, and what follows it. -/
def Phase.unlockNext : Phase T → Option (Phase T)
  | .told v => some (.store v)
  | .readUnlock | .writeUnlock => some .idle
  | _ => none

/-- `m_val` is read. -/
def State.readVal (s : State T) : State T := { s with fault := s.fault || s.m_val.isTorn }

/-- `m_cbs` is read. -/
def State.readCbs (s : State T) : State T := { s with fault := s.fault || s.m_cbs.isTorn }

/-- Call listener `k`, with `m_val` as it is. -/
def State.tell (s : State T) (k : ListenerId) (v : T) : State T :=
  { s.readVal with log := s.log ++ [⟨k, s.m_val.old, v⟩] }

section Step

variable [BEq T] (fromStr : String → Option T)

/-- The next access of a thread that is in a section. -/
def State.access (s : State T) (t : ThreadId) : Option (State T) :=
  match s.phase t with
  | .compare v =>
    some (s.readVal.goto t (if v == s.m_val.old then .readUnlock else .notify v 0))
  | .notify v i =>
    match (s.m_cbs.old.sort (· ≤ ·))[i]? with
    | some k => some ((s.readCbs.tell k v).goto t (.notify v (i + 1)))
    | none => some (s.readCbs.goto t (.told v))
  | .assign v => some ({ s with m_val := .torn s.m_val.old }.goto t (.assigning v))
  | .assigning v => some ({ s with m_val := .whole v }.goto t .writeUnlock)
  | .copy => some (s.readVal.goto t .readUnlock)
  | .count => some ({ s with funId := s.funId + 1 }.goto t .insert)
  | .insert => some ({ s with m_cbs := .torn s.m_cbs.old }.goto t .inserting)
  | .inserting =>
    some ({ s with m_cbs := .whole (Insert.insert s.funId s.m_cbs.old) }.goto t .writeUnlock)
  | .erase k => some ({ s with m_cbs := .torn s.m_cbs.old }.goto t (.erasing k))
  | .erasing k => some ({ s with m_cbs := .whole (s.m_cbs.old.erase k) }.goto t .writeUnlock)
  | .find _ => some (s.readCbs.goto t .readUnlock)
  | .clear => some ({ s with m_cbs := .torn s.m_cbs.old }.goto t .clearing)
  | .clearing => some ({ s with m_cbs := .whole ∅ }.goto t .readUnlock)
  | _ => none

def State.move (s : State T) (t : ThreadId) : Option (State T) :=
  match (s.phase t).lockNext with
  | some (m, p) => (RWMutex.lock m s.m_mutex).map fun x => { s with m_mutex := x }.goto t p
  | none =>
    match (s.phase t).unlockNext with
    | some p => (RWMutex.unlock s.m_mutex).map fun x => { s with m_mutex := x }.goto t p
    | none => s.access t

/-- A call, up to the function's first lock. -/
def State.call (s : State T) (t : ThreadId) : Op T → State T
  | .setValue v => s.goto t (.setValue v)
  | .fromString val =>
    match fromStr val with
    | some v => s.goto t (.setValue v)
    | none => s
  | .getValue => s.goto t .getValue
  | .addListener => s.goto t .addListener
  | .delListener k => s.goto t (.delListener k)
  | .getListener k => s.goto t (.getListener k)
  | .clearListener => s.goto t .clearListener

def step (s : State T) : Label T → Option (State T)
  | .call t op =>
    match s.phase t with
    | .idle => some (s.call fromStr t op)
    | _ => none
  | .move t => s.move t

end Step

/-! ### Where a thread is in `Var.lean` -/

def Phase.coarse : Phase T → ConfigVar.Phase T
  | .idle | .readUnlock | .writeUnlock => .idle
  | .setValue v | .compare v => .setValue v
  | .notify v i => .notify v i
  | .told v | .store v | .assign v | .assigning v => .store v
  | .getValue | .copy => .getValue
  | .addListener | .count | .insert | .inserting => .addListener
  | .delListener k | .erase k | .erasing k => .delListener k
  | .getListener k | .find k => .getListener k
  | .clearListener | .clear => .clearListener
  | .clearing => .clearing

/-- The lock that a thread has. -/
def Phase.holds : Phase T → Option Mode
  | .compare _ | .notify .. | .told _ | .copy | .find _ | .clear | .clearing | .readUnlock =>
    some .shared
  | .assign _ | .assigning _ | .count | .insert | .inserting | .erase _ | .erasing _ | .writeUnlock =>
    some .exclusive
  | _ => none

/-- `m_val` is torn. -/
def Phase.tearsVal : Phase T → Bool
  | .assigning _ => true
  | _ => false

/-- `m_cbs` is torn. -/
def Phase.tearsCbs : Phase T → Bool
  | .inserting | .erasing _ => true
  | _ => false

/-- `s_fun_id` is that of a listener which is not in `m_cbs` yet. -/
def Phase.counted : Phase T → Bool
  | .insert | .inserting => true
  | _ => false

def Phase.clears : Phase T → Bool
  | .clearListener | .clear | .clearing => true
  | _ => false

/-- Nobody calls `clearListener`. -/
def NoClear : Label T → Prop
  | .call _ .clearListener => False
  | _ => True

/-- A walk over `m_cbs` in `Var.lean`, where the readers of other sections are not counted. -/
def walks : ConfigVar.Phase T → Bool
  | .notify .. => true
  | _ => false

/-! ### The two levels -/

/-- A run of accesses and the run of `Var.lean` that it is. -/
structure Sim (s : State T) (a : ConfigVar.State T) : Prop where
  phase : ∀ t, a.phase t = (s.phase t).coarse
  mutex : ∀ m, Tally (fun t => (s.phase t).holds == some m) (s.m_mutex.count m)
  excl : Excl s.m_mutex.count
  readers : Tally (fun t => walks (a.phase t)) a.readers
  val : s.m_val.old = a.val
  tornVal : Tally (fun t => (s.phase t).tearsVal) s.m_val.isTorn.toNat
  cbs : s.m_cbs.old = a.cbs
  tornCbs : Tally (fun t => (s.phase t).tearsCbs) s.m_cbs.isTorn.toNat
  funId : ∃ n, Tally (fun t => (s.phase t).counted) n ∧ s.funId = a.funId + n
  log : s.log = a.log
  clears : ∀ t, (s.phase t).clears = false
  fault : s.fault = false

section Sim

variable {s s' : State T} {a a' : ConfigVar.State T} {t : ThreadId} {p : Phase T}

theorem goto_phase (s : State T) (t t' : ThreadId) (p : Phase T) :
    (s.goto t p).phase t' = if t' = t then p else s.phase t' := Function.update_apply ..

theorem Sim.construct (defaultValue : T) (cbs : Finset ListenerId) (funId : Nat) :
    Sim (State.construct defaultValue cbs funId) (.construct defaultValue cbs funId) where
  phase _ := rfl
  mutex m := by
    cases m with
    | shared => exact tally_none fun _ => rfl
    | exclusive => exact tally_none fun _ => rfl
  excl h := absurd h (Nat.lt_irrefl 0)
  readers := tally_none fun _ => rfl
  val := rfl
  tornVal := tally_none fun _ => rfl
  cbs := rfl
  tornCbs := tally_none fun _ => rfl
  funId := ⟨0, tally_none fun _ => rfl, rfl⟩
  log := rfl
  clears _ := rfl
  fault := rfl

/-- **One thread goes on**, in both levels: what has to be checked is what it changes. -/
theorem Sim.goto (h : Sim s a) (hp : s'.phase = Function.update s.phase t p)
    (ha : a'.phase = Function.update a.phase t p.coarse)
    (hm : ∀ m, s'.m_mutex.count m = s.m_mutex.count m + (p.holds == some m).toNat -
      ((s.phase t).holds == some m).toNat)
    (hx : Excl s'.m_mutex.count)
    (hr : a'.readers = a.readers + (walks p.coarse).toNat - (walks (s.phase t).coarse).toNat)
    (hval : s'.m_val.old = a'.val)
    (hval' : s'.m_val.isTorn.toNat =
      s.m_val.isTorn.toNat + p.tearsVal.toNat - (s.phase t).tearsVal.toNat)
    (hcbs : s'.m_cbs.old = a'.cbs)
    (hcbs' : s'.m_cbs.isTorn.toNat =
      s.m_cbs.isTorn.toNat + p.tearsCbs.toNat - (s.phase t).tearsCbs.toNat)
    (hf : s'.funId + a.funId + (s.phase t).counted.toNat = s.funId + a'.funId + p.counted.toNat)
    (hl : s'.log = a'.log) (hc : p.clears = false) (hfault : s'.fault = false) : Sim s' a' := by
  have hself : s'.phase t = p := by rw [hp, Function.update_self]
  have hother : ∀ t', t' ≠ t → s'.phase t' = s.phase t' := fun t' ht' => by
    rw [hp, Function.update_of_ne ht']
  have haself : a'.phase t = p.coarse := by rw [ha, Function.update_self]
  have haother : ∀ t', t' ≠ t → a'.phase t' = a.phase t' := fun t' ht' => by
    rw [ha, Function.update_of_ne ht']
  refine ⟨fun t' => ?_, fun m => ?_, hx, ?_, hval, ?_, hcbs, ?_, ?_, hl, fun t' => ?_, hfault⟩
  · by_cases ht' : t' = t
    · rw [ht', haself, hself]
    · rw [haother t' ht', hother t' ht', h.phase t']
  · exact (h.mutex m).move (fun t' ht' => by rw [hother t' ht']) (by rw [hself, hm])
  · exact h.readers.move (fun t' ht' => by rw [haother t' ht']) (by rw [haself, hr, h.phase t])
  · exact h.tornVal.move (fun t' ht' => by rw [hother t' ht']) (by rw [hself, hval'])
  · exact h.tornCbs.move (fun t' ht' => by rw [hother t' ht']) (by rw [hself, hcbs'])
  · obtain ⟨n, hn, he⟩ := h.funId
    have hpos : (s.phase t).counted.toNat ≤ n := by
      cases hct : (s.phase t).counted with
      | false => exact Nat.zero_le n
      | true => exact hn.pos hct
    refine ⟨n + p.counted.toNat - (s.phase t).counted.toNat,
      hn.move (fun t' ht' => by rw [hother t' ht']) (by rw [hself]), ?_⟩
    omega
  · by_cases ht' : t' = t
    · rw [ht', hself, hc]
    · rw [hother t' ht', h.clears t']

/-- While a thread writes, no other thread has the lock. -/
theorem Sim.alone (h : Sim s a) (ht : (s.phase t).holds = some .exclusive) {t' : ThreadId}
    (ht' : t' ≠ t) : (s.phase t').holds = none := by
  have hw : 0 < s.m_mutex.count .exclusive := (h.mutex .exclusive).pos (i := t) (by simp [ht])
  obtain ⟨hone, hzero⟩ := h.excl hw
  cases hh : (s.phase t').holds with
  | none => rfl
  | some m =>
    exfalso
    cases m with
    | shared =>
      have hpos := (h.mutex .shared).pos (i := t') (by simp [hh])
      omega
    | exclusive =>
      have hw := h.mutex .exclusive
      rw [hone] at hw
      exact ht' (hw.eq_of_one (by simp [hh]) (by simp [ht]))

/-- What only a writing thread does: a thread that has the lock is the only one that can. -/
theorem Sim.only (h : Sim s a) {m : Mode} (ht : (s.phase t).holds = some m) {f : Phase T → Bool}
    (hf : ∀ q, f q = true → q.holds = some .exclusive) {b : Bool}
    (hb : Tally (fun t => f (s.phase t)) b.toNat) : b = f (s.phase t) := by
  cases b with
  | false => exact (hb.eq_zero_iff.mp rfl t).symm
  | true =>
    by_contra hne
    have hnone : ∀ t', f (s.phase t') = false := by
      intro t'
      by_cases ht' : t = t'
      · subst ht'
        simpa using Ne.symm hne
      · by_contra hft
        have hex := hf _ (by simpa using hft)
        rw [h.alone hex ht'] at ht
        cases ht
    exact absurd (hb.eq_zero_iff.mpr hnone) (by decide)

theorem tearsVal_holds (q : Phase T) (h : q.tearsVal = true) : q.holds = some .exclusive := by
  cases q with
  | assigning v => rfl
  | _ => cases h

theorem tearsCbs_holds (q : Phase T) (h : q.tearsCbs = true) : q.holds = some .exclusive := by
  cases q with
  | inserting | erasing => rfl
  | _ => cases h

theorem counted_holds (q : Phase T) (h : q.counted = true) : q.holds = some .exclusive := by
  cases q with
  | insert | inserting => rfl
  | _ => cases h

/-- What only a writing thread does, nobody does while the mutex has no writer. -/
theorem Sim.nobody (h : Sim s a) (hw : s.m_mutex.writer = false) {f : Phase T → Bool}
    (hf : ∀ q, f q = true → q.holds = some .exclusive) (t : ThreadId) : f (s.phase t) = false := by
  have hzero : s.m_mutex.count .exclusive = 0 := by
    show s.m_mutex.writer.toNat = 0
    rw [hw]
    rfl
  by_contra hft
  have hnone := (h.mutex .exclusive).eq_zero_iff.mp hzero t
  rw [hf _ (by simpa using hft)] at hnone
  cases hnone

/-- A thread that has the lock finds both objects whole, unless it tears them itself. -/
theorem Sim.whole (h : Sim s a) {m : Mode} (ht : (s.phase t).holds = some m) :
    s.m_val.isTorn = (s.phase t).tearsVal ∧ s.m_cbs.isTorn = (s.phase t).tearsCbs :=
  ⟨h.only ht tearsVal_holds h.tornVal, h.only ht tearsCbs_holds h.tornCbs⟩

/-- While a thread writes, nobody walks. -/
theorem Sim.no_readers (h : Sim s a) (ht : (s.phase t).holds = some .exclusive) : a.readers = 0 := by
  refine h.readers.eq_zero_iff.mpr fun t' => ?_
  by_cases ht' : t' = t
  · rw [ht', h.phase t]
    cases hp : s.phase t with
    | notify v i =>
      rw [hp] at ht
      cases ht
    | _ => rfl
  · have hn := h.alone ht ht'
    rw [h.phase t']
    cases hp : s.phase t' with
    | notify v i =>
      rw [hp] at hn
      cases hn
    | _ => rfl

/-! ### Locks and unlocks -/

theorem lockNext_cases {q : Phase T} {m : Mode} (h : q.lockNext = some (m, p)) :
    q.holds = none ∧ p.holds = some m ∧ p.coarse = q.coarse ∧ p.clears = q.clears ∧
      (q.tearsVal = false ∧ q.tearsCbs = false ∧ q.counted = false) ∧
      (p.tearsVal = false ∧ p.tearsCbs = false ∧ p.counted = false) := by
  cases q <;> cases h <;> simp [Phase.holds, Phase.coarse, Phase.clears, Phase.tearsVal,
    Phase.tearsCbs, Phase.counted]

theorem unlockNext_cases {q : Phase T} (h : q.unlockNext = some p) :
    (∃ m, q.holds = some m) ∧ p.holds = none ∧ p.coarse = q.coarse ∧ p.clears = q.clears ∧
      (q.tearsVal = false ∧ q.tearsCbs = false ∧ q.counted = false) ∧
      (p.tearsVal = false ∧ p.tearsCbs = false ∧ p.counted = false) := by
  cases q <;> cases h <;> simp [Phase.holds, Phase.coarse, Phase.clears, Phase.tearsVal,
    Phase.tearsCbs, Phase.counted]

/-- A thread that locks or unlocks does nothing in `Var.lean`. -/
theorem Sim.stay (h : Sim s a) {x : RW} (hcoarse : p.coarse = (s.phase t).coarse)
    (hclears : p.clears = (s.phase t).clears)
    (hq : (s.phase t).tearsVal = false ∧ (s.phase t).tearsCbs = false ∧ (s.phase t).counted = false)
    (hp : p.tearsVal = false ∧ p.tearsCbs = false ∧ p.counted = false)
    (hm : ∀ m, x.count m = s.m_mutex.count m + (p.holds == some m).toNat -
      ((s.phase t).holds == some m).toNat) (hx : Excl x.count) :
    Sim ({ s with m_mutex := x }.goto t p) a := by
  refine h.goto (t := t) (p := p) rfl ?_ hm hx ?_ h.val ?_ h.cbs ?_ ?_ h.log ?_ h.fault
  · rw [hcoarse, ← h.phase t, Function.update_eq_self]
  · rw [hcoarse, Nat.add_sub_cancel]
  · rw [hq.1, hp.1]
    rfl
  · rw [hq.2.1, hp.2.1]
    rfl
  · rw [hq.2.2, hp.2.2]
    rfl
  · rw [hclears, h.clears t]

theorem Sim.lock (h : Sim s a) {m : Mode} {x : RW} (hn : (s.phase t).lockNext = some (m, p))
    (hx : RWMutex.lock m s.m_mutex = some x) : Sim ({ s with m_mutex := x }.goto t p) a := by
  obtain ⟨hq, hp, hcoarse, hclears, hq', hp'⟩ := lockNext_cases hn
  obtain ⟨⟨hw, hr⟩, hcount⟩ := RWMutex.lawful.lock hx
  refine h.stay hcoarse hclears hq' hp' (fun m' => ?_) (fun hpos => ?_)
  · rw [hcount, hp, hq]
    by_cases hm : m' = m
    · simp [hm]
    · simp [hm, Ne.symm hm]
  · cases m with
    | shared => simp [hcount, hw] at hpos
    | exclusive => simp [hcount, hw, hr]

theorem Sim.unlock (h : Sim s a) {x : RW} (hn : (s.phase t).unlockNext = some p)
    (hx : RWMutex.unlock s.m_mutex = some x) : Sim ({ s with m_mutex := x }.goto t p) a := by
  obtain ⟨⟨m, hq⟩, hp, hcoarse, hclears, hq', hp'⟩ := unlockNext_cases hn
  have hpos : 0 < s.m_mutex.count m := (h.mutex m).pos (i := t) (by simp [hq])
  obtain ⟨y, hy, hcount⟩ := RWMutex.lawful.unlock h.excl hpos
  obtain rfl : y = x := Option.some.inj (hy.symm.trans hx)
  refine h.stay hcoarse hclears hq' hp' (fun m' => ?_) (fun hpos' => ?_)
  · rw [hcount, hp, hq]
    by_cases hm : m' = m
    · simp [hm]
    · have hm' : (m == m') = false := beq_eq_false_iff_ne.mpr (Ne.symm hm)
      simp [hm, hm']
  · rw [hcount] at hpos'
    have hex := h.excl (by omega)
    simp only [hcount]
    omega

/-! ### Accesses -/

/-- An access of a thread in a section leaves the mutex alone. -/
theorem Sim.inside (h : Sim s a) {q : Phase T} (hq : s.phase t = q)
    (hp : s'.phase = Function.update s.phase t p)
    (ha : a'.phase = Function.update a.phase t p.coarse) (hmu : s'.m_mutex = s.m_mutex)
    (hh : p.holds = q.holds)
    (hr : a'.readers = a.readers + (walks p.coarse).toNat - (walks q.coarse).toNat)
    (hval : s'.m_val.old = a'.val)
    (hval' : s'.m_val.isTorn.toNat = s.m_val.isTorn.toNat + p.tearsVal.toNat - q.tearsVal.toNat)
    (hcbs : s'.m_cbs.old = a'.cbs)
    (hcbs' : s'.m_cbs.isTorn.toNat = s.m_cbs.isTorn.toNat + p.tearsCbs.toNat - q.tearsCbs.toNat)
    (hf : s'.funId + a.funId + q.counted.toNat = s.funId + a'.funId + p.counted.toNat)
    (hl : s'.log = a'.log) (hc : p.clears = false) (hfault : s'.fault = false) : Sim s' a' := by
  subst hq
  refine h.goto hp ha (fun m => ?_) ?_ hr hval hval' hcbs hcbs' hf hl hc hfault
  · rw [hmu, hh, Nat.add_sub_cancel]
  · rw [hmu]
    exact h.excl

/-- An access that is none in `Var.lean`: the thread stays in its phase there. -/
theorem Sim.begin (h : Sim s a) {q : Phase T} (hq : s.phase t = q)
    (hp : s'.phase = Function.update s.phase t p) (hcoarse : p.coarse = q.coarse)
    (hmu : s'.m_mutex = s.m_mutex) (hh : p.holds = q.holds) (hval : s'.m_val.old = s.m_val.old)
    (hval' : s'.m_val.isTorn.toNat = s.m_val.isTorn.toNat + p.tearsVal.toNat - q.tearsVal.toNat)
    (hcbs : s'.m_cbs.old = s.m_cbs.old)
    (hcbs' : s'.m_cbs.isTorn.toNat = s.m_cbs.isTorn.toNat + p.tearsCbs.toNat - q.tearsCbs.toNat)
    (hf : s'.funId + q.counted.toNat = s.funId + p.counted.toNat) (hl : s'.log = s.log)
    (hc : p.clears = false) (hfault : s'.fault = s.fault) : Sim s' a := by
  refine h.inside hq hp ?_ hmu hh ?_ (hval.trans h.val) hval' (hcbs.trans h.cbs) hcbs' ?_
    (hl.trans h.log) hc (hfault.trans h.fault)
  · rw [hcoarse, ← hq, ← h.phase t, Function.update_eq_self]
  · rw [hcoarse, Nat.add_sub_cancel]
  · omega

/-- A thread that reads under a lock reads whole objects. -/
theorem Sim.reads (h : Sim s a) {q : Phase T} (hq : s.phase t = q) (ht : q.holds = some .shared) :
    s.readVal = s ∧ s.readCbs = s := by
  subst hq
  obtain ⟨hv, hc⟩ := h.whole ht
  have hv' : s.m_val.isTorn = false := by
    cases hp : s.phase t with
    | assigning v =>
      rw [hp] at ht
      cases ht
    | _ =>
      rw [hp] at hv
      exact hv
  have hc' : s.m_cbs.isTorn = false := by
    cases hp : s.phase t with
    | inserting | erasing =>
      rw [hp] at ht
      cases ht
    | _ =>
      rw [hp] at hc
      exact hc
  simp only [State.readVal, State.readCbs, hv', hc', Bool.or_false, and_self]

variable [BEq T] {fromStr : String → Option T}

/-- What `Var.lean` does at an access. -/
abbrev Matched (fromStr : String → Option T) (s' : State T) (a : ConfigVar.State T) : Prop :=
  ∃ a', Reach (ConfigVar.step fromStr) (fun _ l => NoClear l) a a' ∧ Sim s' a'

theorem Sim.compare (h : Sim s a) {v : T} (ht : s.phase t = .compare v) :
    Matched fromStr
      (s.readVal.goto t (if v == s.m_val.old then .readUnlock else .notify v 0)) a := by
  have ha : a.phase t = .setValue v := by rw [h.phase, ht]; rfl
  rw [(h.reads ht rfl).1, h.val]
  cases he : v == a.val with
  | true =>
    refine matched_step (m := .move t) (b := a.goto t .idle) trivial ?_ ?_
    · simp [ConfigVar.step, ConfigVar.State.move, ha, he]
    · exact h.inside ht rfl rfl rfl rfl rfl h.val rfl h.cbs rfl (by rfl) h.log rfl h.fault
  | false =>
    refine matched_step (m := .move t) (b := a.rdlock.goto t (.notify v 0)) trivial ?_ ?_
    · simp [ConfigVar.step, ConfigVar.State.move, ha, he]
    · exact h.inside ht rfl rfl rfl rfl rfl h.val rfl h.cbs rfl (by rfl) h.log rfl h.fault

theorem Sim.notify (h : Sim s a) {v : T} {i : Nat} (ht : s.phase t = .notify v i) :
    Matched fromStr
      (match (s.m_cbs.old.sort (· ≤ ·))[i]? with
        | some k => (s.readCbs.tell k v).goto t (.notify v (i + 1))
        | none => s.readCbs.goto t (.told v)) a := by
  have ha : a.phase t = .notify v i := by rw [h.phase, ht]; rfl
  obtain ⟨hrv, hrc⟩ := h.reads ht rfl
  rw [hrc, h.cbs]
  unfold State.tell
  rw [hrv]
  cases hk : (a.cbs.sort (· ≤ ·))[i]? with
  | some k =>
    refine matched_step (m := .move t) (b := (a.tell k v).goto t (.notify v (i + 1))) trivial ?_ ?_
    · simp [ConfigVar.step, ConfigVar.State.move, ha, ConfigVar.State.keys, hk]
    · refine h.inside ht rfl rfl rfl rfl rfl h.val rfl h.cbs rfl (by rfl) ?_ rfl h.fault
      show s.log ++ _ = a.log ++ _
      rw [h.log, h.val]
  | none =>
    refine matched_step (m := .move t) (b := a.unlock.goto t (.store v)) trivial ?_ ?_
    · simp [ConfigVar.step, ConfigVar.State.move, ha, ConfigVar.State.keys, hk]
    · exact h.inside ht rfl rfl rfl rfl rfl h.val rfl h.cbs rfl (by rfl) h.log rfl h.fault

theorem Sim.assigning (h : Sim s a) {v : T} (ht : s.phase t = .assigning v) :
    Matched fromStr ({ s with m_val := .whole v }.goto t .writeUnlock) a := by
  have ha : a.phase t = .store v := by rw [h.phase, ht]; rfl
  have htorn := (h.whole (t := t) (m := .exclusive) (by rw [ht]; rfl)).1
  rw [ht] at htorn
  refine matched_step (m := .move t) (b := { a with val := v }.goto t .idle) trivial ?_ ?_
  · simp [ConfigVar.step, ConfigVar.State.move, ha, h.no_readers (by rw [ht]; rfl)]
  · refine h.inside ht rfl rfl rfl rfl rfl rfl ?_ h.cbs rfl (by rfl) h.log rfl h.fault
    rw [htorn]
    rfl

theorem Sim.copy (h : Sim s a) (ht : s.phase t = .copy) :
    Matched fromStr (s.readVal.goto t .readUnlock) a := by
  have ha : a.phase t = .getValue := by rw [h.phase, ht]; rfl
  rw [(h.reads ht rfl).1]
  refine matched_step (m := .move t) (b := a.goto t .idle) trivial ?_ ?_
  · simp [ConfigVar.step, ConfigVar.State.move, ha]
  · exact h.inside ht rfl rfl rfl rfl rfl h.val rfl h.cbs rfl (by rfl) h.log rfl h.fault

theorem Sim.inserting (h : Sim s a) (ht : s.phase t = .inserting) :
    Matched fromStr
      ({ s with m_cbs := .whole (Insert.insert s.funId s.m_cbs.old) }.goto t .writeUnlock) a := by
  have ha : a.phase t = .addListener := by rw [h.phase, ht]; rfl
  have htorn := (h.whole (t := t) (m := .exclusive) (by rw [ht]; rfl)).2
  rw [ht] at htorn
  -- the thread itself is the only one that has counted
  have hone : Tally (fun t' => (s.phase t').counted) 1 := by
    refine (tally_none (f := fun _ : ThreadId => false) fun _ => rfl).move (i := t)
      (fun t' ht' => ?_) ?_
    · have hnone := h.alone (by rw [ht]; rfl) ht'
      cases hp : s.phase t' with
      | insert | inserting =>
        rw [hp] at hnone
        cases hnone
      | _ => rfl
    · rw [ht]
      rfl
  have hid : s.funId = a.funId + 1 := by
    obtain ⟨n, hn, he⟩ := h.funId
    rw [he, hn.unique hone]
  refine matched_step (m := .move t) (b :=
    { a with funId := a.funId + 1, cbs := Insert.insert (a.funId + 1) a.cbs }.goto t .idle) trivial ?_ ?_
  · simp [ConfigVar.step, ConfigVar.State.move, ha, h.no_readers (by rw [ht]; rfl)]
  · refine h.inside ht rfl rfl rfl rfl rfl h.val rfl ?_ ?_ ?_ h.log rfl h.fault
    · show Insert.insert s.funId s.m_cbs.old = Insert.insert (a.funId + 1) a.cbs
      rw [hid, h.cbs]
    · rw [htorn]
      rfl
    · show s.funId + a.funId + 1 = s.funId + (a.funId + 1) + 0
      omega

theorem Sim.erasing (h : Sim s a) {k : ListenerId} (ht : s.phase t = .erasing k) :
    Matched fromStr ({ s with m_cbs := .whole (s.m_cbs.old.erase k) }.goto t .writeUnlock) a := by
  have ha : a.phase t = .delListener k := by rw [h.phase, ht]; rfl
  have htorn := (h.whole (t := t) (m := .exclusive) (by rw [ht]; rfl)).2
  rw [ht] at htorn
  refine matched_step (m := .move t) (b := { a with cbs := a.cbs.erase k }.goto t .idle) trivial ?_ ?_
  · simp [ConfigVar.step, ConfigVar.State.move, ha, h.no_readers (by rw [ht]; rfl)]
  · refine h.inside ht rfl rfl rfl rfl rfl h.val rfl ?_ ?_ (by rfl) h.log rfl h.fault
    · show s.m_cbs.old.erase k = a.cbs.erase k
      rw [h.cbs]
    · rw [htorn]
      rfl

/-- In `Var.lean` a read section of `getListener` takes two steps. -/
theorem Sim.find (h : Sim s a) {k : ListenerId} (ht : s.phase t = .find k) :
    Matched fromStr (s.readCbs.goto t .readUnlock) a := by
  have ha : a.phase t = .getListener k := by rw [h.phase, ht]; rfl
  rw [(h.reads ht rfl).2]
  refine ⟨(a.rdlock.goto t (.find k)).unlock.goto t .idle, ?_, ?_⟩
  · have hread : ConfigVar.step fromStr a (.move t) = some (a.rdlock.goto t (.find k)) := by
      simp [ConfigVar.step, ConfigVar.State.move, ha]
    refine .move (l := .move t) (.move (l := .move t) .refl trivial hread) trivial ?_
    simp [ConfigVar.step, ConfigVar.State.move]
  · refine h.inside ht rfl ?_ rfl rfl ?_ h.val rfl h.cbs rfl (by rfl) h.log rfl h.fault
    · simp [ConfigVar.State.goto, ConfigVar.State.unlock, ConfigVar.State.rdlock, Phase.coarse]
    · rfl

/-- **Every access is none in `Var.lean`, or the next move of the thread there.** -/
theorem Sim.access (h : Sim s a) (hs : s.access t = some s') : Matched fromStr s' a := by
  unfold State.access at hs
  split at hs
  · rename_i v ht
    obtain rfl := Option.some.inj hs
    exact h.compare ht
  · rename_i v i ht
    have hn : Matched fromStr _ a := h.notify ht
    split at hs
    · rename_i k hk
      obtain rfl := Option.some.inj hs
      simpa only [hk] using hn
    · rename_i hk
      obtain rfl := Option.some.inj hs
      simpa only [hk] using hn
  · rename_i v ht
    obtain rfl := Option.some.inj hs
    have htorn := (h.whole (t := t) (m := .exclusive) (by rw [ht]; rfl)).1
    rw [ht] at htorn
    exact matched_refl (h.begin ht rfl rfl rfl rfl rfl (by rw [htorn]; rfl) rfl rfl rfl rfl rfl rfl)
  · rename_i v ht
    obtain rfl := Option.some.inj hs
    exact h.assigning ht
  · rename_i ht
    obtain rfl := Option.some.inj hs
    exact h.copy ht
  · rename_i ht
    obtain rfl := Option.some.inj hs
    exact matched_refl (h.begin ht rfl rfl rfl rfl rfl rfl rfl rfl (by rfl) rfl rfl rfl)
  · rename_i ht
    obtain rfl := Option.some.inj hs
    have htorn := (h.whole (t := t) (m := .exclusive) (by rw [ht]; rfl)).2
    rw [ht] at htorn
    exact matched_refl (h.begin ht rfl rfl rfl rfl rfl rfl rfl (by rw [htorn]; rfl) rfl rfl rfl rfl)
  · rename_i ht
    obtain rfl := Option.some.inj hs
    exact h.inserting ht
  · rename_i k ht
    obtain rfl := Option.some.inj hs
    have htorn := (h.whole (t := t) (m := .exclusive) (by rw [ht]; rfl)).2
    rw [ht] at htorn
    exact matched_refl (h.begin ht rfl rfl rfl rfl rfl rfl rfl (by rw [htorn]; rfl) rfl rfl rfl rfl)
  · rename_i k ht
    obtain rfl := Option.some.inj hs
    exact h.erasing ht
  · rename_i k ht
    obtain rfl := Option.some.inj hs
    exact h.find ht
  · rename_i ht
    have hc := h.clears t
    rw [ht] at hc
    cases hc
  · rename_i ht
    have hc := h.clears t
    rw [ht] at hc
    cases hc
  · cases hs

omit [BEq T] in
variable (fromStr) in
theorem called_cases (s : State T) (t : ThreadId) {op : Op T} (hop : op ≠ .clearListener) :
    s.call fromStr t op = s ∨ ∃ p : Phase T, s.call fromStr t op = s.goto t p ∧
      (∀ a : ConfigVar.State T, a.call fromStr t op = a.goto t p.coarse) ∧ p.holds = none ∧
      p.clears = false ∧ walks p.coarse = false ∧ p.tearsVal = false ∧ p.tearsCbs = false ∧
      p.counted = false := by
  cases op with
  | fromString val =>
    cases hv : fromStr val with
    | some v =>
      refine .inr ⟨.setValue v, ?_, fun a => ?_, rfl, rfl, rfl, rfl, rfl, rfl⟩
      · simp only [State.call, hv]
      · simp only [ConfigVar.State.call, hv]
        rfl
    | none => exact .inl (by simp only [State.call, hv])
  | clearListener => exact absurd rfl hop
  | setValue | getValue | addListener | delListener | getListener =>
    exact .inr ⟨_, rfl, fun _ => rfl, rfl, rfl, rfl, rfl, rfl, rfl⟩

theorem Sim.call (h : Sim s a) {op : Op T} (hop : NoClear (.call t op)) (ht : s.phase t = .idle) :
    Matched fromStr (s.call fromStr t op) a := by
  have ha : a.phase t = .idle := by rw [h.phase, ht]; rfl
  have hop' : op ≠ .clearListener := by
    rintro rfl
    exact hop
  rcases called_cases fromStr s t hop' with he | ⟨p, he, hcall, hh, hc, hw, hp⟩
  · rw [he]
    exact matched_refl h
  · rw [he]
    refine matched_step (m := .call t op) (b := a.goto t p.coarse) hop ?_ ?_
    · simp [ConfigVar.step, ha, hcall]
    · obtain ⟨hval, hcbs, hcount⟩ := hp
      refine h.inside ht rfl rfl rfl hh ?_ h.val ?_ h.cbs ?_ ?_ h.log hc h.fault
      · rw [hw]
        rfl
      · rw [hval]
        rfl
      · rw [hcbs]
        rfl
      · rw [hcount]
        show s.funId + a.funId + 0 = s.funId + a.funId + 0
        rfl

/-- **Every step is matched.** -/
theorem Sim.simulates : Simulates (Sections.step fromStr) (fun _ l => NoClear l)
    (ConfigVar.step fromStr) (fun _ l => NoClear l) (Sim (T := T)) := by
  intro s l s' a h hl hs
  cases l with
  | call t op =>
    dsimp only [Sections.step] at hs
    split at hs
    · rename_i ht
      obtain rfl := Option.some.inj hs
      exact h.call hl ht
    · cases hs
  | move t =>
    dsimp only [Sections.step, State.move] at hs
    split at hs
    · rename_i m p hn
      obtain ⟨x, hx, rfl⟩ := Option.map_eq_some_iff.mp hs
      exact matched_refl (h.lock hn hx)
    · split at hs
      · rename_i p hn
        obtain ⟨x, hx, rfl⟩ := Option.map_eq_some_iff.mp hs
        exact matched_refl (h.unlock hn hx)
      · exact h.access hs

end Sim

/-- **The sections of a variable are atomic.**  For any number of threads and any interleaving of
their locks and accesses without `clearListener`: no thread ever reads or walks over an object that
is in the middle of a change, and the calls of the listeners, and what the threads go on to do, are
those of a run of `Var.lean`, which has the same value and listeners whenever nobody writes. -/
theorem sections_refine [BEq T] {fromStr : String → Option T} {defaultValue : T}
    {cbs : Finset ListenerId} {funId : Nat} {s : State T}
    (hr : Reach (step fromStr) (fun _ l => NoClear l) (.construct defaultValue cbs funId) s) :
    s.fault = false ∧ ∃ a : ConfigVar.State T,
      Reach (ConfigVar.step fromStr) (fun _ l => NoClear l) (.construct defaultValue cbs funId) a ∧
      a.log = s.log ∧ (∀ t, a.phase t = (s.phase t).coarse) ∧
      (s.m_mutex.writer = false →
        s.m_val = .whole a.val ∧ s.m_cbs = .whole a.cbs ∧ s.funId = a.funId) := by
  obtain ⟨a, ha, h⟩ := Sim.simulates.reach (Sim.construct defaultValue cbs funId) hr
  refine ⟨h.fault, a, ha, h.log.symm, h.phase, fun hw => ⟨?_, ?_, ?_⟩⟩
  · have hzero := h.tornVal.eq_zero_iff.mpr (h.nobody hw tearsVal_holds)
    have hold := h.val
    cases hc : s.m_val with
    | whole x =>
      rw [hc] at hold
      exact congrArg Cell.whole hold
    | torn x =>
      rw [hc] at hzero
      cases hzero
  · have hzero := h.tornCbs.eq_zero_iff.mpr (h.nobody hw tearsCbs_holds)
    have hold := h.cbs
    cases hc : s.m_cbs with
    | whole x =>
      rw [hc] at hold
      exact congrArg Cell.whole hold
    | torn x =>
      rw [hc] at hzero
      cases hzero
  · obtain ⟨n, hn, he⟩ := h.funId
    rw [he, hn.eq_zero_iff.mpr (h.nobody hw counted_holds), Nat.add_zero]

/-- A changed value is announced while another thread reads the old one, a listener is added before
the value is stored. -/
def setGetAdd : List (Label Nat) :=
  [.call 0 (.setValue 5), .call 1 .getValue, .call 2 .addListener, .move 0, .move 0, .move 1, .move 0,
    .move 1, .move 0, .move 1, .move 0, .move 2, .move 2, .move 2, .move 2, .move 2, .move 0, .move 0,
    .move 0, .move 0]

example : ∃ s : State Nat,
    runs (step String.toNat?) (.construct 0 {1} 1) setGetAdd = some s ∧ s.fault = false ∧
      s.m_val = .whole 5 ∧ ∃ a : ConfigVar.State Nat,
        Reach (ConfigVar.step String.toNat?) (fun _ l => NoClear l) (.construct 0 {1} 1) a ∧
          a.log = [⟨1, 0, 5⟩] := by
  obtain ⟨s, hr, hc⟩ := exists_of_runs (step String.toNat?) (.construct 0 {1} 1) setGetAdd
    (fun s => decide (s.log = [⟨1, 0, 5⟩] ∧ s.m_val = .whole 5)) (by decide +kernel)
  obtain ⟨hlog, hval⟩ := of_decide_eq_true hc
  have hclear : ∀ l ∈ setGetAdd, NoClear l := by
    simp [setGetAdd, NoClear]
  obtain ⟨hf, a, ha, hlog', -⟩ := sections_refine (.of_runs .refl hclear hr)
  exact ⟨s, hr, hf, hval, a, ha, hlog'.trans hlog⟩

/-- `clearListener` tears `m_cbs` under a walk. -/
example : (runs (step String.toNat?) (.construct 0 {1} 1)
    [.call 0 (.setValue 5), .call 1 .clearListener, .move 0, .move 0, .move 1, .move 1,
      .move 0]).map State.fault = some true := by decide +kernel

end LioNet.ConfigVar.Sections
