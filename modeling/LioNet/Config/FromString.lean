import Mathlib.Data.List.TakeWhile
import LioNet.Config.Var

/-!
# `fromString` when listeners throw

One call of `fromString` or `setValue` on a variable that nobody else uses, with listeners that may
throw a `std::exception`.  `throws k old new` says that listener `k` throws when it is told of the
change from `old` to `new`.

The listeners are called before the value is stored, and `fromString` catches what they throw in the
clause for failed conversions.  So after an exception `m_val` is the old value, but the listeners
before the one that threw have heard of a change that does not take place.
**`fromString_all_or_nothing_iff`** says when this does not show.

`fromString_runs` ties the calls to the machine of `Var.lean`: with listeners that do not throw, a
call is what the moves of its thread do one after the other.
-/

namespace LioNet.ConfigVar

open LioNet.Lib

variable {T : Type}

/-- What a call leaves.  `log` records the notifications that a listener has completed. -/
structure Called (T : Type) where
  state : State T
  /-- the listener whose exception ended the call -/
  thrower : Option ListenerId

section Code

variable (throws : ListenerId → T → T → Bool) (fromStr : String → Option T)

/-- The loop over `m_cbs`. -/
def State.notifyAll (s : State T) (v : T) : List ListenerId → Called T
  | [] => ⟨s, none⟩
  | k :: ks => if throws k s.val v then ⟨s, some k⟩ else (s.tell k v).notifyAll v ks

variable [BEq T]

/-- `setValue`.  An exception of a listener leaves it before the store. -/
def State.setValue (s : State T) (v : T) : Called T :=
  if v == s.val then ⟨s, none⟩
  else
    match s.notifyAll throws v s.keys with
    | ⟨s', none⟩ => ⟨{ s' with val := v }, none⟩
    | ⟨s', some k⟩ => ⟨s', some k⟩

/-- `fromString`, and what it returns. -/
def State.fromString (s : State T) (val : String) : Called T × Bool :=
  match fromStr val with
  | some v => (s.setValue throws v, (s.setValue throws v).thrower.isNone)
  | none => (⟨s, none⟩, false)

end Code

/-- Every listener, in the order of the ids, is told of the change. -/
def State.notices (s : State T) (v : T) (ks : List ListenerId) : List (Notice T) :=
  ks.map fun k => ⟨k, s.val, v⟩

/-- What `fromString` did is all, or it is nothing. -/
structure AllOrNothing (fromStr : String → Option T) (s : State T) (val : String)
    (r : Called T × Bool) : Prop where
  nothing : r.2 = false → r.1.state.val = s.val ∧ r.1.state.log = s.log
  all : r.2 = true → ∃ v, fromStr val = some v ∧ r.1.state.val = v ∧
    (v ≠ s.val → r.1.state.log = s.log ++ s.notices v s.keys)

section Call

variable {throws : ListenerId → T → T → Bool} {fromStr : String → Option T} {s : State T} {v : T}

/-! ### The loop -/

/-- The loop tells the listeners before the first one that throws. -/
theorem notifyAll_eq (ks : List ListenerId) : s.notifyAll throws v ks =
    ⟨{ s with log := s.log ++ s.notices v (ks.takeWhile fun k => !throws k s.val v) },
      ks.find? fun k => throws k s.val v⟩ := by
  induction ks generalizing s with
  | nil => simp [State.notifyAll, State.notices]
  | cons k ks ih =>
    cases ht : throws k s.val v with
    | true => simp [State.notifyAll, State.notices, ht]
    | false =>
      have hval : (s.tell k v).val = s.val := rfl
      rw [State.notifyAll, ht, if_neg Bool.false_ne_true, ih, hval, List.find?_cons, ht,
        List.takeWhile_cons, ht]
      simp [State.notices, State.tell]

/-- No listener throws: the loop tells them all. -/
theorem notifyAll_none {ks : List ListenerId} (hno : ∀ k ∈ ks, throws k s.val v = false) :
    s.notifyAll throws v ks = ⟨{ s with log := s.log ++ s.notices v ks }, none⟩ := by
  have hnone : ks.find? (fun k => throws k s.val v) = none := by
    rw [List.find?_eq_none]
    intro k hk
    rw [hno k hk]
    exact Bool.false_ne_true
  have hall : ks.takeWhile (fun k => !throws k s.val v) = ks := by
    rw [List.takeWhile_eq_self_iff]
    intro k hk
    rw [hno k hk]
    rfl
  rw [notifyAll_eq, hnone, hall]

variable [BEq T]

theorem setValue_same (h : (v == s.val) = true) : s.setValue throws v = ⟨s, none⟩ := by
  rw [State.setValue, if_pos h]

/-- No listener throws: all are told, and the value is stored. -/
theorem setValue_stored (h : (v == s.val) = false)
    (hno : ∀ k ∈ s.cbs, throws k s.val v = false) : s.setValue throws v =
      ⟨{ s with val := v, log := s.log ++ s.notices v s.keys }, none⟩ := by
  have hkeys : ∀ k ∈ s.keys, throws k s.val v = false :=
    fun k hk => hno k ((Finset.mem_sort _).mp hk)
  rw [State.setValue, if_neg (by rw [h]; exact Bool.false_ne_true), notifyAll_none hkeys]

/-- A listener throws: the ones before it are told, and nothing is stored. -/
theorem setValue_thrown {k : ListenerId} (h : (v == s.val) = false)
    (hk : s.keys.find? (fun k => throws k s.val v) = some k) : s.setValue throws v =
      ⟨{ s with log := s.log ++ s.notices v (s.keys.takeWhile fun k => !throws k s.val v) },
        some k⟩ := by
  rw [State.setValue, if_neg (by rw [h]; exact Bool.false_ne_true), notifyAll_eq, hk]

/-! ### All or nothing -/

/-- The exception, if there is one, comes from the listener with the smallest id. -/
def FirstThrows (throws : ListenerId → T → T → Bool) (s : State T) (v : T) : Prop :=
  (∃ k ∈ s.cbs, throws k s.val v = true) → ∃ k, s.keys.head? = some k ∧ throws k s.val v = true

omit [BEq T] in
/-- Nobody has been told before the exception exactly when the first listener throws. -/
theorem firstThrows_iff {k : ListenerId} (hk : s.keys.find? (fun k => throws k s.val v) = some k) :
    FirstThrows throws s v ↔ s.notices v (s.keys.takeWhile fun k => !throws k s.val v) = [] := by
  have hex : ∃ k ∈ s.cbs, throws k s.val v = true :=
    ⟨k, (Finset.mem_sort _).mp (List.mem_of_find?_eq_some hk), (List.find?_eq_some_iff_append.mp hk).1⟩
  unfold FirstThrows State.notices
  rw [List.map_eq_nil_iff]
  cases hkeys : s.keys with
  | nil =>
    rw [hkeys] at hk
    cases hk
  | cons k' ks =>
    cases ht : throws k' s.val v <;> simp [ht, hex]

/-- A text that converts: what the value and the listeners say. -/
theorem allOrNothing_iff {val : String} (hv : fromStr val = some v) :
    AllOrNothing fromStr s val (s.fromString throws fromStr val) ↔
      if v == s.val then v = s.val else FirstThrows throws s v := by
  have hr : s.fromString throws fromStr val =
      (s.setValue throws v, (s.setValue throws v).thrower.isNone) := by
    simp only [State.fromString, hv]
  rw [hr]
  cases hb : v == s.val with
  | true =>
    rw [setValue_same hb, if_pos rfl]
    constructor
    · intro h
      obtain ⟨v', hv', hval, -⟩ := h.all rfl
      rw [hv] at hv'
      exact (Option.some.inj hv').trans hval.symm
    · intro he
      exact ⟨fun hf => (by cases hf), fun _ => ⟨v, hv, he.symm, fun hne => absurd he hne⟩⟩
  | false =>
    rw [if_neg Bool.false_ne_true]
    cases hk : s.keys.find? (fun k => throws k s.val v) with
    | none =>
      have hno : ∀ k ∈ s.cbs, throws k s.val v = false := by
        intro k hmem
        simpa using List.find?_eq_none.mp hk k ((Finset.mem_sort _).mpr hmem)
      rw [setValue_stored hb hno]
      constructor
      · rintro - ⟨k, hmem, ht⟩
        rw [hno k hmem] at ht
        cases ht
      · intro _
        exact ⟨fun hf => (by cases hf), fun _ => ⟨v, hv, rfl, fun _ => rfl⟩⟩
    | some k =>
      rw [setValue_thrown hb hk, firstThrows_iff hk]
      constructor
      · intro h
        exact List.append_right_eq_self.mp (h.nothing rfl).2
      · intro h
        exact ⟨fun _ => ⟨rfl, by rw [h, List.append_nil]⟩, fun hf => by cases hf⟩

/-- **`fromString` is all or nothing exactly when no listener has heard of a change that then fails**,
and `==` on values tells different values apart. -/
theorem fromString_all_or_nothing_iff (throws : ListenerId → T → T → Bool)
    (fromStr : String → Option T) (s : State T) (val : String) :
    AllOrNothing fromStr s val (s.fromString throws fromStr val) ↔
      ∀ v, fromStr val = some v → if v == s.val then v = s.val else FirstThrows throws s v := by
  constructor
  · exact fun h v hv => (allOrNothing_iff hv).mp h
  · intro h
    cases hv : fromStr val with
    | some v => exact (allOrNothing_iff hv).mpr (h v hv)
    | none =>
      have hr : s.fromString throws fromStr val = (⟨s, none⟩, false) := by
        simp only [State.fromString, hv]
      rw [hr]
      exact ⟨fun _ => ⟨rfl, rfl⟩, fun hf => by cases hf⟩

omit [BEq T] in
theorem keys_head_le {k k' : ListenerId} (h : s.keys.head? = some k) (hk' : k' ∈ s.cbs) : k ≤ k' := by
  have hmem : k' ∈ s.keys := (Finset.mem_sort _).mpr hk'
  have hsorted : s.keys.Pairwise (· ≤ ·) := Finset.pairwise_sort s.cbs (· ≤ ·)
  cases hkeys : s.keys with
  | nil =>
    rw [hkeys] at h
    cases h
  | cons k₀ ks =>
    rw [hkeys] at h hmem hsorted
    obtain rfl := Option.some.inj h
    rcases List.mem_cons.mp hmem with rfl | hmem
    · exact Nat.le_refl _
    · exact (List.pairwise_cons.mp hsorted).1 _ hmem

/-- The second of two listeners throws: the first has heard of a change that does not take place. -/
theorem not_fromString_all_or_nothing :
    ¬∀ (throws : ListenerId → Nat → Nat → Bool) (fromStr : String → Option Nat) (s : State Nat)
      (val : String), AllOrNothing fromStr s val (s.fromString throws fromStr val) := by
  intro h
  have hconv : (fun _ => some 5 : String → Option Nat) "5" = some 5 := rfl
  have hcond := (allOrNothing_iff hconv).mp
    (h (fun k _ _ => k == 2) (fun _ => some 5) (State.construct 0 {1, 2} 2) "5")
  obtain ⟨k, hk, ht⟩ := hcond ⟨2, by decide, rfl⟩
  have hle : k ≤ 1 := keys_head_le hk (by decide)
  have hk2 : k = 2 := by simpa using ht
  rw [hk2] at hle
  exact absurd hle (by decide)

end Call

/-! ### The machine of the threads -/

section Machine

variable {s : State T} {t : ThreadId} {v : T}

theorem goto_goto (s : State T) (t : ThreadId) (p q : Phase T) :
    (s.goto t p).goto t q = s.goto t q := by
  unfold State.goto
  rw [Function.update_idem]

theorem goto_self {p : Phase T} (h : s.phase t = p) : s.goto t p = s := by
  unfold State.goto
  rw [← h, Function.update_eq_self]

/-- No listener throws. -/
def never (_ : ListenerId) (_ _ : T) : Bool := false

variable [BEq T] {fromStr : String → Option T}

/-- The walk over the rest of `m_cbs` is one move a listener. -/
theorem notify_runs {ks : List ListenerId} {i : Nat} (hks : s.keys.drop i = ks) :
    runs (step fromStr) (s.goto t (.notify v i)) (List.replicate ks.length (.move t)) =
      some ((s.notifyAll never v ks).state.goto t (.notify v (i + ks.length))) := by
  induction ks generalizing s i with
  | nil => rfl
  | cons k ks ih =>
    have hk : s.keys[i]? = some k := by
      rw [← List.head?_drop, hks]
      rfl
    have hrest : (s.tell k v).keys.drop (i + 1) = ks := by
      have htail := congrArg List.tail hks
      rw [List.tail_drop] at htail
      exact htail
    have hmove : step fromStr (s.goto t (.notify v i)) (.move t) =
        some ((s.tell k v).goto t (.notify v (i + 1))) := by
      simp only [step, State.move, goto_phase, Function.update_self, goto_keys, hk]
      exact congrArg some (goto_goto (s.tell k v) t _ _)
    rw [List.length_cons, List.replicate_succ, runs, hmove, Option.bind_some, ih hrest,
      Nat.add_assoc, Nat.add_comm 1]
    rfl

/-- `setValue` is its thread's moves: the comparison, the walk, and the store. -/
theorem setValue_runs (v : T) (hidle : s.phase t = .idle) (hr : s.readers = 0) :
    ∃ n, runs (step fromStr) (s.goto t (.setValue v)) (List.replicate n (.move t)) =
      some (s.setValue never v).state := by
  cases hb : v == s.val with
  | true =>
    have hmove : step fromStr (s.goto t (.setValue v)) (.move t) = some s := by
      simp only [step, State.move, goto_phase, Function.update_self, goto_val, hb, if_true]
      rw [goto_goto, goto_self hidle]
    refine ⟨1, ?_⟩
    rw [List.replicate_one, runs, hmove, setValue_same hb]
    rfl
  | false =>
    have hmove : step fromStr (s.goto t (.setValue v)) (.move t) =
        some (s.rdlock.goto t (.notify v 0)) := by
      simp only [step, State.move, goto_phase, Function.update_self, goto_val, hb]
      exact congrArg some (goto_goto s.rdlock t _ _)
    -- the walk leaves everything but the log as it was
    set s' := (s.rdlock.notifyAll never v s.keys).state with hs'
    have hwalk : runs (step fromStr) (s.rdlock.goto t (.notify v 0))
        (List.replicate s.keys.length (.move t)) =
        some (s'.goto t (.notify v (0 + s.keys.length))) :=
      notify_runs (List.drop_zero (l := s.keys))
    have hlog : s' = { s.rdlock with log := s.log ++ s.notices v s.keys } := by
      rw [hs', notifyAll_none fun _ _ => rfl]
      rfl
    have htold : step fromStr (s'.goto t (.notify v (0 + s.keys.length))) (.move t) =
        some (s'.unlock.goto t (.store v)) := by
      have hend : s.keys[s.keys.length]? = none := by simp
      have hkeys : s'.keys = s.keys := by rw [hlog]; rfl
      simp only [step, State.move, goto_phase, Function.update_self, goto_keys, hkeys, Nat.zero_add,
        hend]
      exact congrArg some (goto_goto s'.unlock t _ _)
    have hstore : step fromStr (s'.unlock.goto t (.store v)) (.move t) =
        some (s.setValue never v).state := by
      have hread : s'.unlock.readers = 0 := by
        rw [hlog]
        exact hr
      have hback := goto_self (s := { s with val := v, log := s.log ++ s.notices v s.keys }) hidle
      simp only [step, State.move, goto_phase, Function.update_self]
      refine (if_pos hread).trans ?_
      rw [setValue_stored hb fun _ _ => rfl, hlog]
      exact congrArg some ((goto_goto _ t (.store v) _).trans hback)
    refine ⟨s.keys.length + 2 + 1, ?_⟩
    rw [List.replicate_succ, runs, hmove, Option.bind_some, List.replicate_add, runs_append, hwalk,
      Option.bind_some, List.replicate_succ, runs, htold, Option.bind_some, List.replicate_one, runs,
      hstore]
    rfl

/-- **A call with nobody else around**: what its thread does, move after move, is the call. -/
theorem fromString_runs (val : String) (hidle : s.phase t = .idle) (hr : s.readers = 0) :
    ∃ n, runs (step fromStr) s (.call t (.fromString val) :: List.replicate n (.move t)) =
      some (s.fromString never fromStr val).1.state := by
  have hcall : step fromStr s (.call t (.fromString val)) = some (s.call fromStr t (.fromString val)) := by
    simp only [step, hidle]
  rw [State.fromString]
  cases hv : fromStr val with
  | none =>
    refine ⟨0, ?_⟩
    rw [List.replicate_zero, runs, hcall, Option.bind_some]
    simp only [State.call, hv, runs]
  | some v =>
    obtain ⟨n, hn⟩ := setValue_runs v hidle hr
    refine ⟨n, ?_⟩
    have hs : s.call fromStr t (.fromString val) = s.goto t (.setValue v) := by
      simp only [State.call, hv]
    rw [runs, hcall, Option.bind_some, hs]
    exact hn

end Machine

end LioNet.ConfigVar
