import LioNet.Config.Var

/-!
# What the listeners are told

A listener that hears of every change of a variable expects a chain: each `old_value` is the
`new_value` it heard before, and the last `new_value` is what the variable holds.

`setValue` compares and calls the listeners in one section and stores the value in a later one.  In
between, another `setValue` may compare with the old value and announce a change from it.  `Alone` is
the condition that excludes this; `Coherent` is the invariant of the runs that meet it.
-/

namespace LioNet.ConfigVar

open LioNet.Lib

variable {T : Type}

/-- The pairs of `xs` lead from `a` to `b`. -/
def Linked (a : T) : List (T × T) → T → Prop
  | [], b => a = b
  | (o, n) :: xs, b => o = a ∧ Linked n xs b

theorem Linked.snoc {a b : T} {xs : List (T × T)} (h : Linked a xs b) (c : T) :
    Linked a (xs ++ [(b, c)]) c := by
  induction xs generalizing a with
  | nil =>
    have hab : a = b := h
    exact ⟨hab.symm, rfl⟩
  | cons x xs ih => exact ⟨h.1, ih h.2⟩

/-- Each listener was told a chain of changes that begins with the initial value, and once all calls
have returned it ends in the stored value. -/
def ChainLaw (v₀ : T) (s : State T) : Prop :=
  ∀ k ∈ s.cbs, ∃ last, Linked v₀ (s.heard k) last ∧ ((∀ t, s.phase t = .idle) → s.val = last)

/-- The thread has announced a value, or is about to, and has not stored it yet. -/
def Phase.pending : Phase T → Bool
  | .notify .. | .store _ => true
  | _ => false

/-- `setValue` or `fromString`. -/
def Op.sets : Op T → Bool
  | .setValue _ | .fromString _ => true
  | _ => false

/-- The only calls are `setValue` and `fromString`, and a call that finds a changed value does so
while no other call stands between its announcement and its write. -/
def Alone [BEq T] (s : State T) : Label T → Prop
  | .call _ op => op.sets = true
  | .move t => ∀ v, s.phase t = .setValue v → (v == s.val) = false →
      ∀ t', (s.phase t').pending = false

section Run

variable {s s' : State T} {t : ThreadId} {v₀ : T}

/-! ### One call at a time -/

/-- Nobody else is between announcement and write. -/
def Sole (s : State T) (t : ThreadId) : Prop := ∀ t', t' ≠ t → (s.phase t').pending = false

/-- What the listeners know: all the stored value; or the first `i` of them the value that is being
announced; or all the value that is about to be stored. -/
inductive Coherent (v₀ : T) (s : State T) : Prop
  | calm : (∀ t, (s.phase t).pending = false) → (∀ k ∈ s.cbs, Linked v₀ (s.heard k) s.val) →
      Coherent v₀ s
  | telling {t : ThreadId} {v : T} {i : Nat} : s.phase t = .notify v i → Sole s t →
      (∀ j k, s.keys[j]? = some k → Linked v₀ (s.heard k) (if j < i then v else s.val)) →
      Coherent v₀ s
  | storing {t : ThreadId} {v : T} : s.phase t = .store v → Sole s t →
      (∀ k ∈ s.cbs, Linked v₀ (s.heard k) v) → Coherent v₀ s

/-- Every thread is in `setValue`, or outside the variable's functions. -/
def Phase.setting : Phase T → Bool
  | .idle | .setValue _ | .notify .. | .store _ => true
  | _ => false

theorem mem_keys {k : ListenerId} : k ∈ s.keys ↔ k ∈ s.cbs := Finset.mem_sort _

theorem heard_tell (s : State T) (k k' : ListenerId) (v : T) :
    (s.tell k v).heard k' = if k' = k then s.heard k ++ [(s.val, v)] else s.heard k' := by
  by_cases h : k' = k
  · subst h
    simp [State.heard, State.tell]
  · simp [State.heard, State.tell, h, Ne.symm h]

/-- A thread that is not pending goes to a phase that is not: nothing changes for the listeners. -/
theorem Coherent.goto (h : Coherent v₀ s) {p : Phase T} (hp : (s.phase t).pending = false)
    (hp' : p.pending = false) : Coherent v₀ (s.goto t p) := by
  have hsame : ∀ t', ((s.goto t p).phase t').pending = (s.phase t').pending := by
    intro t'
    by_cases e : t' = t
    · subst e
      simp [hp, hp']
    · simp [e]
  have hkeep : ∀ {t'}, (s.phase t').pending = true → (s.goto t p).phase t' = s.phase t' := by
    intro t' ht'
    have hne : t' ≠ t := by
      intro e
      subst e
      rw [hp] at ht'
      cases ht'
    simp [hne]
  have hsole : ∀ {t'}, Sole s t' → Sole (s.goto t p) t' := by
    intro t' hs t'' hne
    rw [hsame]
    exact hs t'' hne
  cases h with
  | calm hall hk =>
    refine .calm (fun t' => ?_) hk
    rw [hsame]
    exact hall t'
  | @telling t' v i hph hs hk =>
    refine .telling ((hkeep ?_).trans hph) (hsole hs) hk
    rw [hph]
    rfl
  | @storing t' v hph hs hk =>
    refine .storing ((hkeep ?_).trans hph) (hsole hs) hk
    rw [hph]
    rfl

/-- The pending thread is the one that the invariant speaks of. -/
theorem Sole.eq {t' : ThreadId} (h : Sole s t') (hp : (s.phase t).pending = true) : t = t' := by
  by_contra hne
  rw [h t hne] at hp
  cases hp

theorem Sole.goto (h : Sole s t) (p : Phase T) : Sole (s.goto t p) t := by
  intro t' hne
  rw [goto_phase, Function.update_of_ne hne]
  exact h t' hne

/-! What the invariant says at each place of the announcing thread. -/

theorem Coherent.of_calm (h : Coherent v₀ s) (hnone : ∀ t, (s.phase t).pending = false) :
    ∀ k ∈ s.cbs, Linked v₀ (s.heard k) s.val := by
  cases h with
  | calm _ hk => exact hk
  | @telling t _ _ hph _ _ =>
    have hpend := hnone t
    rw [hph] at hpend
    cases hpend
  | @storing t _ hph _ _ =>
    have hpend := hnone t
    rw [hph] at hpend
    cases hpend

theorem Coherent.of_notify {v : T} {i : Nat} (h : Coherent v₀ s) (hp : s.phase t = .notify v i) :
    Sole s t ∧
      ∀ j k, s.keys[j]? = some k → Linked v₀ (s.heard k) (if j < i then v else s.val) := by
  have hpend : (s.phase t).pending = true := by rw [hp]; rfl
  cases h with
  | calm hall _ =>
    rw [hall t] at hpend
    cases hpend
  | telling hph hs hall =>
    have ht := hs.eq hpend
    subst ht
    rw [hp] at hph
    injection hph with hv hi
    subst hv hi
    exact ⟨hs, hall⟩
  | storing hph hs _ =>
    have ht := hs.eq hpend
    subst ht
    rw [hp] at hph
    cases hph

theorem Coherent.of_store {v : T} (h : Coherent v₀ s) (hp : s.phase t = .store v) :
    Sole s t ∧ ∀ k ∈ s.cbs, Linked v₀ (s.heard k) v := by
  have hpend : (s.phase t).pending = true := by rw [hp]; rfl
  cases h with
  | calm hall _ =>
    rw [hall t] at hpend
    cases hpend
  | telling hph hs _ =>
    have ht := hs.eq hpend
    subst ht
    rw [hp] at hph
    cases hph
  | storing hph hs hall =>
    have ht := hs.eq hpend
    subst ht
    rw [hp] at hph
    injection hph with hv
    subst hv
    exact ⟨hs, hall⟩

/-- **A move keeps the listeners' tale coherent.** -/
theorem Coherent.move [BEq T] (h : Coherent v₀ s) (hset : (s.phase t).setting = true)
    (halone : ∀ v, s.phase t = .setValue v → (v == s.val) = false →
      ∀ t', (s.phase t').pending = false) (hm : Move s t s') : Coherent v₀ s' := by
  cases hm with
  | same hp _ => exact h.goto (by rw [hp]; rfl) rfl
  | @enter v hp hv =>
    have hnone := halone v hp hv
    refine .telling (t := t) (v := v) (i := 0) (by simp) ?_ fun j k hj => ?_
    · exact Sole.goto (fun t' _ => hnone t') _
    · rw [if_neg (Nat.not_lt_zero j)]
      exact h.of_calm hnone k (mem_keys.mp (List.mem_of_getElem? hj))
  | @tell v i k hp hk =>
    obtain ⟨hs, hall⟩ := h.of_notify hp
    refine .telling (t := t) (v := v) (i := i + 1) (by simp) (Sole.goto hs _) fun j k' hj => ?_
    show Linked v₀ ((s.tell k v).heard k') (if j < i + 1 then v else s.val)
    have hold := hall j k' hj
    rw [heard_tell]
    by_cases hkk : k' = k
    · subst hkk
      -- the keys of a map differ, so this is the listener at place `i`
      have hji : j = i := by
        have hlt : j < s.keys.length := (List.getElem?_eq_some_iff.mp hj).1
        exact (List.getElem?_inj hlt (Finset.sort_nodup _ _)).mp (hj.trans hk.symm)
      subst hji
      rw [if_pos rfl, if_pos (Nat.lt_succ_self j)]
      rw [if_neg (Nat.lt_irrefl j)] at hold
      exact hold.snoc v
    · have hji : j ≠ i := by
        intro e
        subst e
        exact hkk (Option.some.inj (hj.symm.trans hk))
      have hiff : j < i + 1 ↔ j < i := by omega
      rw [if_neg hkk]
      simpa only [hiff] using hold
  | @told v i hp hk =>
    obtain ⟨hs, hall⟩ := h.of_notify hp
    refine .storing (t := t) (v := v) (by simp) (Sole.goto hs _) fun k hmem => ?_
    show Linked v₀ (s.heard k) v
    obtain ⟨j, hj⟩ := List.getElem?_of_mem (mem_keys.mpr hmem)
    have hlen : s.keys.length ≤ i := List.getElem?_eq_none_iff.mp hk
    have hlt : j < s.keys.length := (List.getElem?_eq_some_iff.mp hj).1
    have hold := hall j k hj
    rwa [if_pos (by omega)] at hold
  | @store v hp _ =>
    obtain ⟨hs, hall⟩ := h.of_store hp
    refine .calm (fun t' => ?_) hall
    by_cases e : t' = t
    · subst e
      simp [Phase.pending]
    · simpa [e] using hs t' e
  | getValue hp | addListener hp _ | delListener hp _ | getListener hp | find hp | clearListener hp
    | clear hp | clearing hp =>
    rw [hp] at hset
    cases hset

/-- A call of `setValue` or `fromString`. -/
theorem call_sets (fromStr : String → Option T) (s : State T) (t : ThreadId) {op : Op T}
    (h : op.sets = true) :
    s.call fromStr t op = s ∨ ∃ v, s.call fromStr t op = s.goto t (.setValue v) := by
  cases op with
  | setValue v => exact .inr ⟨v, rfl⟩
  | fromString val =>
    cases hv : fromStr val with
    | some v => exact .inr ⟨v, by simp only [State.call, hv]⟩
    | none => exact .inl (by simp only [State.call, hv])
  | getValue | addListener | delListener | getListener | clearListener => cases h

theorem setting_step [BEq T] {fromStr : String → Option T} {l : Label T}
    (h : ∀ t, (s.phase t).setting = true) (hl : Alone s l) (hs : step fromStr s l = some s') :
    ∀ t, (s'.phase t).setting = true := by
  have hgoto : ∀ {r : State T} {t p}, r.phase = s.phase → p.setting = true →
      ∀ t', ((r.goto t p).phase t').setting = true := by
    intro r t p hr hp
    exact forall_goto (P := fun _ p => p.setting = true) (by rw [hr]; exact h) hp
  rcases step_cases hs with ⟨t, op, hop, -, hs'⟩ | ⟨t, -, hm⟩
  · subst hop hs'
    rcases call_sets fromStr s t hl with hc | ⟨v, hc⟩
    · rw [hc]
      exact h
    · rw [hc]
      exact hgoto rfl rfl
  · have ht := h t
    cases hm with
    | same | enter | tell | told | store => exact hgoto rfl rfl
    | getValue hp | addListener hp _ | delListener hp _ | getListener hp | find hp
      | clearListener hp | clear hp | clearing hp =>
      rw [hp] at ht
      cases ht

/-- The invariant of the runs in which announcements do not overlap. -/
theorem Coherent.reach [BEq T] {fromStr : String → Option T} {cbs : Finset ListenerId} {n : Nat}
    (h : Reach (step fromStr) Alone (State.construct v₀ cbs n) s) :
    Coherent v₀ s ∧ ∀ t, (s.phase t).setting = true := by
  refine h.invariant (I := fun s => Coherent v₀ s ∧ ∀ t, (s.phase t).setting = true) ?_ ?_
  · exact ⟨.calm (fun _ => rfl) fun _ _ => rfl, fun _ => rfl⟩
  · intro s l s' hI hl hs
    obtain ⟨hC, hset⟩ := hI
    refine ⟨?_, setting_step hset hl hs⟩
    rcases step_cases hs with ⟨t, op, hop, hidle, hs'⟩ | ⟨t, ht, hm⟩
    · subst hop hs'
      have hpend : (s.phase t).pending = false := by rw [hidle]; rfl
      rcases call_sets fromStr s t hl with hc | ⟨v, hc⟩
      · rw [hc]
        exact hC
      · rw [hc]
        exact hC.goto hpend rfl
    · subst ht
      exact hC.move (hset t) hl hm

/-- **The listeners hear a chain of changes that ends in the stored value**, as long as no call
announces a change between another call's announcement and its write. -/
theorem notices_linked [BEq T] {fromStr : String → Option T} {cbs : Finset ListenerId} {n : Nat}
    (h : Reach (step fromStr) Alone (State.construct v₀ cbs n) s) : ChainLaw v₀ s := by
  intro k hk
  have hbusy : ∀ {t}, s.phase t ≠ .idle → ¬∀ t, s.phase t = .idle := fun hne hall => hne (hall _)
  cases (Coherent.reach h).1 with
  | calm _ hall => exact ⟨s.val, hall k hk, fun _ => rfl⟩
  | @telling t v i hph _ hall =>
    obtain ⟨j, hj⟩ := List.getElem?_of_mem (mem_keys.mpr hk)
    exact ⟨_, hall j k hj, fun hidle => absurd hidle (hbusy (t := t) (by rw [hph]; simp))⟩
  | @storing t v hph _ hall =>
    exact ⟨v, hall k hk, fun hidle => absurd hidle (hbusy (t := t) (by rw [hph]; simp))⟩

end Run

/-! ### Two writers, one after the other and at once -/

/-- No thread but the first `n` is in a call. -/
def Few (n : Nat) (s : State T) : Prop := ∀ t, n ≤ t → s.phase t = .idle

/-- `Alone`, for the first `n` threads. -/
def Alone.check [BEq T] (n : Nat) (s : State T) : Label T → Bool
  | .call t op => op.sets && decide (t < n)
  | .move t =>
    match s.phase t with
    | .setValue v => v == s.val || (List.range n).all fun t' => !(s.phase t').pending
    | _ => true

theorem Few.step [BEq T] {n : Nat} {fromStr : String → Option T} {s s' : State T} {l : Label T}
    (h : Few n s) (hl : ∀ t op, l = .call t op → t < n) (hs : step fromStr s l = some s') :
    Few n s' := by
  have hgoto : ∀ {r : State T} {t p}, r.phase = s.phase → t < n → Few n (r.goto t p) := by
    intro r t p hr ht
    refine forall_goto (P := fun t p => n ≤ t → p = .idle) ?_ fun ht' => ?_
    · rw [hr]
      exact h
    · exact absurd ht (Nat.not_lt_of_le ht')
  rcases step_cases hs with ⟨t, op, hop, -, hs'⟩ | ⟨t, -, hm⟩
  · have ht := hl t op hop
    subst hop hs'
    rcases call_cases fromStr s t op with hc | ⟨p, -, hc⟩
    · rw [hc]
      exact h
    · rw [hc]
      exact hgoto rfl ht
  · have ht : t < n := by
      by_contra hge
      have hidle := h t (Nat.le_of_not_lt hge)
      cases hm <;> simp_all
    cases hm <;> exact hgoto rfl ht

theorem Alone.of_check [BEq T] {n : Nat} {fromStr : String → Option T} {s s' : State T}
    {l : Label T} (hf : Few n s) (h : Alone.check n s l = true) (hs : step fromStr s l = some s') :
    Alone s l ∧ Few n s' := by
  cases l with
  | call t op =>
    obtain ⟨hop, ht⟩ := (Bool.and_eq_true _ _).mp h
    refine ⟨hop, hf.step (fun t' op' he => ?_) hs⟩
    injection he with he _
    rw [← he]
    simpa using ht
  | move t =>
    refine ⟨fun v hp hv t' => ?_, hf.step (fun t' op' he => by cases he) hs⟩
    simp only [Alone.check, hp, hv, Bool.false_or, List.all_eq_true, List.mem_range,
      Bool.not_eq_true'] at h
    by_cases ht : t' < n
    · exact h t' ht
    · rw [hf t' (Nat.le_of_not_lt ht)]
      rfl

/-- Thread 0 sets 1 and thread 1 calls at once, but compares after the write of thread 0. -/
def inTurn : List (Label Nat) :=
  [.call 0 (.setValue 1), .call 1 (.setValue 2)] ++ List.replicate 4 (.move 0) ++
    List.replicate 4 (.move 1)

theorem notices_linked_in_turn :
    ∃ s, runs (guarded (step String.toNat?) (Alone.check 2)) (State.construct 0 {1} 1) inTurn = some s ∧
      s.val = 2 ∧ ChainLaw 0 s := by
  obtain ⟨s, hr, hc⟩ := exists_of_runs (guarded (step String.toNat?) (Alone.check 2))
    (State.construct 0 {1} 1) inTurn (fun s => s.val == 2) (by decide +kernel)
  obtain ⟨hreach, -⟩ := Reach.of_guarded (I := Few 2) .refl (fun _ _ => rfl)
    (fun hf hp hs => Alone.of_check hf hp hs) hr
  exact ⟨s, hr, by simpa using hc, notices_linked hreach⟩

/-- Both threads compare with 0 and announce their change from it. -/
def atOnce : List (Label Nat) :=
  [.call 0 (.setValue 1), .call 1 (.setValue 2), .move 0, .move 1, .move 0, .move 1, .move 0, .move 1,
    .move 0, .move 1]

theorem notices_not_linked :
    ¬∀ (v₀ : Nat) (cbs : Finset ListenerId) (n : Nat) (s : State Nat),
      Reach (step String.toNat?) (fun _ l => ∀ t op, l = .call t op → op.sets = true)
        (State.construct v₀ cbs n) s → ChainLaw v₀ s := by
  intro h
  obtain ⟨s, hr, hc⟩ := exists_of_runs (step String.toNat?) (State.construct 0 {1} 1) atOnce
    (fun s => s.heard 1 == [(0, 1), (0, 2)] && decide (1 ∈ s.cbs)) (by decide +kernel)
  simp only [Bool.and_eq_true, beq_iff_eq, decide_eq_true_eq] at hc
  have hreach : Reach (step String.toNat?) (fun _ l => ∀ t op, l = .call t op → op.sets = true)
      (State.construct 0 {1} 1) s := by
    refine .of_runs .refl (fun l hl t op he => ?_) hr
    subst he
    simp only [atOnce, List.mem_cons, Label.call.injEq, reduceCtorEq, List.not_mem_nil, or_false] at hl
    rcases hl with ⟨-, rfl⟩ | ⟨-, rfl⟩ <;> rfl
  obtain ⟨last, hlink, -⟩ := h 0 {1} 1 s hreach 1 hc.2
  rw [hc.1] at hlink
  -- the second change is announced from 0, and the listener heard 1 before
  exact absurd hlink.2.1 (by decide)

end LioNet.ConfigVar
