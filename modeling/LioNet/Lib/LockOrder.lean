import Mathlib.Algebra.BigOperators.Group.Finset.Basic
import Mathlib.Algebra.Order.BigOperators.Group.Finset
import Mathlib.Order.WellFounded
import LioNet.Lib.Transition

/-!
# Threads that take locks in order

Any number of threads, named by numbers, each work off a list of acts: take a reader-writer lock in
one of two modes, give it back, or start another thread and wait until that thread says that it
runs.  An idle thread may be given the acts of any call, and so may a thread that was started; which
calls there are is the parameter `acts`.

`Ordered rank h as` says that a thread which has the locks `h` and still has the acts `as` before it
takes every further lock above those it has, and ends with none.  If every call is ordered, no
reachable state is stuck (`Inv.progress`): of the threads that wait for a lock, one that waits for a
lock of greatest rank waits for a thread that can move.  Moves without new calls use up `weight`, so
they always come to an end, and the end is a state in which all threads are idle and all locks are
free (`Inv.quiet`).
-/

namespace LioNet.Lib.Locks

inductive Mode
  | shared
  | exclusive
  deriving DecidableEq, Repr

/-- A reader-writer lock with the names of those who have it. -/
inductive Hold
  | readers (ts : List ℕ)
  | writer (t : ℕ)
  deriving DecidableEq, Repr

namespace Hold

def free : Hold := .readers []

def holders : Hold → List ℕ
  | .readers ts => ts
  | .writer t => [t]

/-- Take the lock, where that is possible now. -/
def take (t : ℕ) : Mode → Hold → Option Hold
  | .shared, .readers ts => some (.readers (t :: ts))
  | .exclusive, .readers [] => some (.writer t)
  | .exclusive, .readers (_ :: _) => none
  | _, .writer _ => none

def give (t : ℕ) : Hold → Hold
  | .readers ts => .readers (ts.erase t)
  | .writer _ => free

theorem take_holders {t : ℕ} {m : Mode} {h h' : Hold} (ht : h.take t m = some h') :
    h'.holders = t :: h.holders := by
  cases h with
  | writer u => cases m <;> cases ht
  | readers ts =>
    cases m with
    | shared =>
      obtain rfl := Option.some.inj ht
      rfl
    | exclusive =>
      cases ts with
      | nil =>
        obtain rfl := Option.some.inj ht
        rfl
      | cons u us => cases ht

/-- A lock that cannot be taken has a holder. -/
theorem exists_holder {t : ℕ} {m : Mode} {h : Hold} (ht : h.take t m = none) :
    ∃ u, u ∈ h.holders := by
  cases h with
  | writer u => exact ⟨u, List.mem_singleton_self u⟩
  | readers ts =>
    cases m with
    | shared => cases ht
    | exclusive =>
      cases ts with
      | nil => cases ht
      | cons u us => exact ⟨u, List.mem_cons_self⟩

theorem give_holders {t : ℕ} {h : Hold} (ht : t ∈ h.holders) :
    (h.give t).holders = h.holders.erase t := by
  cases h with
  | readers ts => rfl
  | writer u =>
    obtain rfl : t = u := List.mem_singleton.mp ht
    simp [give, free, holders]

theorem eq_free_of_holders {h : Hold} (hh : h.holders = []) : h = free := by
  cases h with
  | readers ts =>
    obtain rfl : ts = [] := hh
    rfl
  | writer u => cases hh

end Hold

/-- What a thread does that another thread can notice. -/
inductive Act (L : Type*)
  | acquire (l : L) (m : Mode)
  | release (l : L)
  /-- start a thread and wait until it says that it runs -/
  | start
  deriving DecidableEq, Repr

structure State (L : Type*) where
  /-- the threads so far are those below `next` -/
  next : ℕ
  /-- what is left of a thread's call -/
  prog : ℕ → List (Act L)
  /-- the thread that a thread has started and waits for -/
  waits : ℕ → Option ℕ
  /-- the thread has said that it runs -/
  ready : ℕ → Bool
  lock : L → Hold

inductive Label (κ : Type*)
  | call (t : ℕ) (c : κ)
  | move (t : ℕ)
  deriving DecidableEq, Repr

variable {L κ : Type*}

/-- `n` idle threads, and every lock is free. -/
def State.initial (L : Type*) (n : ℕ) : State L where
  next := n
  prog := fun _ => []
  waits := fun _ => none
  ready := fun t => decide (t < n)
  lock := fun _ => .free

def State.rest (s : State L) (t : ℕ) (as : List (Act L)) : State L :=
  { s with prog := Function.update s.prog t as }

/-- A new thread, which `t` waits for. -/
def State.spawn (s : State L) (t : ℕ) : State L :=
  { s with next := s.next + 1, waits := Function.update s.waits t (some s.next) }

section Step

variable [DecidableEq L]

def State.setLock (s : State L) (l : L) (h : Hold) : State L :=
  { s with lock := Function.update s.lock l h }

/-- The next act of a thread that has one. -/
def State.act (s : State L) (t : ℕ) : Option (State L) :=
  match s.prog t with
  | [] => none
  | .acquire l m :: as =>
    ((s.lock l).take t m).map fun h => (s.setLock l h).rest t as
  | .release l :: as => some ((s.setLock l ((s.lock l).give t)).rest t as)
  | .start :: as => some ((s.spawn t).rest t as)

def State.move (s : State L) (t : ℕ) : Option (State L) :=
  if t < s.next then
    if s.ready t then
      match s.waits t with
      | some c => if s.ready c then some { s with waits := Function.update s.waits t none } else none
      | none => s.act t
    else some { s with ready := Function.update s.ready t true }
  else none

/-- A thread has something to do. -/
def State.Busy (s : State L) (t : ℕ) : Prop :=
  t < s.next ∧ (s.ready t = false ∨ s.waits t ≠ none ∨ s.prog t ≠ [])

instance (s : State L) (t : ℕ) : Decidable (s.Busy t) := inferInstanceAs (Decidable (_ ∧ _))

def step (acts : κ → List (Act L)) (s : State L) : Label κ → Option (State L)
  | .call t c => if t < s.next ∧ ¬ s.Busy t then some (s.rest t (acts c)) else none
  | .move t => s.move t

/-! ### What a move can be -/

inductive Move (s : State L) (t : ℕ) : State L → Prop
  /-- a started thread says that it runs -/
  | tell : s.ready t = false → Move s t { s with ready := Function.update s.ready t true }
  | told {c : ℕ} : s.waits t = some c → s.ready c = true →
      Move s t { s with waits := Function.update s.waits t none }
  | acquire {l : L} {m : Mode} {as : List (Act L)} {h : Hold} : s.ready t = true → s.waits t = none →
      s.prog t = .acquire l m :: as → (s.lock l).take t m = some h →
      Move s t ((s.setLock l h).rest t as)
  | release {l : L} {as : List (Act L)} : s.ready t = true → s.waits t = none →
      s.prog t = .release l :: as → Move s t ((s.setLock l ((s.lock l).give t)).rest t as)
  | start {as : List (Act L)} : s.ready t = true → s.waits t = none → s.prog t = .start :: as →
      Move s t ((s.spawn t).rest t as)

theorem move_cases {s s' : State L} {t : ℕ} (h : s.move t = some s') : t < s.next ∧ Move s t s' := by
  unfold State.move at h
  split at h
  · rename_i hlt
    refine ⟨hlt, ?_⟩
    split at h
    · rename_i hr
      split at h
      · rename_i c hw
        split at h
        · rename_i hc
          obtain rfl := Option.some.inj h
          exact .told hw hc
        · cases h
      · rename_i hw
        unfold State.act at h
        split at h
        · cases h
        · rename_i l m as hp
          obtain ⟨hold, ht, rfl⟩ := Option.map_eq_some_iff.mp h
          exact .acquire hr hw hp ht
        · rename_i l as hp
          obtain rfl := Option.some.inj h
          exact .release hr hw hp
        · rename_i as hp
          obtain rfl := Option.some.inj h
          exact .start hr hw hp
    · rename_i hr
      obtain rfl := Option.some.inj h
      exact .tell (by simpa using hr)
  · cases h

end Step

/-! ### Ordered acts -/

section Ordered

variable {R : Type*} [Preorder R] (rank : L → R)

/-- A thread with the locks `h` takes only locks above those it has, and gives all of them back. -/
def Ordered : Set L → List (Act L) → Prop
  | h, [] => h = ∅
  | h, .acquire l _ :: as => (∀ k ∈ h, rank k < rank l) ∧ Ordered (insert l h) as
  | h, .release l :: as => l ∈ h ∧ Ordered (h \ {l}) as
  | h, .start :: as => Ordered h as

/-- Acts that take only locks of rank `r` and above and give them back: they may stand wherever a
thread has locks below `r` only. -/
def Above (r : R) (as : List (Act L)) : Prop :=
  ∀ h k, (∀ l ∈ h, rank l < r) → Ordered rank h k → Ordered rank h (as ++ k)

variable {rank} {r q : R} {as bs : List (Act L)}

theorem Above.nil : Above rank r ([] : List (Act L)) := fun _ _ _ hk => hk

theorem Above.append (ha : Above rank r as) (hb : Above rank r bs) : Above rank r (as ++ bs) := by
  intro h k hh hk
  rw [List.append_assoc]
  exact ha h _ hh (hb h k hh hk)

theorem Above.start : Above rank r ([.start] : List (Act L)) := fun _ _ _ hk => hk

theorem Above.mono (ha : Above rank r as) (hr : q ≤ r) : Above rank q as :=
  fun h k hh hk => ha h k (fun l hl => (hh l hl).trans_le hr) hk

theorem Above.flatMap {α : Type*} {f : α → List (Act L)} {xs : List α}
    (hf : ∀ x ∈ xs, Above rank r (f x)) : Above rank r (xs.flatMap f) := by
  induction xs with
  | nil => exact .nil
  | cons x xs ih =>
    exact (hf x List.mem_cons_self).append (ih fun y hy => hf y (List.mem_cons_of_mem x hy))

theorem Above.getD {α : Type*} {f : α → List (Act L)} {o : Option α}
    (hf : ∀ x, Above rank r (f x)) : Above rank r ((o.map f).getD []) := by
  cases o with
  | none => exact .nil
  | some x => exact hf x

theorem Above.replicate {n : ℕ} (ha : Above rank r as) :
    Above rank r (List.replicate n as).flatten := by
  induction n with
  | zero => exact .nil
  | succ n ih => exact ha.append ih

/-- The lock is held while the body runs, and the body takes locks above it only. -/
def locked (l : L) (m : Mode) (body : List (Act L)) : List (Act L) :=
  .acquire l m :: (body ++ [.release l])

/-- The body has to be in order under the lock and those below it. -/
theorem Above.locked_of {l : L} {m : Mode} (hr : r ≤ rank l)
    (hb : ∀ h k, (∀ x ∈ h, rank x ≤ rank l) → Ordered rank h k → Ordered rank h (as ++ k)) :
    Above rank r (locked l m as) := by
  intro h k hh hk
  have hlow : ∀ x ∈ h, rank x < rank l := fun x hx => (hh x hx).trans_le hr
  have hout : l ∉ h := fun hlh => lt_irrefl _ (hlow l hlh)
  refine ⟨hlow, ?_⟩
  have hbody : Ordered rank (insert l h) (as ++ (.release l :: k)) := by
    refine hb _ _ ?_ ⟨Set.mem_insert l h, ?_⟩
    · intro x hx
      rcases Set.mem_insert_iff.mp hx with rfl | hx
      · exact le_rfl
      · exact (hlow x hx).le
    · rw [Set.insert_sdiff_self_of_notMem hout]
      exact hk
  simpa using hbody

theorem Above.locked {l : L} {m : Mode} (hr : r ≤ rank l) (hl : rank l < q)
    (hb : Above rank q as) : Above rank r (locked l m as) :=
  .locked_of hr fun h k hh hk => hb h k (fun x hx => (hh x hx).trans_lt hl) hk

/-- A lock under which nothing else is taken. -/
theorem Above.alone {l : L} {m : Mode} (hr : r ≤ rank l) : Above rank r (Locks.locked l m []) :=
  .locked_of hr fun _ _ _ hk => hk

theorem Above.ordered (ha : Above rank r as) : Ordered rank ∅ as := by
  have h := ha ∅ [] (fun l hl => absurd hl (Set.notMem_empty l)) rfl
  rwa [List.append_nil] at h

theorem Ordered.ne_nil {h : Set L} {l : L} (ho : Ordered rank h as) (hl : l ∈ h) : as ≠ [] := by
  rintro rfl
  have he : h = ∅ := ho
  rw [he] at hl
  exact Set.notMem_empty l hl

end Ordered

/-! ### The invariant -/

section Invariant

variable {R : Type*} [Preorder R] (rank : L → R) {acts : κ → List (Act L)}

/-- The locks that a thread has. -/
def State.held (s : State L) (t : ℕ) : Set L := {l | t ∈ (s.lock l).holders}

structure Inv (s : State L) : Prop where
  ordered : ∀ t, Ordered rank (s.held t) (s.prog t)
  nodup : ∀ l, (s.lock l).holders.Nodup
  /-- before it says that it runs, a thread does nothing -/
  raw : ∀ t, s.ready t = false → s.prog t = [] ∧ s.waits t = none
  born : ∀ t, s.next ≤ t → s.ready t = false
  waits : ∀ t c, s.waits t = some c → c < s.next

variable {rank} {s s' : State L} {t : ℕ}

theorem Inv.initial (n : ℕ) : Inv rank (State.initial L n) where
  ordered _ := Set.eq_empty_of_forall_notMem fun _ hl => List.not_mem_nil hl
  nodup _ := List.nodup_nil
  raw _ _ := ⟨rfl, rfl⟩
  born _ ht := decide_eq_false (Nat.not_lt.mpr ht)
  waits _ _ h := nomatch h

theorem Inv.ready (h : Inv rank s) {as : List (Act L)} {a : Act L} (hp : s.prog t = a :: as) :
    s.ready t = true := by
  by_contra hr
  rw [(h.raw t (by simpa using hr)).1] at hp
  cases hp

theorem Inv.start (h : Inv rank s) {as : List (Act L)} (hr : s.ready t = true)
    (hp : s.prog t = .start :: as) : Inv rank ((s.spawn t).rest t as) := by
  have ho := h.ordered t
  rw [hp] at ho
  refine ⟨fun u => ?_, h.nodup, fun u hu => ?_, fun u hu => ?_, fun u c hu => ?_⟩
  · by_cases hu : u = t
    · subst hu
      simpa [State.rest, State.spawn, State.held] using (show Ordered rank (s.held u) as from ho)
    · simpa [State.rest, State.spawn, State.held, hu] using h.ordered u
  · have hu' : u ≠ t := by
      rintro rfl
      exact absurd (hr.symm.trans hu) (by decide)
    simpa [State.rest, State.spawn, hu'] using h.raw u hu
  · exact h.born u (Nat.le_of_succ_le hu)
  · by_cases hu' : u = t
    · subst hu'
      have he : c = s.next := by simpa [State.rest, State.spawn, eq_comm] using hu
      exact he ▸ Nat.lt_succ_self _
    · exact Nat.lt_succ_of_lt (h.waits u c (by simpa [State.rest, State.spawn, hu'] using hu))

variable [DecidableEq L]

theorem held_update (s : State L) (t u : ℕ) (l : L) (hold : Hold) (as : List (Act L)) :
    ((s.setLock l hold).rest t as).held u =
      {k | u ∈ (if k = l then hold else s.lock k).holders} := by
  ext k
  simp [State.held, State.rest, State.setLock, Function.update_apply]

theorem Inv.acquire (h : Inv rank s) {l : L} {m : Mode} {as : List (Act L)} {hold : Hold}
    (hr : s.ready t = true) (hp : s.prog t = .acquire l m :: as)
    (ht : (s.lock l).take t m = some hold) :
    Inv rank ((s.setLock l hold).rest t as) := by
  have ho := h.ordered t
  rw [hp] at ho
  have hout : t ∉ (s.lock l).holders := fun hin => lt_irrefl _ (ho.1 l hin)
  have hh := Hold.take_holders ht
  refine ⟨fun u => ?_, fun k => ?_, fun u hu => ?_, h.born, h.waits⟩
  · rw [held_update]
    by_cases hu : u = t
    · subst hu
      have he : {k | u ∈ (if k = l then hold else s.lock k).holders} = insert l (s.held u) := by
        ext k
        by_cases hk : k = l
        · subst hk
          simp [hh]
        · simp [hk, State.held]
      simpa [he, State.rest] using ho.2
    · have he : {k | u ∈ (if k = l then hold else s.lock k).holders} = s.held u := by
        ext k
        by_cases hk : k = l
        · subst hk
          simp [hh, hu, State.held]
        · simp [hk, State.held]
      simpa [he, State.rest, State.setLock, hu] using h.ordered u
  · by_cases hk : k = l
    · subst hk
      simpa [State.rest, State.setLock, hh] using ⟨hout, h.nodup k⟩
    · simpa [State.rest, State.setLock, hk] using h.nodup k
  · have hu' : u ≠ t := by
      rintro rfl
      exact absurd (hr.symm.trans hu) (by decide)
    simpa [State.rest, State.setLock, hu'] using h.raw u hu

theorem Inv.release (h : Inv rank s) {l : L} {as : List (Act L)} (hr : s.ready t = true)
    (hp : s.prog t = .release l :: as) :
    Inv rank ((s.setLock l ((s.lock l).give t)).rest t as) := by
  have ho := h.ordered t
  rw [hp] at ho
  have hin : t ∈ (s.lock l).holders := ho.1
  have hh := Hold.give_holders hin
  have hmem : ∀ u, u ∈ (s.lock l).holders.erase t ↔ u ≠ t ∧ u ∈ (s.lock l).holders := fun u =>
    (h.nodup l).mem_erase_iff
  refine ⟨fun u => ?_, fun k => ?_, fun u hu => ?_, h.born, h.waits⟩
  · rw [held_update]
    by_cases hu : u = t
    · subst hu
      have he : {k | u ∈ (if k = l then (s.lock l).give u else s.lock k).holders} =
          s.held u \ {l} := by
        ext k
        by_cases hk : k = l
        · subst hk
          simp [hh, hmem]
        · simp [hk, State.held]
      simpa [he, State.rest] using ho.2
    · have he : {k | u ∈ (if k = l then (s.lock l).give t else s.lock k).holders} = s.held u := by
        ext k
        by_cases hk : k = l
        · subst hk
          simp [hh, hmem, hu, State.held]
        · simp [hk, State.held]
      simpa [he, State.rest, State.setLock, hu] using h.ordered u
  · by_cases hk : k = l
    · subst hk
      simpa [State.rest, State.setLock, hh] using (h.nodup k).erase t
    · simpa [State.rest, State.setLock, hk] using h.nodup k
  · have hu' : u ≠ t := by
      rintro rfl
      exact absurd (hr.symm.trans hu) (by decide)
    simpa [State.rest, State.setLock, hu'] using h.raw u hu

theorem Inv.move (h : Inv rank s) (hm : s.move t = some s') : Inv rank s' := by
  obtain ⟨hlt, hm⟩ := move_cases hm
  cases hm with
  | tell hr =>
    refine ⟨h.ordered, h.nodup, fun u hu => ?_, fun u hu => ?_, h.waits⟩
    · have hu' : u ≠ t := by
        rintro rfl
        simp at hu
      exact h.raw u (by simpa [hu'] using hu)
    · have hu' : u ≠ t := fun e => Nat.not_lt.mpr hu (e ▸ hlt)
      simpa [hu'] using h.born u hu
  | told hw hc =>
    refine ⟨h.ordered, h.nodup, fun u hu => ?_, h.born, fun u c hu => ?_⟩
    · obtain ⟨hp, hn⟩ := h.raw u hu
      refine ⟨hp, ?_⟩
      by_cases hu' : u = t
      · simp [hu']
      · simpa [hu'] using hn
    · by_cases hu' : u = t
      · simp [hu'] at hu
      · exact h.waits u c (by simpa [hu'] using hu)
  | acquire hr _ hp ht => exact h.acquire hr hp ht
  | release hr _ hp => exact h.release hr hp
  | start hr _ hp => exact h.start hr hp

theorem Inv.step (h : Inv rank s) (hacts : ∀ c, Ordered rank ∅ (acts c)) {l : Label κ}
    (hs : step acts s l = some s') : Inv rank s' := by
  cases l with
  | move t => exact h.move hs
  | call t c =>
    dsimp only [Locks.step] at hs
    split at hs
    · rename_i hi
      obtain ⟨hlt, hidle⟩ := hi
      obtain rfl := Option.some.inj hs
      have hp : s.prog t = [] := by
        by_contra hne
        exact hidle ⟨hlt, .inr (.inr hne)⟩
      have hr : s.ready t = true := by
        by_contra hne
        exact hidle ⟨hlt, .inl (by simpa using hne)⟩
      have he : s.held t = ∅ := by
        have ho := h.ordered t
        rw [hp] at ho
        exact ho
      refine ⟨fun u => ?_, h.nodup, fun u hu => ?_, h.born, h.waits⟩
      · by_cases hu : u = t
        · subst hu
          have hheld : (s.rest u (acts c)).held u = ∅ := he
          rw [hheld]
          simpa [State.rest] using hacts c
        · simpa [State.rest, State.held, hu] using h.ordered u
      · have hu' : u ≠ t := by
          rintro rfl
          exact absurd (hr.symm.trans hu) (by decide)
        simpa [State.rest, hu'] using h.raw u hu
    · cases hs

theorem Inv.reach (hacts : ∀ c, Ordered rank ∅ (acts c)) {n : ℕ}
    (hr : Reach (Locks.step acts) (fun _ _ => True) (State.initial L n) s) : Inv rank s :=
  hr.invariant (Inv.initial n) fun h _ hs => h.step hacts hs

/-! ### No state is stuck -/

/-- A thread that does not wait for another one, and cannot move, is at a lock it cannot have. -/
theorem blocked_at_lock (hlt : t < s.next) (hr : s.ready t = true) (hw : s.waits t = none)
    (hp : s.prog t ≠ []) (hm : s.move t = none) :
    ∃ l m as, s.prog t = .acquire l m :: as ∧ (s.lock l).take t m = none := by
  simp only [State.move, hlt, hr, hw, if_true, State.act] at hm
  split at hm
  · rename_i he
    exact absurd he hp
  · rename_i l m as he
    exact ⟨l, m, as, he, by simpa using hm⟩
  · cases hm
  · cases hm

/-- If no thread can move, no thread waits for one it has started. -/
theorem Inv.waits_none (h : Inv rank s) (hstuck : ∀ u, s.move u = none) (t : ℕ) :
    s.waits t = none := by
  cases hw : s.waits t with
  | none => rfl
  | some c =>
    have hc : c < s.next := h.waits t c hw
    have hrt : s.ready t = true := by
      by_contra hr
      rw [(h.raw t (by simpa using hr)).2] at hw
      cases hw
    have hlt : t < s.next := by
      by_contra hle
      rw [h.born t (Nat.not_lt.mp hle)] at hrt
      cases hrt
    -- either the new thread can say that it runs, or it has said so
    cases hrc : s.ready c with
    | false =>
      have hm := hstuck c
      simp [State.move, hc, hrc] at hm
    | true =>
      have hm := hstuck t
      simp [State.move, hlt, hrt, hw, hrc] at hm

/-- If no thread can move, no thread waits for a lock: of the locks waited for, one of greatest rank
would have a holder that waits for a lock of greater rank. -/
theorem Inv.no_waiter [WellFoundedGT R] (h : Inv rank s) (hstuck : ∀ u, s.move u = none) (r : R) :
    ∀ l t m as, rank l = r → s.prog t = .acquire l m :: as → (s.lock l).take t m = none → False := by
  induction r using WellFoundedGT.induction with
  | ind r ih =>
    intro l t m as hrank hp ht
    obtain ⟨u, hu⟩ := Hold.exists_holder ht
    have ho := h.ordered u
    have hne : s.prog u ≠ [] := ho.ne_nil hu
    obtain ⟨b, bs, hb⟩ := List.exists_cons_of_ne_nil hne
    have hru := h.ready hb
    have hlt : u < s.next := by
      by_contra hle
      rw [h.born u (Nat.not_lt.mp hle)] at hru
      cases hru
    obtain ⟨l', m', as', hp', ht'⟩ := blocked_at_lock hlt hru (h.waits_none hstuck u) hne (hstuck u)
    rw [hp'] at ho
    exact ih (rank l') (hrank ▸ ho.1 l hu) l' u m' as' rfl hp' ht'

/-- **Where no thread can move, every thread is idle and every lock is free.** -/
theorem Inv.quiet [WellFoundedGT R] (h : Inv rank s) (hstuck : ∀ u, s.move u = none) :
    (∀ t, ¬ s.Busy t) ∧ ∀ l, s.lock l = .free := by
  have hprog : ∀ t, s.prog t = [] := by
    intro t
    by_contra hne
    obtain ⟨b, bs, hb⟩ := List.exists_cons_of_ne_nil hne
    have hr := h.ready hb
    have hlt : t < s.next := by
      by_contra hle
      rw [h.born t (Nat.not_lt.mp hle)] at hr
      cases hr
    obtain ⟨l, m, as, hp, ht⟩ := blocked_at_lock hlt hr (h.waits_none hstuck t) hne (hstuck t)
    exact h.no_waiter hstuck (rank l) l t m as rfl hp ht
  constructor
  · rintro t ⟨hlt, hb⟩
    rcases hb with hr | hw | hp
    · have hm := hstuck t
      simp [State.move, hlt, hr] at hm
    · exact hw (h.waits_none hstuck t)
    · exact hp (hprog t)
  · intro l
    refine Hold.eq_free_of_holders (List.eq_nil_iff_forall_not_mem.mpr fun t ht => ?_)
    exact (h.ordered t).ne_nil ht (hprog t)

/-- **No state is stuck.**  While a thread has something to do, some thread can move. -/
theorem Inv.progress [WellFoundedGT R] (h : Inv rank s) (hb : s.Busy t) :
    ∃ u s', s.move u = some s' := by
  by_contra hno
  have hstuck : ∀ u, s.move u = none := by
    intro u
    cases hm : s.move u with
    | none => rfl
    | some s' => exact absurd ⟨u, s', hm⟩ hno
  exact (h.quiet hstuck).1 t hb

end Invariant

/-! ### Moves come to an end -/

section Weight

variable {s s' : State L} {t : ℕ}

/-- The moves a thread can still make without a new call, and those of the threads it starts. -/
def State.load (s : State L) (t : ℕ) : ℕ :=
  3 * (s.prog t).length + (s.waits t).isSome.toNat + (!s.ready t).toNat

def State.weight (s : State L) : ℕ := ∑ t ∈ Finset.range s.next, s.load t

theorem sum_range_drop {n d : ℕ} {f f' : ℕ → ℕ} (ht : t < n) (hne : ∀ u, u ≠ t → f' u = f u)
    (hd : f' t + d ≤ f t) : ∑ u ∈ Finset.range n, f' u + d ≤ ∑ u ∈ Finset.range n, f u := by
  have hm : t ∈ Finset.range n := Finset.mem_range.mpr ht
  rw [← Finset.add_sum_erase _ f hm, ← Finset.add_sum_erase _ f' hm]
  have he : ∑ u ∈ (Finset.range n).erase t, f' u = ∑ u ∈ (Finset.range n).erase t, f u :=
    Finset.sum_congr rfl fun u hu => hne u (Finset.ne_of_mem_erase hu)
  omega

theorem load_congr {u : ℕ} (hp : s'.prog u = s.prog u) (hw : s'.waits u = s.waits u)
    (hr : s'.ready u = s.ready u) : s'.load u = s.load u := by
  simp only [State.load, hp, hw, hr]

theorem load_rest {as : List (Act L)} {a : Act L} (hw : s'.waits t = s.waits t)
    (hr : s'.ready t = s.ready t) (hp : s.prog t = a :: as) (hp' : s'.prog t = as) :
    s'.load t + 1 ≤ s.load t := by
  simp only [State.load, hw, hr, hp, hp', List.length_cons]
  omega

variable [DecidableEq L]

theorem weight_move (hm : s.move t = some s') (hnew : s.ready s.next = false ∧ s.prog s.next = [] ∧
    s.waits s.next = none) : s'.weight + 1 ≤ s.weight := by
  obtain ⟨hlt, hm⟩ := move_cases hm
  cases hm with
  | tell hr =>
    refine sum_range_drop hlt (fun u hu => load_congr rfl rfl ?_) ?_
    · simp [hu]
    · simp [State.load, hr]
  | told hw hc =>
    refine sum_range_drop hlt (fun u hu => load_congr rfl ?_ rfl) ?_
    · simp [hu]
    · simp only [State.load, hw, Function.update_self, Option.isSome_some, Option.isSome_none,
        Bool.toNat_true, Bool.toNat_false]
      omega
  | acquire hr hw hp ht =>
    refine sum_range_drop hlt (fun u hu => load_congr ?_ rfl rfl) (load_rest rfl rfl hp ?_)
    · simp [State.rest, State.setLock, hu]
    · simp [State.rest]
  | release hr hw hp =>
    refine sum_range_drop hlt (fun u hu => load_congr ?_ rfl rfl) (load_rest rfl rfl hp ?_)
    · simp [State.rest, State.setLock, hu]
    · simp [State.rest]
  | @start as hr hw hp =>
    have hne : s.next ≠ t := Nat.ne_of_gt hlt
    have hdrop : ∑ u ∈ Finset.range s.next, ((s.spawn t).rest t as).load u + 2 ≤ s.weight := by
      refine sum_range_drop hlt (fun u hu => load_congr ?_ ?_ rfl) ?_
      · simp [State.rest, State.spawn, hu]
      · simp [State.rest, State.spawn, hu]
      · simp only [State.load, State.rest, State.spawn, hp, hw, Function.update_self,
          List.length_cons, Option.isSome_some, Option.isSome_none, Bool.toNat_true, Bool.toNat_false]
        omega
    have hborn : ((s.spawn t).rest t as).load s.next = 1 := by
      simp [State.load, State.rest, State.spawn, hne, hnew]
    have hsum : ((s.spawn t).rest t as).weight =
        ∑ u ∈ Finset.range s.next, ((s.spawn t).rest t as).load u + 1 := by
      rw [State.weight, ← hborn]
      exact Finset.sum_range_succ _ s.next
    omega

end Weight

section Moves

variable [DecidableEq L] {R : Type*} [Preorder R] {rank : L → R} {s s' : State L}

theorem Inv.weight_move (h : Inv rank s) {t : ℕ} (hm : s.move t = some s') :
    s'.weight + 1 ≤ s.weight := by
  have hr : s.ready s.next = false := h.born s.next le_rfl
  exact Locks.weight_move hm ⟨hr, h.raw s.next hr⟩

/-- **Moves come to an end**: there are at most `weight` of them without a new call. -/
theorem Inv.weight_runs (h : Inv rank s) {ts : List ℕ} (hr : runs State.move s ts = some s') :
    Inv rank s' ∧ s'.weight + ts.length ≤ s.weight := by
  induction ts generalizing s with
  | nil =>
    obtain rfl : s = s' := Option.some.inj hr
    exact ⟨h, le_rfl⟩
  | cons t ts ih =>
    obtain ⟨u, hu, hrest⟩ := Option.bind_eq_some_iff.mp hr
    obtain ⟨hi, hw⟩ := ih (h.move hu) hrest
    have hstep := h.weight_move hu
    refine ⟨hi, ?_⟩
    rw [List.length_cons]
    omega

end Moves

end LioNet.Lib.Locks
