import LioNet.Lib.Transition

/-!
# How a thread is started

The constructor of `Thread` and `Thread::run`, which it starts with `pthread_create`, in any
interleaving of the two threads, together with what the owner does with the object afterwards
(`getId`, `join`, the destructor) and the task with `Thread::SetName`.

The constructor returns when `run` has called `m_semaphore.notify()`.  `stale` records what reached
into the object when it was destroyed already, `ran` the calls of the task and `seen` what `getId`
returned; the program reads none of them.  `tid` is what `GetThreadId()` returns in the new thread.

`pthread_create` may run the new thread before it has stored `m_thread`.  A `sem_wait` that a signal
interrupts makes the constructor throw, which destroys the object under the running thread: the laws
are about runs in which that does not happen.
-/

namespace LioNet.Thread

open Lib

/-- What the owner does next, or where it is. -/
inductive Owner
  | pthread_create
  /-- in `pthread_create`, which has started the thread -/
  | m_thread
  /-- at `m_semaphore.wait()` -/
  | wait
  /-- the constructor has returned -/
  | owns
  /-- in `pthread_join` -/
  | joining
  | destroyed
  /-- the constructor has thrown -/
  | thrown
  deriving DecidableEq, Repr

/-- What `run` does next. -/
inductive Run
  | unborn
  | t_thread
  | t_thread_name
  | m_id
  | setname
  | swap
  | notify
  /-- `task()` comes next -/
  | call
  /-- in `task()` -/
  | task
  | returned
  deriving DecidableEq, Repr

inductive Access
  | t_thread_name
  | m_id
  | setname
  | swap
  | notify
  | SetName
  deriving DecidableEq, Repr

/-- A `Thread`. -/
structure Object (F : Type) where
  m_id : Int
  m_thread : Bool
  m_func : Option F
  m_name : String
  m_semaphore : Nat
  deriving DecidableEq, Repr

structure State (F : Type) where
  obj : Object F
  owner : Owner
  run : Run
  /-- of the new thread: it is set -/
  t_thread : Bool
  t_thread_name : String
  /-- the name that the system has for the thread -/
  sysName : String
  /-- the local variable of `run` -/
  task : Option F
  ran : List F
  seen : List Int
  stale : List Access
  deriving DecidableEq, Repr

inductive Label
  | pthread_create (ok : Bool)
  | m_thread
  | wait (interrupted : Bool)
  | getId
  | join
  | joined
  | destroy
  /-- the next statement of `run` -/
  | run
  /-- the task calls `Thread::SetName` -/
  | SetName (name : String)
  /-- the task returns -/
  | ret
  deriving DecidableEq, Repr

/-- `Semaphore::wait`, by the count. -/
def Semaphore.wait : Nat → Option Nat
  | 0 => none
  | n + 1 => some n

def Semaphore.notify (n : Nat) : Nat := n + 1

variable {F : Type}

/-- The constructor up to `pthread_create`. -/
def State.construct (func : F) (name : String) : State F where
  obj := {
    m_id := -1
    m_thread := false
    m_func := some func
    m_name := if name.isEmpty then "UNKNOW" else name
    m_semaphore := 0 }
  owner := .pthread_create
  run := .unborn
  t_thread := false
  t_thread_name := "UNKNOW"
  sysName := ""
  task := none
  ran := []
  seen := []
  stale := []

/-- The object is there. -/
def Owner.alive : Owner → Bool
  | .destroyed | .thrown => false
  | .pthread_create | .m_thread | .wait | .owns | .joining => true

def State.touch (s : State F) (a : Access) : State F :=
  { s with stale := if s.owner.alive then s.stale else s.stale ++ [a] }

/-- The next statement of `Thread::run`, up to the call of the task. -/
def State.next (tid : Int) (s : State F) : Option (State F) :=
  match s.run with
  | .unborn | .task | .returned => none
  | .t_thread => some { s with t_thread := true, run := .t_thread_name }
  | .t_thread_name =>
    some { s.touch .t_thread_name with t_thread_name := s.obj.m_name, run := .m_id }
  | .m_id => some { s.touch .m_id with obj := { s.obj with m_id := tid }, run := .setname }
  | .setname =>
    some { s.touch .setname with sysName := .ofList (s.obj.m_name.toList.take 15), run := .swap }
  | .swap =>
    some { s.touch .swap with
      obj := { s.obj with m_func := s.task }, task := s.obj.m_func, run := .notify }
  | .notify =>
    some { s.touch .notify with
      obj := { s.obj with m_semaphore := Semaphore.notify s.obj.m_semaphore }, run := .call }
  | .call => some { s with ran := s.ran ++ s.task.toList, run := .task }

/-- `Thread::SetName` in the new thread. -/
def State.SetName (s : State F) (name : String) : State F :=
  if name.isEmpty then s
  else if s.t_thread then
    { s.touch .SetName with obj := { s.obj with m_name := name }, t_thread_name := name }
  else { s with t_thread_name := name }

def step (tid : Int) (s : State F) : Label → Option (State F)
  | .pthread_create ok =>
    if s.owner = .pthread_create then
      some (if ok then { s with owner := .m_thread, run := .t_thread } else { s with owner := .thrown })
    else none
  | .m_thread =>
    if s.owner = .m_thread then
      some { s with obj := { s.obj with m_thread := true }, owner := .wait }
    else none
  | .wait interrupted =>
    if s.owner = .wait then
      if interrupted then some { s with owner := .thrown }
      else (Semaphore.wait s.obj.m_semaphore).map fun n =>
        { s with obj := { s.obj with m_semaphore := n }, owner := .owns }
    else none
  | .getId => if s.owner = .owns then some { s with seen := s.seen ++ [s.obj.m_id] } else none
  | .join =>
    if s.owner = .owns then some (if s.obj.m_thread then { s with owner := .joining } else s) else none
  | .joined =>
    if s.owner = .joining ∧ s.run = .returned then
      some { s with obj := { s.obj with m_thread := false }, owner := .owns }
    else none
  | .destroy => if s.owner = .owns then some { s with owner := .destroyed } else none
  | .run => s.next tid
  | .SetName name => if s.run = .task then some (s.SetName name) else none
  | .ret => if s.run = .task then some { s with run := .returned } else none

/-! ## Where the two threads can be -/

/-- `t_thread_name` is set. -/
def Run.named : Run → Bool
  | .unborn | .t_thread | .t_thread_name => false
  | .m_id | .setname | .swap | .notify | .call | .task | .returned => true

/-- `m_id` is set. -/
def Run.identified : Run → Bool
  | .unborn | .t_thread | .t_thread_name | .m_id => false
  | .setname | .swap | .notify | .call | .task | .returned => true

/-- The system knows the thread's name. -/
def Run.shown : Run → Bool
  | .unborn | .t_thread | .t_thread_name | .m_id | .setname => false
  | .swap | .notify | .call | .task | .returned => true

/-- The task is the thread's. -/
def Run.swapped : Run → Bool
  | .unborn | .t_thread | .t_thread_name | .m_id | .setname | .swap => false
  | .notify | .call | .task | .returned => true

def Run.notified : Run → Bool
  | .unborn | .t_thread | .t_thread_name | .m_id | .setname | .swap | .notify => false
  | .call | .task | .returned => true

def Run.called : Run → Bool
  | .task | .returned => true
  | .unborn | .t_thread | .t_thread_name | .m_id | .setname | .swap | .notify | .call => false

/-- The constructor has started the thread and has not returned. -/
def Owner.starting : Owner → Bool
  | .m_thread | .wait => true
  | .pthread_create | .owns | .joining | .destroyed | .thrown => false

/-- The name that the constructor gives. -/
def given (name : String) : String := if name.isEmpty then "UNKNOW" else name

/-- What `run` has done so far. -/
structure Progress (tid : Int) (func : F) (name : String) (s : State F) : Prop where
  id : s.obj.m_id = if s.run.identified then tid else -1
  moved : (s.obj.m_func, s.task) = if s.run.swapped then (none, some func) else (some func, none)
  ran : s.ran = if s.run.called then [func] else []
  pointer : s.run ≠ .unborn → s.run ≠ .t_thread → s.t_thread = true
  early : s.run.called = false → s.obj.m_name = given name
  names : s.run.named = true → s.t_thread_name = s.obj.m_name
  sysName : s.run.shown = true → s.sysName = .ofList ((given name).toList.take 15)

/-- Who is where: until `run` has notified, the owner is in the constructor. -/
structure Handshake (tid : Int) (s : State F) : Prop where
  unborn : s.run = .unborn ↔ s.owner = .pthread_create ∨ s.owner = .thrown
  starting : s.run ≠ .unborn → s.run.notified = false → s.owner.starting = true
  semaphore : s.obj.m_semaphore = (s.run.notified && s.owner.starting).toNat
  thread : s.owner = .wait ∨ s.owner = .joining → s.obj.m_thread = true
  joined : s.owner = .owns → s.obj.m_thread = true ∨ s.run = .returned
  seen : ∀ i ∈ s.seen, i = tid
  stale : ∀ a ∈ s.stale, a = .SetName

section Invariant

variable {tid : Int} {func : F} {name : String} {s s' : State F}

theorem Progress.construct : Progress tid func name (State.construct func name) :=
  ⟨rfl, rfl, rfl, fun h => absurd rfl h, fun _ => rfl, nofun, nofun⟩

theorem Handshake.construct : Handshake tid (State.construct func name) :=
  ⟨by simp [State.construct], nofun, rfl, by simp [State.construct], nofun, nofun, nofun⟩

theorem touch_alive (h : s.owner.alive = true) (a : Access) : s.touch a = s := by
  simp only [State.touch, h, if_true]

/-- Before it notifies, `run` reaches into an object that is there. -/
theorem Handshake.alive (h : Handshake tid s) (hb : s.run ≠ .unborn)
    (hn : s.run.notified = false) : s.owner.alive = true := by
  have hs := h.starting hb hn
  cases ho : s.owner <;> simp_all [Owner.starting, Owner.alive]

/-- The statements of `run`, each with the object there. -/
inductive Next (tid : Int) (s : State F) : State F → Prop
  | t_thread : s.run = .t_thread → Next tid s { s with t_thread := true, run := .t_thread_name }
  | t_thread_name : s.run = .t_thread_name →
      Next tid s { s with t_thread_name := s.obj.m_name, run := .m_id }
  | m_id : s.run = .m_id → Next tid s { s with obj := { s.obj with m_id := tid }, run := .setname }
  | setname : s.run = .setname →
      Next tid s { s with sysName := .ofList (s.obj.m_name.toList.take 15), run := .swap }
  | swap : s.run = .swap → Next tid s { s with
      obj := { s.obj with m_func := s.task }, task := s.obj.m_func, run := .notify }
  | notify : s.run = .notify → Next tid s { s with
      obj := { s.obj with m_semaphore := Semaphore.notify s.obj.m_semaphore }, run := .call }
  | call : s.run = .call → Next tid s { s with ran := s.ran ++ s.task.toList, run := .task }

theorem Handshake.next (h : Handshake tid s) (hs : s.next tid = some s') : Next tid s s' := by
  unfold State.next at hs
  split at hs
  · cases hs
  · cases hs
  · cases hs
  · rename_i hr
    obtain rfl := Option.some.inj hs
    exact .t_thread hr
  · rename_i hr
    rw [touch_alive (h.alive (by simp [hr]) (by simp [hr, Run.notified]))] at hs
    obtain rfl := Option.some.inj hs
    exact .t_thread_name hr
  · rename_i hr
    rw [touch_alive (h.alive (by simp [hr]) (by simp [hr, Run.notified]))] at hs
    obtain rfl := Option.some.inj hs
    exact .m_id hr
  · rename_i hr
    rw [touch_alive (h.alive (by simp [hr]) (by simp [hr, Run.notified]))] at hs
    obtain rfl := Option.some.inj hs
    exact .setname hr
  · rename_i hr
    rw [touch_alive (h.alive (by simp [hr]) (by simp [hr, Run.notified]))] at hs
    obtain rfl := Option.some.inj hs
    exact .swap hr
  · rename_i hr
    rw [touch_alive (h.alive (by simp [hr]) (by simp [hr, Run.notified]))] at hs
    obtain rfl := Option.some.inj hs
    exact .notify hr
  · rename_i hr
    obtain rfl := Option.some.inj hs
    exact .call hr

theorem Progress.next (h : Progress tid func name s) (hs : Next tid s s') :
    Progress tid func name s' := by
  obtain ⟨hid, hmoved, hran, hptr, hearly, hnames, hsys⟩ := h
  cases hs with
  | t_thread hr =>
    rw [hr] at hid hmoved hran hearly
    exact ⟨hid, hmoved, hran, fun _ _ => rfl, hearly, nofun, nofun⟩
  | t_thread_name hr =>
    rw [hr] at hid hmoved hran hearly hptr
    exact ⟨hid, hmoved, hran, fun _ _ => hptr nofun nofun, hearly, fun _ => rfl, nofun⟩
  | m_id hr =>
    rw [hr] at hmoved hran hearly hptr hnames
    exact ⟨rfl, hmoved, hran, fun _ _ => hptr nofun nofun, hearly, hnames, nofun⟩
  | setname hr =>
    rw [hr] at hid hmoved hran hearly hptr hnames
    refine ⟨hid, hmoved, hran, fun _ _ => hptr nofun nofun, hearly, hnames, fun _ => ?_⟩
    show String.ofList (s.obj.m_name.toList.take 15) = _
    rw [hearly rfl]
  | swap hr =>
    rw [hr] at hid hmoved hran hearly hptr hnames hsys
    obtain ⟨hf, ht⟩ := Prod.mk.inj hmoved
    refine ⟨hid, ?_, hran, fun _ _ => hptr nofun nofun, hearly, hnames, hsys⟩
    simp [hf, ht, Run.swapped]
  | notify hr =>
    rw [hr] at hid hmoved hran hearly hptr hnames hsys
    exact ⟨hid, hmoved, hran, fun _ _ => hptr nofun nofun, hearly, hnames, hsys⟩
  | call hr =>
    rw [hr] at hid hmoved hran hptr hnames hsys
    obtain ⟨-, ht⟩ := Prod.mk.inj hmoved
    refine ⟨hid, hmoved, ?_, fun _ _ => hptr nofun nofun, nofun, hnames, hsys⟩
    simp [hran, ht, Run.called]

theorem Handshake.move (h : Handshake tid s) (hs : Next tid s s') : Handshake tid s' := by
  obtain ⟨hun, hst, hsem, hth, hjo, hseen, hstale⟩ := h
  have hborn : ∀ {p : Run}, s.run ≠ .unborn → p ≠ .unborn →
      (p = .unborn ↔ s.owner = .pthread_create ∨ s.owner = .thrown) := by
    intro p hs hp
    exact ⟨fun e => absurd e hp, fun e => absurd (hun.mpr e) hs⟩
  have howns : ∀ {p : Run}, s.run ≠ .returned →
      s.owner = .owns → s.obj.m_thread = true ∨ p = .returned := fun hr ho =>
    .inl ((hjo ho).resolve_right hr)
  cases hs with
  | t_thread hr | t_thread_name hr | m_id hr | setname hr | swap hr =>
    rw [hr] at hsem hst hborn howns
    exact ⟨hborn nofun nofun, fun _ _ => hst nofun rfl, hsem, hth, howns nofun, hseen, hstale⟩
  | notify hr =>
    rw [hr] at hsem hst hborn howns
    refine ⟨hborn nofun nofun, nofun, ?_, hth, howns nofun, hseen, hstale⟩
    simp [hsem, hst nofun rfl, Run.notified, Semaphore.notify]
  | call hr =>
    rw [hr] at hsem hborn howns
    exact ⟨hborn nofun nofun, nofun, hsem, hth, howns nofun, hseen, hstale⟩

/-- What `Thread::SetName` does to the names, and to an object that is gone. -/
theorem SetName_cases (s : State F) (n : String) (hp : s.t_thread = true) :
    s.SetName n = s ∨ ∃ stale, (stale = s.stale ∨ stale = s.stale ++ [.SetName]) ∧
      s.SetName n = { s with
        obj := { s.obj with m_name := n }, t_thread_name := n, stale := stale } := by
  cases he : n.isEmpty with
  | true => exact .inl (by simp [State.SetName, he])
  | false =>
    refine .inr ⟨(s.touch .SetName).stale, ?_, ?_⟩
    · cases ha : s.owner.alive with
      | true => exact .inl (by rw [touch_alive ha])
      | false => exact .inr (by simp [State.touch, ha])
    · simp [State.SetName, he, hp, State.touch]

theorem Progress.SetName (h : Progress tid func name s) (hr : s.run = .task) (n : String) :
    Progress tid func name (s.SetName n) := by
  rcases SetName_cases s n (h.pointer (by simp [hr]) (by simp [hr])) with he | ⟨stale, -, he⟩
  · rw [he]
    exact h
  · rw [he]
    exact ⟨h.id, h.moved, h.ran, h.pointer, fun hc => by simp [hr, Run.called] at hc, fun _ => rfl,
      h.sysName⟩

theorem Handshake.SetName (h : Handshake tid s) (hp : s.t_thread = true) (n : String) :
    Handshake tid (s.SetName n) := by
  rcases SetName_cases s n hp with he | ⟨stale, hstale, he⟩
  · rw [he]
    exact h
  · rw [he]
    refine { h with stale := fun a ha => ?_ }
    rcases hstale with rfl | rfl
    · exact h.stale a ha
    · rcases List.mem_append.mp ha with ha | ha
      · exact h.stale a ha
      · exact List.mem_singleton.mp ha

structure Inv (tid : Int) (func : F) (name : String) (s : State F) : Prop where
  progress : Progress tid func name s
  handshake : Handshake tid s

/-- Once the constructor has returned, `run` has notified. -/
theorem Handshake.notified (h : Handshake tid s)
    (ho : s.owner = .owns ∨ s.owner = .joining ∨ s.owner = .destroyed) : s.run.notified = true := by
  by_contra hn
  have hn' : s.run.notified = false := by simpa using hn
  have hb : s.run ≠ .unborn := by
    intro hb
    have hu := h.unborn.mp hb
    rcases ho with ho | ho | ho <;> simp [ho] at hu
  have hst := h.starting hb hn'
  rcases ho with ho | ho | ho <;> simp [ho, Owner.starting] at hst

theorem Handshake.getId (h : Handshake tid s) (hp : Progress tid func name s) (ho : s.owner = .owns) :
    Handshake tid { s with seen := s.seen ++ [s.obj.m_id] } := by
  refine { h with seen := fun i hi => ?_ }
  rcases List.mem_append.mp hi with hi | hi
  · exact h.seen i hi
  · have hid := hp.id
    have hn := h.notified (.inl ho)
    rw [List.mem_singleton.mp hi, hid]
    cases hr : s.run <;> simp_all [Run.notified, Run.identified]

theorem Inv.step (h : Inv tid func name s) {l : Label} (hl : l ≠ .wait true)
    (hs : Thread.step tid s l = some s') : Inv tid func name s' := by
  obtain ⟨hp, hh⟩ := h
  cases l with
  | pthread_create ok =>
    obtain ⟨ho, hs⟩ := Option.ite_none_right_eq_some.mp hs
    have hr : s.run = .unborn := hh.unborn.mpr (.inl ho)
    have hsem := hh.semaphore
    rw [hr] at hsem
    cases ok with
    | true =>
      obtain rfl := Option.some.inj hs
      obtain ⟨hid, hmoved, hran, -, hearly, -, -⟩ := hp
      rw [hr] at hid hmoved hran hearly
      exact ⟨⟨hid, hmoved, hran, fun _ ht => absurd rfl ht, hearly, nofun, nofun⟩, by simp,
        fun _ _ => rfl, hsem, by simp, nofun, hh.seen, hh.stale⟩
    | false =>
      obtain rfl := Option.some.inj hs
      exact ⟨{ hp with }, ⟨fun _ => .inr rfl, fun _ => hr⟩, fun hb => absurd hr hb,
        by simpa [hr, Run.notified] using hsem, by simp, nofun, hh.seen, hh.stale⟩
  | m_thread =>
    obtain ⟨ho, hs⟩ := Option.ite_none_right_eq_some.mp hs
    obtain rfl := Option.some.inj hs
    have hsem := hh.semaphore
    have hst := hh.starting
    have hun := hh.unborn
    rw [ho] at hsem hst hun
    exact ⟨{ hp with }, hun.trans (by simp), hst, hsem, fun _ => rfl, nofun, hh.seen, hh.stale⟩
  | wait interrupted =>
    obtain ⟨ho, hs⟩ := Option.ite_none_right_eq_some.mp hs
    cases interrupted with
    | true => exact absurd rfl hl
    | false =>
      obtain ⟨k, hk, rfl⟩ := Option.map_eq_some_iff.mp hs
      have hsem := hh.semaphore
      have hun := hh.unborn
      rw [ho] at hsem hun
      rw [hsem] at hk
      have hn : s.run.notified = true := by
        by_contra hn
        have hn' : s.run.notified = false := by simpa using hn
        rw [hn', Bool.false_and] at hk
        cases hk
      rw [hn] at hk
      obtain rfl : 0 = k := Option.some.inj hk
      refine ⟨{ hp with }, hun.trans (by simp), fun _ hn' => ?_, ?_, nofun, fun _ => .inl ?_, hh.seen,
        hh.stale⟩
      · exact absurd (hn.symm.trans hn') nofun
      · simp [hn, Owner.starting]
      · exact hh.thread (.inl ho)
  | getId =>
    obtain ⟨ho, hs⟩ := Option.ite_none_right_eq_some.mp hs
    obtain rfl := Option.some.inj hs
    exact ⟨{ hp with }, hh.getId hp ho⟩
  | join =>
    obtain ⟨ho, hs⟩ := Option.ite_none_right_eq_some.mp hs
    cases hm : s.obj.m_thread with
    | false =>
      rw [hm] at hs
      obtain rfl := Option.some.inj hs
      exact ⟨hp, hh⟩
    | true =>
      rw [hm] at hs
      obtain rfl := Option.some.inj hs
      have hsem := hh.semaphore
      have hst := hh.starting
      have hun := hh.unborn
      rw [ho] at hsem hst hun
      exact ⟨{ hp with }, hun.trans (by simp), hst, hsem, fun _ => hm, nofun, hh.seen, hh.stale⟩
  | joined =>
    obtain ⟨⟨ho, hr⟩, hs⟩ := Option.ite_none_right_eq_some.mp hs
    obtain rfl := Option.some.inj hs
    have hsem := hh.semaphore
    have hst := hh.starting
    have hun := hh.unborn
    rw [ho] at hsem hst hun
    exact ⟨{ hp with }, hun.trans (by simp), hst, hsem, by simp, fun _ => .inr hr, hh.seen, hh.stale⟩
  | destroy =>
    obtain ⟨ho, hs⟩ := Option.ite_none_right_eq_some.mp hs
    obtain rfl := Option.some.inj hs
    have hsem := hh.semaphore
    have hst := hh.starting
    have hun := hh.unborn
    rw [ho] at hsem hst hun
    exact ⟨{ hp with }, hun.trans (by simp), hst, hsem, by simp, nofun, hh.seen, hh.stale⟩
  | run =>
    have hn := hh.next hs
    exact ⟨hp.next hn, hh.move hn⟩
  | SetName n =>
    obtain ⟨hr, hs⟩ := Option.ite_none_right_eq_some.mp hs
    obtain rfl := Option.some.inj hs
    exact ⟨hp.SetName hr n, hh.SetName (hp.pointer (by simp [hr]) (by simp [hr])) n⟩
  | ret =>
    obtain ⟨hr, hs⟩ := Option.ite_none_right_eq_some.mp hs
    obtain rfl := Option.some.inj hs
    obtain ⟨hid, hmoved, hran, hptr, hearly, hnames, hsys⟩ := hp
    have hsem := hh.semaphore
    have hun := hh.unborn
    rw [hr] at hid hmoved hran hptr hearly hnames hsys hsem hun
    exact ⟨⟨hid, hmoved, hran, fun _ _ => hptr nofun nofun, hearly, hnames, hsys⟩,
      ⟨nofun, fun ho => nomatch hun.mpr ho⟩, nofun, hsem, hh.thread, fun _ => .inr rfl, hh.seen,
      hh.stale⟩

theorem Inv.reach
    (hr : Reach (Thread.step tid) (fun _ l => l ≠ .wait true) (State.construct func name) s) :
    Inv tid func name s :=
  hr.invariant ⟨.construct, .construct⟩ fun h hl hs => h.step hl hs

/-- The constructor never waits in vain: it can go on, or `run` can. -/
theorem Handshake.can_move (h : Handshake tid s) (ho : s.owner.starting = true) :
    ∃ l ∈ [Label.m_thread, .wait false, .run], ∃ s', Thread.step tid s l = some s' := by
  cases hw : s.owner with
  | m_thread => exact ⟨.m_thread, by simp, _, by simp [Thread.step, hw]; rfl⟩
  | wait =>
    cases hn : s.run.notified with
    | true =>
      have hsem := h.semaphore
      rw [hn, ho] at hsem
      exact ⟨.wait false, by simp, _, by simp [Thread.step, hw, hsem, Semaphore.wait]; rfl⟩
    | false =>
      have hb : s.run ≠ .unborn := fun hb => by simpa [hw] using h.unborn.mp hb
      refine ⟨.run, by simp, ?_⟩
      cases hr : s.run with
      | unborn => exact absurd hr hb
      | call | task | returned => simp [hr, Run.notified] at hn
      | t_thread | t_thread_name | m_id | setname | swap | notify =>
        exact ⟨_, by simp [Thread.step, State.next, hr]; rfl⟩
  | pthread_create | owns | joining | destroyed | thrown => simp [hw, Owner.starting] at ho

end Invariant

/-- **A thread starts safely.**  In any interleaving of the owner and the new thread, whatever name
the task gives the thread and whenever the owner joins or destroys it: once the constructor has
returned, `m_id` is the id of the new thread and `m_func` has gone over to it; `getId` never returns
anything else; `run` never reaches into a destroyed object, except that the task may call `SetName`
too late; the task is called once, with the function given; and the constructor is never stuck. -/
theorem starts_safely {F : Type} {tid : Int} {func : F} {name : String} {s : State F}
    (hr : Reach (step tid) (fun _ l => l ≠ .wait true) (State.construct func name) s) :
    (s.owner = .owns ∨ s.owner = .joining ∨ s.owner = .destroyed →
      s.obj.m_id = tid ∧ s.obj.m_func = none ∧ s.task = some func ∧
        s.t_thread_name = s.obj.m_name ∧ s.sysName = .ofList ((given name).toList.take 15)) ∧
      (∀ i ∈ s.seen, i = tid) ∧ (∀ a ∈ s.stale, a = .SetName) ∧
      (s.ran = if s.run.called then [func] else []) ∧
      (s.owner = .owns → s.obj.m_thread = false → s.run = .returned) ∧
      (s.owner.starting = true →
        ∃ l ∈ [Label.m_thread, .wait false, .run], ∃ s', step tid s l = some s') := by
  obtain ⟨hp, hh⟩ := Inv.reach hr
  refine ⟨fun ho => ?_, hh.seen, hh.stale, hp.ran, fun ho hm => ?_, hh.can_move⟩
  · have hn := hh.notified ho
    have hid := hp.id
    have hmoved := hp.moved
    have hnames := hp.names
    have hsys := hp.sysName
    cases hrun : s.run with
    | unborn | t_thread | t_thread_name | m_id | setname | swap | notify =>
      rw [hrun] at hn
      cases hn
    | call | task | returned =>
      rw [hrun] at hid hmoved hnames hsys
      obtain ⟨hf, ht⟩ := Prod.mk.inj hmoved
      exact ⟨hid, hf, ht, hnames rfl, hsys rfl⟩
  · refine (hh.joined ho).resolve_left ?_
    rw [hm]
    nofun

/-- Where a signal interrupts `sem_wait`, `run` reads the name of an object that is gone. -/
example : (runs (step 41) (State.construct "task" "")
    [.pthread_create true, .m_thread, .wait true, .run, .run]).map State.stale =
      some [.t_thread_name] := by decide

/-- The thread notifies before `m_thread` is stored; the owner asks for the id, destroys the object
and the task names its thread afterwards. -/
def destroyedEarly : List Label :=
  [.pthread_create true, .run, .run, .run, .run, .run, .run, .m_thread, .wait false, .getId, .run,
    .destroy, .SetName "late", .ret]

example : ∃ s : State String,
    runs (step 41) (State.construct "task" "") destroyedEarly = some s ∧
      s.seen = [41] ∧ s.stale = [.SetName] ∧ s.ran = ["task"] ∧ s.obj.m_id = 41 := by
  obtain ⟨s, hr, hc⟩ := exists_of_runs (step 41) (State.construct "task" "") destroyedEarly
    (fun s => decide (s.seen = [41] ∧ s.stale = [.SetName] ∧ s.ran = ["task"] ∧ s.owner = .destroyed))
    (by decide)
  obtain ⟨hseen, hstale, hran, ho⟩ := of_decide_eq_true hc
  have hreach := Reach.of_runs (p := fun l => l ≠ .wait true) .refl (by decide) hr
  exact ⟨s, hr, hseen, hstale, hran, ((starts_safely hreach).1 (.inr (.inr ho))).1⟩

end LioNet.Thread
