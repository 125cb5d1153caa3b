import LioNet.Log.Logger

/-!
# The file appender and its stream

`FileLogAppender` of `log.cc` with its `std::ofstream`, and `FSUtil::OpenForWrite` of `util.cc` as far
as the stream sees it.  Whether an open or a write succeeds is left to the environment: a call of `log`
comes with the outcomes of the opens and of the writes that it may lead to.

`reopen` closes the stream only when it has no error flag.  After a failed write the file stays open,
the next `open` fails because it is, and `OpenForWrite` reports the success of `is_open`.  So a stream
that was broken while open stays broken, and this is all that can go wrong: failures to open are made
good by the next `reopen`.
-/

namespace LioNet.Log

/-! ### The stream -/

structure OFStream where
  /-- the open file -/
  file : Option String := none
  failbit : Bool := false
  badbit : Bool := false
  deriving DecidableEq, Repr

namespace OFStream

/-- The negation of `operator bool`. -/
def fail (s : OFStream) : Bool := s.failbit || s.badbit

def is_open (s : OFStream) : Bool := s.file.isSome

def open_ (s : OFStream) (filename : String) (ok : Bool) : OFStream :=
  if s.is_open then { s with failbit := true }
  else if ok then { file := some filename }
  else { s with failbit := true }

def close (s : OFStream) : OFStream :=
  if s.is_open then { s with file := none } else { s with failbit := true }

/-- One output operation: the stream behind it, and whether the output reached the file. -/
def write (s : OFStream) (ok : Bool) : OFStream × Bool :=
  if s.fail then (s, false)
  else if s.is_open && ok then (s, true)
  else ({ s with badbit := true }, false)

def writes (s : OFStream) : List Bool → OFStream × Bool
  | [] => (s, true)
  | ok :: oks => (((s.write ok).1.writes oks).1, (s.write ok).2 && ((s.write ok).1.writes oks).2)

/-- The stream is closed, or it has no error flag. -/
def Sound (s : OFStream) : Prop := s.is_open = true → s.fail = false

/-- The stream is open with an error flag. -/
def Broken (s : OFStream) : Prop := s.is_open = true ∧ s.fail = true

end OFStream

/-- `FSUtil::OpenForWrite`, with the outcomes of the two opens. -/
def OpenForWrite (s : OFStream) (filename : String) (opens : Bool × Bool) : Bool × OFStream :=
  if (s.open_ filename opens.1).is_open then (true, s.open_ filename opens.1)
  else
    (((s.open_ filename opens.1).open_ filename opens.2).is_open,
      (s.open_ filename opens.1).open_ filename opens.2)

/-! ### The appender -/

structure FileLogAppender where
  filename : String
  level : Level := .debug
  lastTime : BitVec 64 := 0
  filestream : OFStream := {}
  deriving DecidableEq, Repr

/-- A call of `log`, with the outcomes of the opens and writes in it. -/
structure LogCall where
  level : Level
  time : BitVec 64
  opens : Bool × Bool
  writes : List Bool
  deriving DecidableEq, Repr

namespace FileLogAppender

def reopen (a : FileLogAppender) (opens : Bool × Bool) : FileLogAppender :=
  let s := if a.filestream.fail then a.filestream else a.filestream.close
  { a with filestream := (OpenForWrite s a.filename opens).2 }

/-- `FileLogAppender::FileLogAppender`. -/
def construct (filename : String) (opens : Bool × Bool) : FileLogAppender :=
  FileLogAppender.reopen { filename := filename } opens

def setLevel (a : FileLogAppender) (level : Level) : FileLogAppender := { a with level := level }

/-- The call passes the level of the appender. -/
def passes (a : FileLogAppender) (c : LogCall) : Bool := decide (a.level.toNat ≤ c.level.toNat)

/-- It is time to reopen the file. -/
def due (a : FileLogAppender) (c : LogCall) : Bool := decide (a.lastTime + 3 ≤ c.time)

/-- The appender when it comes to write. -/
def refreshed (a : FileLogAppender) (c : LogCall) : FileLogAppender :=
  if a.due c then { a.reopen c.opens with lastTime := c.time } else a

/-- `log`, and whether the event got into the file. -/
def log (a : FileLogAppender) (c : LogCall) : FileLogAppender × Bool :=
  if a.passes c then
    ({ a.refreshed c with filestream := ((a.refreshed c).filestream.writes c.writes).1 },
      ((a.refreshed c).filestream.writes c.writes).2)
  else (a, false)

/-- The appender after a history of calls. -/
def run (a : FileLogAppender) : List LogCall → FileLogAppender
  | [] => a
  | c :: cs => ((a.log c).1).run cs

end FileLogAppender

/-- All opens and writes of the call succeed. -/
def LogCall.Succeeds (c : LogCall) : Prop := c.opens = (true, true) ∧ ∀ ok ∈ c.writes, ok = true

namespace FileLogAppender

/-- The call leaves the stream open on the file, without an error flag; its event is written, and so
are later ones. -/
structure Recovers (a : FileLogAppender) (c : LogCall) : Prop where
  file : (a.log c).1.filestream.file = some a.filename
  fail : (a.log c).1.filestream.fail = false
  written : (a.log c).2 = true
  later : ∀ cs d, (∀ e ∈ cs, e.Succeeds) → d.Succeeds → ((a.log c).1.run cs).passes d = true →
    (((a.log c).1.run cs).log d).2 = true

/-- Every call that reopens the file recovers, once opens and writes succeed again. -/
def RecoversAlways (a : FileLogAppender) : Prop :=
  ∀ c : LogCall, a.passes c = true → a.due c = true → c.Succeeds → a.Recovers c

/-- A write fails while the file is open. -/
def LosesWrite (a : FileLogAppender) (c : LogCall) : Prop :=
  a.passes c = true ∧ (a.refreshed c).filestream.is_open = true ∧ false ∈ c.writes

/-- No call of the history loses a write. -/
def NoneLosesWrite (a : FileLogAppender) (cs : List LogCall) : Prop :=
  ∀ cs₁ c cs₂, cs = cs₁ ++ c :: cs₂ → ¬(a.run cs₁).LosesWrite c

/-- The event can be written: the stream is open without an error flag, or the call reopens it, and
the writes succeed. -/
def Takes (a : FileLogAppender) (c : LogCall) : Prop :=
  (if a.due c then a.filestream.Sound ∧ (c.opens.1 || c.opens.2) = true
    else a.filestream.is_open = true ∧ a.filestream.fail = false) ∧
  ∀ ok ∈ c.writes, ok = true

end FileLogAppender

/-! ### What the operations do -/

namespace OFStream

variable {s : OFStream}

theorem writes_broken (h : s.fail = true) (oks : List Bool) : (s.writes oks).1 = s := by
  induction oks with
  | nil => rfl
  | cons ok oks ih => rw [writes, write, if_pos h, ih]

theorem writes_good (ho : s.is_open = true) (hf : s.fail = false) {oks : List Bool}
    (h : ∀ ok ∈ oks, ok = true) : s.writes oks = (s, true) := by
  induction oks with
  | nil => rfl
  | cons ok oks ih =>
    obtain rfl : ok = true := h ok List.mem_cons_self
    rw [writes, write, hf, ho]
    simp only [Bool.false_eq_true, if_false, Bool.and_self, if_true]
    rw [ih fun ok hok => h ok (List.mem_cons_of_mem _ hok)]
    rfl

/-- Output reaches the file exactly when the stream is good and each operation succeeds. -/
theorem writes_eq_true {oks : List Bool} (hne : oks ≠ []) :
    (s.writes oks).2 = true ↔
      (s.is_open = true ∧ s.fail = false) ∧ ∀ ok ∈ oks, ok = true := by
  induction oks with
  | nil => exact absurd rfl hne
  | cons ok oks ih =>
    have hcons : (s.writes (ok :: oks)).2 = ((s.write ok).2 && ((s.write ok).1.writes oks).2) := rfl
    by_cases hgood : s.fail = false ∧ (s.is_open && ok) = true
    · obtain ⟨hf, ho⟩ := hgood
      have hw : s.write ok = (s, true) := by
        rw [write, hf, if_neg Bool.false_ne_true, if_pos ho]
      rw [Bool.and_eq_true] at ho
      rw [hcons, hw, Bool.true_and, List.forall_mem_cons]
      cases oks with
      | nil => simp [writes, hf, ho]
      | cons ok' oks => rw [ih (List.cons_ne_nil _ _), and_iff_right ho.2]
    · have hw : (s.write ok).2 = false := by
        unfold write
        split
        · rfl
        · rename_i hf
          rw [if_neg fun ho => hgood ⟨Bool.eq_false_iff.mpr hf, ho⟩]
      rw [hcons, hw, Bool.false_and]
      refine iff_of_false Bool.false_ne_true fun h => hgood ⟨h.1.2, ?_⟩
      rw [h.1.1, h.2 ok List.mem_cons_self]
      rfl

theorem writes_file (oks : List Bool) : (s.writes oks).1.file = s.file := by
  induction oks generalizing s with
  | nil => rfl
  | cons ok oks ih =>
    rw [writes, ih, write]
    split
    · rfl
    · split <;> rfl

theorem writes_is_open (oks : List Bool) : (s.writes oks).1.is_open = s.is_open := by
  rw [is_open, writes_file, is_open]

/-- A failed write on an open stream breaks it. -/
theorem writes_lost (ho : s.is_open = true) {oks : List Bool} (h : false ∈ oks) :
    (s.writes oks).1.Broken := by
  refine ⟨by rw [writes_is_open, ho], ?_⟩
  induction oks generalizing s with
  | nil => cases h
  | cons ok oks ih =>
    by_cases hf : s.fail = true
    · rw [writes_broken hf, hf]
    · have hf' : s.fail = false := Bool.eq_false_iff.mpr hf
      rw [writes, write, hf', ho]
      cases ok with
      | true => exact ih ho (List.mem_of_ne_of_mem Bool.false_ne_true h)
      | false =>
        have hbad : ({ s with badbit := true } : OFStream).fail = true := by simp [fail]
        exact (congrArg fail (writes_broken hbad oks)).trans hbad

theorem writes_sound (h : s.Sound) {oks : List Bool} (hlost : s.is_open = true → false ∉ oks) :
    (s.writes oks).1.Sound := by
  intro ho
  rw [writes_is_open] at ho
  have hall : ∀ ok ∈ oks, ok = true := by
    intro ok hok
    cases ok with
    | true => rfl
    | false => exact absurd hok (hlost ho)
  rw [writes_good ho (h ho) hall]
  exact h ho

theorem open_closed (h : s.is_open = false) (filename : String) (ok : Bool) :
    s.open_ filename ok = if ok then { file := some filename } else { s with failbit := true } := by
  rw [open_, h]
  rfl

end OFStream

theorem OpenForWrite_broken {s : OFStream} (h : s.is_open = true) (filename : String)
    (opens : Bool × Bool) : (OpenForWrite s filename opens).2 = { s with failbit := true } := by
  have hopen : s.open_ filename opens.1 = { s with failbit := true } := by
    rw [OFStream.open_, if_pos h]
  have hstill : ({ s with failbit := true } : OFStream).is_open = true := h
  rw [OpenForWrite, hopen, if_pos hstill]

/-- On a closed stream an open that succeeds clears the flags. -/
theorem OpenForWrite_closed {s : OFStream} (h : s.is_open = false) (filename : String)
    (opens : Bool × Bool) :
    (OpenForWrite s filename opens).2 =
      if opens.1 || opens.2 then { file := some filename } else { s with failbit := true } := by
  obtain ⟨o₁, o₂⟩ := opens
  have hclosed : ({ s with failbit := true } : OFStream).is_open = false := h
  cases o₁ with
  | true =>
    rw [OpenForWrite, OFStream.open_closed h]
    rfl
  | false =>
    rw [OpenForWrite, OFStream.open_closed h]
    simp only [Bool.false_eq_true, if_false, hclosed, Bool.false_or]
    rw [OFStream.open_closed hclosed]

namespace FileLogAppender

variable {a : FileLogAppender} {c : LogCall}

theorem reopen_broken (h : a.filestream.Broken) (opens : Bool × Bool) :
    (a.reopen opens).filestream = { a.filestream with failbit := true } := by
  rw [reopen, h.2]
  exact OpenForWrite_broken h.1 _ _

/-- `reopen` closes a sound stream, or finds it closed. -/
theorem reopen_sound (h : a.filestream.Sound) (opens : Bool × Bool) :
    ∃ s : OFStream, s.is_open = false ∧ (a.reopen opens).filestream =
      if opens.1 || opens.2 then { file := some a.filename } else { s with failbit := true } := by
  rw [reopen]
  cases hf : a.filestream.fail with
  | true =>
    have hclosed : a.filestream.is_open = false := by
      cases ho : a.filestream.is_open with
      | false => rfl
      | true =>
        rw [h ho] at hf
        cases hf
    exact ⟨a.filestream, hclosed, OpenForWrite_closed hclosed _ _⟩
  | false =>
    have hclosed : a.filestream.close.is_open = false := by
      rw [OFStream.close]
      split
      · rfl
      · rename_i ho
        exact Bool.eq_false_iff.mpr ho
    exact ⟨a.filestream.close, hclosed, OpenForWrite_closed hclosed _ _⟩

theorem refreshed_sound (h : a.filestream.Sound) : (a.refreshed c).filestream.Sound := by
  rw [refreshed]
  split
  · obtain ⟨s, hs, heq⟩ := reopen_sound h c.opens
    intro ho
    rw [heq] at ho ⊢
    split at ho
    · rename_i hok
      rw [if_pos hok]
      rfl
    · exact absurd (hs.symm.trans ho) Bool.false_ne_true
  · exact h

/-- A good stream takes a call in which everything succeeds. -/
theorem takes_of_good (hfile : a.filestream.file = some a.filename) (hf : a.filestream.fail = false)
    (hc : c.Succeeds) : a.Takes c := by
  refine ⟨?_, hc.2⟩
  split
  · exact ⟨fun _ => hf, by rw [hc.1]; rfl⟩
  · exact ⟨by rw [OFStream.is_open, hfile]; rfl, hf⟩

/-- When it comes to write, the stream is good if it was or if it could be reopened. -/
theorem refreshed_good : ((a.refreshed c).filestream.is_open = true ∧
      (a.refreshed c).filestream.fail = false) ↔
    if a.due c then a.filestream.Sound ∧ (c.opens.1 || c.opens.2) = true
    else a.filestream.is_open = true ∧ a.filestream.fail = false := by
  unfold refreshed
  split
  · by_cases hs : a.filestream.Sound
    · obtain ⟨s, hclosed, heq⟩ := reopen_sound hs c.opens
      rw [heq, and_iff_right hs]
      split
      · rename_i hok
        exact iff_of_true ⟨rfl, rfl⟩ hok
      · rename_i hok
        exact iff_of_false (fun h => Bool.false_ne_true (hclosed.symm.trans h.1)) hok
    · have hb : a.filestream.Broken := by
        rw [OFStream.Sound, Classical.not_imp, Bool.not_eq_false] at hs
        exact hs
      rw [reopen_broken hb]
      exact iff_of_false (fun h => by simp [OFStream.fail] at h) fun h => hs h.1
  · rfl

/-- **An event that passes the level is written exactly when the appender can take it.** -/
theorem written_iff (hp : a.passes c = true) (hne : c.writes ≠ []) :
    (a.log c).2 = true ↔ a.Takes c := by
  rw [log, if_pos hp, Takes, ← refreshed_good]
  exact OFStream.writes_eq_true hne

theorem log_sound (h : a.filestream.Sound) (hlost : ¬a.LosesWrite c) :
    (a.log c).1.filestream.Sound := by
  rw [log]
  split
  · rename_i hp
    exact OFStream.writes_sound (refreshed_sound h) fun ho hm => hlost ⟨hp, ho, hm⟩
  · exact h

/-- **A broken stream stays broken**, whatever succeeds. -/
theorem log_broken (h : a.filestream.Broken) : (a.log c).1.filestream.Broken := by
  rw [log]
  split
  · have hr : (a.refreshed c).filestream.Broken := by
      rw [refreshed]
      split
      · have heq := reopen_broken h c.opens
        exact ⟨(congrArg OFStream.is_open heq).trans h.1, congrArg OFStream.fail heq⟩
      · exact h
    show ((a.refreshed c).filestream.writes c.writes).1.Broken
    rw [OFStream.writes_broken hr.2]
    exact hr
  · exact h

theorem log_lost (hlost : a.LosesWrite c) : (a.log c).1.filestream.Broken := by
  obtain ⟨hp, ho, hm⟩ := hlost
  rw [log, if_pos hp]
  exact OFStream.writes_lost ho hm

theorem log_filename (a : FileLogAppender) (c : LogCall) : (a.log c).1.filename = a.filename := by
  rw [log]
  split
  · show (a.refreshed c).filename = a.filename
    rw [refreshed]
    split <;> rfl
  · rfl

theorem log_level (a : FileLogAppender) (c : LogCall) : (a.log c).1.level = a.level := by
  rw [log]
  split
  · show (a.refreshed c).level = a.level
    rw [refreshed]
    split <;> rfl
  · rfl

/-! ### Histories -/

theorem run_append (a : FileLogAppender) (cs ds : List LogCall) :
    a.run (cs ++ ds) = (a.run cs).run ds := by
  induction cs generalizing a with
  | nil => rfl
  | cons c cs ih => exact ih _

theorem run_broken (h : a.filestream.Broken) (cs : List LogCall) :
    (a.run cs).filestream.Broken := by
  induction cs generalizing a with
  | nil => exact h
  | cons c cs ih => exact ih (log_broken h)

theorem run_sound (h : a.filestream.Sound) {cs : List LogCall} (hlost : a.NoneLosesWrite cs) :
    (a.run cs).filestream.Sound := by
  induction cs generalizing a with
  | nil => exact h
  | cons c cs ih =>
    refine ih (log_sound h (hlost [] c cs rfl)) fun cs₁ d cs₂ hcs => ?_
    exact hlost (c :: cs₁) d cs₂ (congrArg (c :: ·) hcs)

/-- A stream that is open without a flag stays so while everything succeeds, and everything is
written. -/
theorem log_good (hfile : a.filestream.file = some a.filename) (hf : a.filestream.fail = false)
    (hc : c.Succeeds) : (a.log c).1.filestream.file = some a.filename ∧
      (a.log c).1.filestream.fail = false ∧ (a.passes c = true → (a.log c).2 = true) := by
  have hr : (a.refreshed c).filestream.file = some a.filename ∧
      (a.refreshed c).filestream.fail = false := by
    rw [refreshed]
    split
    · obtain ⟨s, -, heq⟩ := reopen_sound (fun _ => hf) c.opens
      rw [hc.1] at heq
      rw [hc.1]
      exact ⟨congrArg OFStream.file heq, congrArg OFStream.fail heq⟩
    · exact ⟨hfile, hf⟩
  have ho : (a.refreshed c).filestream.is_open = true := by rw [OFStream.is_open, hr.1]; rfl
  have hw := OFStream.writes_good ho hr.2 hc.2
  rw [log]
  split
  · rw [hw]
    exact ⟨hr.1, hr.2, fun _ => rfl⟩
  · rename_i hp
    exact ⟨hfile, hf, fun hp' => absurd hp' hp⟩

theorem run_good (hfile : a.filestream.file = some a.filename) (hf : a.filestream.fail = false)
    {cs : List LogCall} (hcs : ∀ c ∈ cs, c.Succeeds) :
    (a.run cs).filestream.file = some (a.run cs).filename ∧ (a.run cs).filestream.fail = false := by
  induction cs generalizing a with
  | nil => exact ⟨hfile, hf⟩
  | cons c cs ih =>
    obtain ⟨hfile', hf', -⟩ := log_good hfile hf (hcs c List.mem_cons_self)
    refine ih ?_ hf' fun d hd => hcs d (List.mem_cons_of_mem c hd)
    rw [hfile', log_filename]

/-- **A call that reopens a sound stream recovers.** -/
theorem recovers_of_sound (h : a.filestream.Sound) (hp : a.passes c = true) (hd : a.due c = true)
    (hc : c.Succeeds) : a.Recovers c := by
  have hr : (a.refreshed c).filestream = { file := some a.filename } := by
    obtain ⟨s, -, heq⟩ := reopen_sound h c.opens
    rw [refreshed, if_pos hd]
    rw [hc.1] at heq ⊢
    exact heq
  have hw : (a.refreshed c).filestream.writes c.writes = ({ file := some a.filename }, true) := by
    rw [hr]
    exact OFStream.writes_good rfl rfl hc.2
  have hlog : (a.log c).1.filestream = { file := some a.filename } ∧ (a.log c).2 = true := by
    rw [log, if_pos hp, hw]
    exact ⟨rfl, rfl⟩
  have hfile : (a.log c).1.filestream.file = some (a.log c).1.filename := by
    rw [hlog.1, log_filename]
  have hf : (a.log c).1.filestream.fail = false := by rw [hlog.1]; rfl
  refine ⟨by rw [hlog.1], hf, hlog.2, fun cs d hcs hsucc hpass => ?_⟩
  obtain ⟨hfile', hf'⟩ := run_good hfile hf hcs
  exact (log_good hfile' hf' hsucc).2.2 hpass

theorem construct_sound (filename : String) (opens : Bool × Bool) :
    (construct filename opens).filestream.Sound := by
  have h : ({} : OFStream).Sound := fun _ => rfl
  obtain ⟨s, hs, heq⟩ := reopen_sound (a := { filename := filename }) h opens
  intro ho
  rw [construct, heq] at ho ⊢
  split at ho
  · rename_i hok
    rw [if_pos hok]
    rfl
  · exact absurd (hs.symm.trans ho) Bool.false_ne_true

/-- **The appender recovers exactly when no write failed on the open file**, for every history of
failures. -/
theorem recovers_iff (filename : String) (level : Level) (opens : Bool × Bool) (cs : List LogCall) :
    (((construct filename opens).setLevel level).run cs).RecoversAlways ↔
      ((construct filename opens).setLevel level).NoneLosesWrite cs := by
  have hsound : ((construct filename opens).setLevel level).filestream.Sound :=
    construct_sound filename opens
  constructor
  · intro h cs₁ c cs₂ hcs hlost
    -- the stream broke in `c`, and the next call that reopens it finds it broken
    have hbroken : (((construct filename opens).setLevel level).run cs).filestream.Broken := by
      rw [hcs, run_append]
      exact run_broken (log_lost hlost) cs₂
    generalize ((construct filename opens).setLevel level).run cs = a at h hbroken
    have hp : a.passes ⟨.fatal, a.lastTime + 3, (true, true), []⟩ = true := by
      have hfatal : a.level.toNat ≤ 5 := by cases a.level <;> decide
      exact decide_eq_true hfatal
    have hd : a.due ⟨.fatal, a.lastTime + 3, (true, true), []⟩ = true :=
      decide_eq_true (BitVec.le_refl _)
    have hrec := h _ hp hd ⟨rfl, fun ok hok => absurd hok List.not_mem_nil⟩
    have hfail := (log_broken (c := ⟨.fatal, a.lastTime + 3, (true, true), []⟩) hbroken).2
    rw [hrec.fail] at hfail
    cases hfail
  · intro h c hp hd hc
    exact recovers_of_sound (run_sound hsound h) hp hd hc

/-- One failed write, and the next reopen leaves the stream with its flag. -/
theorem not_recovers_write :
    ¬(((construct "log.txt" (true, true)).run
      [⟨.info, 100, (true, true), [false]⟩]).RecoversAlways) := by
  intro h
  have hrec := h ⟨.info, 103, (true, true), [true]⟩ (by decide) (by decide) ⟨rfl, by simp⟩
  exact absurd hrec.written (by decide)

end FileLogAppender

end LioNet.Log
