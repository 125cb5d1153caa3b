import LioNet.Lib.Transition
import LioNet.Log.FileAppender

/-!
# Lines from many threads

`Logger::log` with all its callers: any number of threads log events through loggers that may share
appenders, while others change formatters and levels and attach and detach appenders, and files are
reopened on the way.  A thread keeps the `m_mutex` of a logger for its whole loop over the appenders, and
the one of an appender for a whole line, which it writes item by item; in `reopen`, in the loop of
`Logger::setFormatter` and in the methods of an appender the lock of the appender covers one access, so
locking, access and unlocking are one step.  `m_appenders` and the formatter of a logger change under its
lock only, so a loop is over the list that was there when the lock was taken.

On a sink with one appender every line stands whole or is missing, in one formatter (`whole_lines`).  Two
appenders on one sink know nothing of each other.

`lines` and `taken` are a ledger, and `out` is what the appenders have written to a sink; what else is
printed to the console is left out.  Whether an open or a write succeeds is left to the environment.  `none`
stands for a move that is not possible, and for the crash of an appender without a formatter.
-/

namespace LioNet.Log.Lines

open LioNet.Lib

abbrev ThreadId := Nat

/-- A logger.  Its appenders may be attached to other loggers as well. -/
structure SharedLogger where
  level : Level
  formatter : Option LogFormatter
  appenders : List AppenderId
  root : Option LoggerId
  deriving DecidableEq, Repr

/-- Where a thread stands in `Logger::log`. -/
inductive Stage
  /-- `level >= m_level` comes next -/
  | check
  /-- the lock comes next -/
  | lock
  /-- the loop, before its next appender -/
  | loop (rest : List AppenderId)
  /-- in `FileLogAppender::log`, and `now >= (m_lastTime + 3)` comes next -/
  | due (a : AppenderId) (rest : List AppenderId)
  /-- `reopen()` comes next -/
  | reopen (a : AppenderId) (rest : List AppenderId)
  /-- `m_lastTime = now` comes next -/
  | stamp (a : AppenderId) (rest : List AppenderId)
  /-- the lock of the appender comes next -/
  | append (a : AppenderId) (rest : List AppenderId)
  /-- in `format`, under the lock of the appender -/
  | write (a : AppenderId) (rest : List AppenderId) (items : List FormatItem)
  deriving DecidableEq, Repr

/-- What a thread does next.  `held` are the loggers whose locks it has, the innermost first. -/
inductive Phase (E : Type)
  | idle
  | log (held : List LoggerId) (lg : LoggerId) (event : E) (st : Stage)
  /-- the destructors of the guards -/
  | leave (held : List LoggerId)
  | setFormatter (lg : LoggerId) (val : Option LogFormatter)
  /-- the loop of `setFormatter` -/
  | each (lg : LoggerId) (val : Option LogFormatter) (rest : List AppenderId)
  | addAppender (lg : LoggerId) (a : AppenderId)
  /-- `appender->getFormatter()` comes next -/
  | adopt (lg : LoggerId) (a : AppenderId)
  /-- `appender->setFormatter(m_formatter)` comes next -/
  | adopting (lg : LoggerId) (a : AppenderId)
  | attach (lg : LoggerId) (a : AppenderId)
  | delAppender (lg : LoggerId) (a : AppenderId)
  | clearAppenders (lg : LoggerId)
  /-- `LogAppender::setFormatter` -/
  | own (a : AppenderId) (formatter : Option LogFormatter)
  deriving DecidableEq, Repr

inductive Op (E : Type)
  | log (lg : LoggerId) (event : E)
  | setLevel (lg : LoggerId) (level : Level)
  | setFormatter (lg : LoggerId) (val : Option LogFormatter)
  | addAppender (lg : LoggerId) (a : AppenderId)
  | delAppender (lg : LoggerId) (a : AppenderId)
  | clearAppenders (lg : LoggerId)
  | appenderSetLevel (a : AppenderId) (level : Level)
  | appenderSetFormatter (a : AppenderId) (formatter : Option LogFormatter)
  deriving DecidableEq, Repr

/-- A line of the ledger: an event that a logger formats with a formatter.  It is not `kept` when it was
begun on a stream that takes nothing. -/
structure Line (E : Type) where
  formatter : LogFormatter
  logger : LoggerId
  event : E
  kept : Bool
  deriving DecidableEq, Repr

structure State (E : Type) where
  loggers : LoggerId → SharedLogger
  appenders : AppenderId → LogAppender
  loggerMutex : LoggerId → Option ThreadId
  appenderMutex : AppenderId → Option ThreadId
  phase : ThreadId → Phase E
  /-- `m_filestream` and `m_lastTime` of the file appenders -/
  streams : AppenderId → OFStream
  lastTime : AppenderId → BitVec 64
  /-- what the sinks have got from the appenders -/
  out : Sink → List Char
  /-- the lines that were begun at an appender -/
  lines : AppenderId → List (Line E)
  /-- the events for which a logger has begun its loop -/
  taken : LoggerId → List E

inductive Label (E : Type)
  | call (t : ThreadId) (op : Op E)
  /-- with the outcomes of the opens and of the write that the move may lead to -/
  | move (t : ThreadId) (opens : Bool × Bool) (ok : Bool)
  deriving DecidableEq, Repr

variable {E : Type}

/-- Nobody has called anything. -/
def State.start (loggers : LoggerId → SharedLogger) (appenders : AppenderId → LogAppender)
    (streams : AppenderId → OFStream) : State E where
  loggers := loggers
  appenders := appenders
  loggerMutex := fun _ => none
  appenderMutex := fun _ => none
  phase := fun _ => .idle
  streams := streams
  lastTime := fun _ => 0
  out := fun _ => []
  lines := fun _ => []
  taken := fun _ => []

/-- The file is open and the stream has no error flag. -/
def takes (ofs : OFStream) : Bool := ofs.is_open && !ofs.fail

namespace State

def goto (s : State E) (t : ThreadId) (p : Phase E) : State E :=
  { s with phase := Function.update s.phase t p }

def setLogger (s : State E) (lg : LoggerId) (L : SharedLogger) : State E :=
  { s with loggers := Function.update s.loggers lg L }

def setAppender (s : State E) (a : AppenderId) (ap : LogAppender) : State E :=
  { s with appenders := Function.update s.appenders a ap }

def setLoggerMutex (s : State E) (lg : LoggerId) (holder : Option ThreadId) : State E :=
  { s with loggerMutex := Function.update s.loggerMutex lg holder }

def setAppenderMutex (s : State E) (a : AppenderId) (holder : Option ThreadId) : State E :=
  { s with appenderMutex := Function.update s.appenderMutex a holder }

/-- The stream of an appender takes what is written to it. -/
def good (s : State E) (a : AppenderId) : Bool :=
  match (s.appenders a).sink with
  | .stdout => true
  | .file _ => takes (s.streams a)

def reopen (s : State E) (a : AppenderId) (opens : Bool × Bool) : State E :=
  match (s.appenders a).sink with
  | .stdout => s
  | .file filename =>
    { s with
      streams := Function.update s.streams a
        (FileLogAppender.reopen { filename := filename, filestream := s.streams a } opens).filestream }

/-- An item of a line is written. -/
def put (s : State E) (a : AppenderId) (chars : List Char) (ok : Bool) : State E :=
  match (s.appenders a).sink with
  | .stdout => { s with out := Function.update s.out .stdout (s.out .stdout ++ chars) }
  | .file filename =>
    { s with
      streams := Function.update s.streams a ((s.streams a).write ok).1
      out := Function.update s.out (.file filename)
        (s.out (.file filename) ++ if ((s.streams a).write ok).2 then chars else []) }

/-- The lock of a logger is taken. -/
def lockLogger (s : State E) (t : ThreadId) (lg : LoggerId) (p : Phase E) : Option (State E) :=
  if s.loggerMutex lg = none then some ((s.setLoggerMutex lg (some t)).goto t p) else none

/-- An access to an appender under its lock. -/
def underLock (s : State E) (t : ThreadId) (a : AppenderId) (ap : LogAppender) (p : Phase E) :
    Option (State E) :=
  if s.appenderMutex a = none then some ((s.setAppender a ap).goto t p) else none

/-- An access to the list of appenders under the lock of the logger. -/
def edit (s : State E) (t : ThreadId) (lg : LoggerId) (as : List AppenderId) : Option (State E) :=
  if s.loggerMutex lg = none then
    some ((s.setLogger lg { s.loggers lg with appenders := as }).goto t .idle)
  else none

/-- The next appender of the loop. -/
def enterLoop (s : State E) (t : ThreadId) (held : List LoggerId) (lg : LoggerId) (event : E) :
    Option (State E) :=
  match (s.loggers lg).appenders, (s.loggers lg).root with
  | [], some root => s.lockLogger t lg (.log (lg :: held) root event .check)
  | as, _ =>
    ({ s with taken := Function.update s.taken lg (s.taken lg ++ [event]) } : State E).lockLogger t lg
      (.log (lg :: held) lg event (.loop as))

end State

/-- The `log` of an appender behind its look at the level. -/
def Stage.ofSink (a : AppenderId) (rest : List AppenderId) : Sink → Stage
  | .stdout => .append a rest
  | .file _ => .due a rest

section Step

variable (level : E → Level) (time : E → BitVec 64) (text : LoggerId → E → FormatItem → List Char)

/-- One step of `Logger::log`. -/
def State.logStep (s : State E) (t : ThreadId) (opens : Bool × Bool) (ok : Bool)
    (held : List LoggerId) (lg : LoggerId) (event : E) : Stage → Option (State E)
  | .check =>
    some (s.goto t (if (s.loggers lg).level.toNat ≤ (level event).toNat then .log held lg event .lock
      else .leave held))
  | .lock => s.enterLoop t held lg event
  | .loop [] => some (s.goto t (.leave held))
  | .loop (a :: rest) =>
    some (s.goto t (.log held lg event
      (if (s.appenders a).level.toNat ≤ (level event).toNat then .ofSink a rest (s.appenders a).sink
        else .loop rest)))
  | .due a rest =>
    some (s.goto t (.log held lg event
      (if s.lastTime a + 3 ≤ time event then .reopen a rest else .append a rest)))
  | .reopen a rest =>
    if s.appenderMutex a = none then
      some ((s.reopen a opens).goto t (.log held lg event (.stamp a rest)))
    else none
  | .stamp a rest =>
    some (({ s with lastTime := Function.update s.lastTime a (time event) } : State E).goto t
      (.log held lg event (.append a rest)))
  | .append a rest =>
    if s.appenderMutex a = none then
      (s.appenders a).formatter.map fun f =>
        ({ s.setAppenderMutex a (some t) with
            lines := Function.update s.lines a (s.lines a ++ [⟨f, lg, event, s.good a⟩]) } : State E).goto t
          (.log held lg event (.write a rest f.items))
    else none
  | .write a rest [] => some ((s.setAppenderMutex a none).goto t (.log held lg event (.loop rest)))
  | .write a rest (item :: items) =>
    some ((s.put a (text lg event item) ok).goto t (.log held lg event (.write a rest items)))

def State.move (s : State E) (t : ThreadId) (opens : Bool × Bool) (ok : Bool) : Option (State E) :=
  match s.phase t with
  | .idle => none
  | .log held lg event st => s.logStep level time text t opens ok held lg event st
  | .leave [] => some (s.goto t .idle)
  | .leave (lg :: held) => some ((s.setLoggerMutex lg none).goto t (.leave held))
  | .setFormatter lg val =>
    (s.setLogger lg { s.loggers lg with formatter := val }).lockLogger t lg
      (.each lg val (s.loggers lg).appenders)
  | .each lg _ [] => some (s.goto t (.leave [lg]))
  | .each lg val (a :: rest) =>
    s.underLock t a (Logger.follow val (s.appenders a)) (.each lg val rest)
  | .addAppender lg a => s.lockLogger t lg (.adopt lg a)
  | .adopt lg a =>
    s.underLock t a (s.appenders a)
      (if (s.appenders a).formatter.isNone then .adopting lg a else .attach lg a)
  | .adopting lg a =>
    s.underLock t a ((s.appenders a).setFormatter (s.loggers lg).formatter) (.attach lg a)
  | .attach lg a =>
    some ((s.setLogger lg { s.loggers lg with appenders := (s.loggers lg).appenders ++ [a] }).goto t
      (.leave [lg]))
  | .delAppender lg a => s.edit t lg ((s.loggers lg).appenders.erase a)
  | .clearAppenders lg => s.edit t lg []
  | .own a formatter => s.underLock t a ((s.appenders a).setFormatter formatter) .idle

/-- A call, up to the function's first lock or its first look at a level. -/
def State.call (s : State E) (t : ThreadId) : Op E → State E
  | .log lg event => s.goto t (.log [] lg event .check)
  | .setLevel lg level => s.setLogger lg { s.loggers lg with level := level }
  | .setFormatter lg val => s.goto t (.setFormatter lg val)
  | .addAppender lg a => s.goto t (.addAppender lg a)
  | .delAppender lg a => s.goto t (.delAppender lg a)
  | .clearAppenders lg => s.goto t (.clearAppenders lg)
  | .appenderSetLevel a level => s.setAppender a ((s.appenders a).setLevel level)
  | .appenderSetFormatter a formatter => s.goto t (.own a formatter)

def step (s : State E) : Label E → Option (State E)
  | .call t op =>
    match s.phase t with
    | .idle => some (s.call t op)
    | _ => none
  | .move t opens ok => s.move level time text t opens ok

end Step

/-! ### What a move can do -/

section Moves

variable {level : E → Level} {time : E → BitVec 64} {text : LoggerId → E → FormatItem → List Char}
  {s s' : State E} {t : ThreadId} {ok : Bool}

inductive Moved (level : E → Level) (text : LoggerId → E → FormatItem → List Char) (s : State E)
    (t : ThreadId) (ok : Bool) : State E → Prop
  | pass {held : List LoggerId} {lg : LoggerId} {event : E} :
      s.phase t = .log held lg event .check →
      Moved level text s t ok (s.goto t (.log held lg event .lock))
  | refuse {held : List LoggerId} {lg : LoggerId} {event : E} :
      s.phase t = .log held lg event .check → Moved level text s t ok (s.goto t (.leave held))
  /-- a logger without appenders hands the event on -/
  | enterRoot {held : List LoggerId} {lg root : LoggerId} {event : E} :
      s.phase t = .log held lg event .lock → s.loggerMutex lg = none →
      (s.loggers lg).appenders = [] →
      Moved level text s t ok
        ((s.setLoggerMutex lg (some t)).goto t (.log (lg :: held) root event .check))
  | enter {held : List LoggerId} {lg : LoggerId} {event : E} :
      s.phase t = .log held lg event .lock → s.loggerMutex lg = none →
      Moved level text s t ok
        ((({ s with taken := Function.update s.taken lg (s.taken lg ++ [event]) } :
          State E).setLoggerMutex lg (some t)).goto t
            (.log (lg :: held) lg event (.loop (s.loggers lg).appenders)))
  | done {held : List LoggerId} {lg : LoggerId} {event : E} :
      s.phase t = .log held lg event (.loop []) → Moved level text s t ok (s.goto t (.leave held))
  | take {held : List LoggerId} {lg : LoggerId} {event : E} {a : AppenderId} {rest : List AppenderId} :
      s.phase t = .log held lg event (.loop (a :: rest)) →
      (s.appenders a).level.toNat ≤ (level event).toNat →
      Moved level text s t ok
        (s.goto t (.log held lg event (.ofSink a rest (s.appenders a).sink)))
  | skip {held : List LoggerId} {lg : LoggerId} {event : E} {a : AppenderId} {rest : List AppenderId} :
      s.phase t = .log held lg event (.loop (a :: rest)) →
      ¬(s.appenders a).level.toNat ≤ (level event).toNat →
      Moved level text s t ok (s.goto t (.log held lg event (.loop rest)))
  | due {held : List LoggerId} {lg : LoggerId} {event : E} {a : AppenderId} {rest : List AppenderId}
      {st : Stage} :
      s.phase t = .log held lg event (.due a rest) → st = .reopen a rest ∨ st = .append a rest →
      Moved level text s t ok (s.goto t (.log held lg event st))
  | reopen {held : List LoggerId} {lg : LoggerId} {event : E} {a : AppenderId}
      {rest : List AppenderId} (opens : Bool × Bool) :
      s.phase t = .log held lg event (.reopen a rest) → s.appenderMutex a = none →
      Moved level text s t ok ((s.reopen a opens).goto t (.log held lg event (.stamp a rest)))
  | stamp {held : List LoggerId} {lg : LoggerId} {event : E} {a : AppenderId} {rest : List AppenderId}
      (now : BitVec 64) :
      s.phase t = .log held lg event (.stamp a rest) →
      Moved level text s t ok
        (({ s with lastTime := Function.update s.lastTime a now } : State E).goto t
          (.log held lg event (.append a rest)))
  | beginLine {held : List LoggerId} {lg : LoggerId} {event : E} {a : AppenderId}
      {rest : List AppenderId} {f : LogFormatter} :
      s.phase t = .log held lg event (.append a rest) → s.appenderMutex a = none →
      (s.appenders a).formatter = some f →
      Moved level text s t ok (({ s.setAppenderMutex a (some t) with
          lines := Function.update s.lines a (s.lines a ++ [⟨f, lg, event, s.good a⟩]) } : State E).goto t
        (.log held lg event (.write a rest f.items)))
  | put {held : List LoggerId} {lg : LoggerId} {event : E} {a : AppenderId} {rest : List AppenderId}
      {item : FormatItem} {items : List FormatItem} :
      s.phase t = .log held lg event (.write a rest (item :: items)) →
      Moved level text s t ok
        ((s.put a (text lg event item) ok).goto t (.log held lg event (.write a rest items)))
  | endLine {held : List LoggerId} {lg : LoggerId} {event : E} {a : AppenderId}
      {rest : List AppenderId} :
      s.phase t = .log held lg event (.write a rest []) →
      Moved level text s t ok ((s.setAppenderMutex a none).goto t (.log held lg event (.loop rest)))
  | finish : s.phase t = .leave [] → Moved level text s t ok (s.goto t .idle)
  | unlock {lg : LoggerId} {held : List LoggerId} :
      s.phase t = .leave (lg :: held) →
      Moved level text s t ok ((s.setLoggerMutex lg none).goto t (.leave held))
  | setFormatter {lg : LoggerId} {val : Option LogFormatter} :
      s.phase t = .setFormatter lg val → s.loggerMutex lg = none →
      Moved level text s t ok
        (((s.setLogger lg { s.loggers lg with formatter := val }).setLoggerMutex lg (some t)).goto t
          (.each lg val (s.loggers lg).appenders))
  | eachDone {lg : LoggerId} {val : Option LogFormatter} :
      s.phase t = .each lg val [] → Moved level text s t ok (s.goto t (.leave [lg]))
  | each {lg : LoggerId} {val : Option LogFormatter} {a : AppenderId} {rest : List AppenderId} :
      s.phase t = .each lg val (a :: rest) → s.appenderMutex a = none →
      Moved level text s t ok
        ((s.setAppender a (Logger.follow val (s.appenders a))).goto t (.each lg val rest))
  | addAppender {lg : LoggerId} {a : AppenderId} :
      s.phase t = .addAppender lg a → s.loggerMutex lg = none →
      Moved level text s t ok ((s.setLoggerMutex lg (some t)).goto t (.adopt lg a))
  | adopt {lg : LoggerId} {a : AppenderId} {p : Phase E} :
      s.phase t = .adopt lg a → s.appenderMutex a = none → p = .adopting lg a ∨ p = .attach lg a →
      Moved level text s t ok ((s.setAppender a (s.appenders a)).goto t p)
  | adopting {lg : LoggerId} {a : AppenderId} :
      s.phase t = .adopting lg a → s.appenderMutex a = none →
      Moved level text s t ok
        ((s.setAppender a ((s.appenders a).setFormatter (s.loggers lg).formatter)).goto t
          (.attach lg a))
  | attach {lg : LoggerId} {a : AppenderId} :
      s.phase t = .attach lg a →
      Moved level text s t ok
        ((s.setLogger lg { s.loggers lg with appenders := (s.loggers lg).appenders ++ [a] }).goto t
          (.leave [lg]))
  /-- `delAppender` and `clearAppenders` -/
  | edit {lg : LoggerId} {as : List AppenderId} :
      (∃ a, s.phase t = .delAppender lg a) ∨ s.phase t = .clearAppenders lg →
      s.loggerMutex lg = none → as.Sublist (s.loggers lg).appenders →
      Moved level text s t ok ((s.setLogger lg { s.loggers lg with appenders := as }).goto t .idle)
  | own {a : AppenderId} {formatter : Option LogFormatter} :
      s.phase t = .own a formatter → s.appenderMutex a = none →
      Moved level text s t ok
        ((s.setAppender a ((s.appenders a).setFormatter formatter)).goto t .idle)

theorem lockLogger_cases {lg : LoggerId} {p : Phase E} (h : s.lockLogger t lg p = some s') :
    s.loggerMutex lg = none ∧ (s.setLoggerMutex lg (some t)).goto t p = s' := by
  unfold State.lockLogger at h
  split at h
  · exact ⟨‹_›, Option.some.inj h⟩
  · cases h

theorem underLock_cases {a : AppenderId} {ap : LogAppender} {p : Phase E}
    (h : s.underLock t a ap p = some s') :
    s.appenderMutex a = none ∧ (s.setAppender a ap).goto t p = s' := by
  unfold State.underLock at h
  split at h
  · exact ⟨‹_›, Option.some.inj h⟩
  · cases h

theorem edit_cases {lg : LoggerId} {as : List AppenderId} (h : s.edit t lg as = some s') :
    s.loggerMutex lg = none ∧
      (s.setLogger lg { s.loggers lg with appenders := as }).goto t .idle = s' := by
  unfold State.edit at h
  split at h
  · exact ⟨‹_›, Option.some.inj h⟩
  · cases h

theorem moved_of_logStep {opens : Bool × Bool} {held : List LoggerId} {lg : LoggerId} {event : E}
    {st : Stage} (hp : s.phase t = .log held lg event st)
    (h : s.logStep level time text t opens ok held lg event st = some s') :
    Moved level text s t ok s' := by
  cases st with
  | check =>
    obtain rfl := Option.some.inj h
    split
    · exact .pass hp
    · exact .refuse hp
  | lock =>
    dsimp only [State.logStep, State.enterLoop] at h
    split at h
    · rename_i hnil _
      obtain ⟨hm, rfl⟩ := lockLogger_cases h
      exact .enterRoot hp hm hnil
    · obtain ⟨hm, rfl⟩ := lockLogger_cases h
      exact .enter hp hm
  | loop rest =>
    cases rest with
    | nil =>
      obtain rfl := Option.some.inj h
      exact .done hp
    | cons a rest =>
      obtain rfl := Option.some.inj h
      split
      · exact .take hp ‹_›
      · exact .skip hp ‹_›
  | due a rest =>
    obtain rfl := Option.some.inj h
    refine .due hp ?_
    split
    · exact .inl rfl
    · exact .inr rfl
  | reopen a rest =>
    dsimp only [State.logStep] at h
    split at h
    · obtain rfl := Option.some.inj h
      exact .reopen opens hp ‹_›
    · cases h
  | stamp a rest =>
    obtain rfl := Option.some.inj h
    exact .stamp (time event) hp
  | append a rest =>
    dsimp only [State.logStep] at h
    split at h
    · obtain ⟨f, hf, rfl⟩ := Option.map_eq_some_iff.mp h
      exact .beginLine hp ‹_› hf
    · cases h
  | write a rest items =>
    cases items with
    | nil =>
      obtain rfl := Option.some.inj h
      exact .endLine hp
    | cons item items =>
      obtain rfl := Option.some.inj h
      exact .put hp

theorem call_cases {op : Op E} (h : step level time text s (.call t op) = some s') :
    s.phase t = .idle ∧ s.call t op = s' := by
  dsimp only [step] at h
  split at h
  · exact ⟨‹_›, Option.some.inj h⟩
  · cases h

/-- **What a thread can do.** -/
theorem moved_of_move {opens : Bool × Bool} (h : s.move level time text t opens ok = some s') :
    Moved level text s t ok s' := by
  unfold State.move at h
  split at h
  · cases h
  · exact moved_of_logStep ‹_› h
  · obtain rfl := Option.some.inj h
    exact .finish ‹_›
  · obtain rfl := Option.some.inj h
    exact .unlock ‹_›
  · obtain ⟨hm, rfl⟩ := lockLogger_cases h
    exact .setFormatter ‹_› hm
  · obtain rfl := Option.some.inj h
    exact .eachDone ‹_›
  · obtain ⟨hm, rfl⟩ := underLock_cases h
    exact .each ‹_› hm
  · obtain ⟨hm, rfl⟩ := lockLogger_cases h
    exact .addAppender ‹_› hm
  · obtain ⟨hm, rfl⟩ := underLock_cases h
    refine .adopt ‹_› hm ?_
    split
    · exact .inl rfl
    · exact .inr rfl
  · obtain ⟨hm, rfl⟩ := underLock_cases h
    exact .adopting ‹_› hm
  · obtain rfl := Option.some.inj h
    exact .attach ‹_›
  · obtain ⟨hm, rfl⟩ := edit_cases h
    exact .edit (.inl ⟨_, ‹_›⟩) hm List.erase_sublist
  · obtain ⟨hm, rfl⟩ := edit_cases h
    exact .edit (.inr ‹_›) hm (List.nil_sublist _)
  · obtain ⟨hm, rfl⟩ := underLock_cases h
    exact .own ‹_› hm

end Moves

/-! ### Locks and their holders -/

section Holders

variable {α τ : Type} [DecidableEq α] [DecidableEq τ] {m : α → Option τ} {w : τ → Option α} {a : α}
  {t : τ}

/-- A free lock is taken by a thread that has none. -/
theorem holder_begin (h : ∀ a t, m a = some t ↔ w t = some a) (hm : m a = none) (hw : w t = none)
    (b : α) (u : τ) :
    Function.update m a (some t) b = some u ↔ Function.update w t (some a) u = some b := by
  by_cases hb : b = a
  · subst hb
    rw [Function.update_self, Option.some_inj]
    by_cases hu : u = t
    · rw [hu, Function.update_self]
      exact iff_of_true rfl rfl
    · rw [Function.update_of_ne hu, ← h, hm]
      exact iff_of_false (Ne.symm hu) nofun
  · rw [Function.update_of_ne hb, h]
    by_cases hu : u = t
    · rw [hu, Function.update_self, hw, Option.some_inj]
      exact iff_of_false nofun (Ne.symm hb)
    · rw [Function.update_of_ne hu]

/-- A thread gives its lock back. -/
theorem holder_end (h : ∀ a t, m a = some t ↔ w t = some a) (hw : w t = some a) (b : α) (u : τ) :
    Function.update m a none b = some u ↔ Function.update w t none u = some b := by
  by_cases hb : b = a
  · subst hb
    rw [Function.update_self]
    by_cases hu : u = t
    · rw [hu, Function.update_self]
      exact iff_of_false nofun nofun
    · rw [Function.update_of_ne hu, ← h, (h b t).mpr hw, Option.some_inj]
      exact iff_of_false nofun (Ne.symm hu)
  · rw [Function.update_of_ne hb, h]
    by_cases hu : u = t
    · rw [hu, Function.update_self, hw, Option.some_inj]
      exact iff_of_false (Ne.symm hb) nofun
    · rw [Function.update_of_ne hu]

end Holders

/-! ### Streams -/

section Streams

variable {s : State E} {a : AppenderId}

/-- The fields of a state that opening and writing do not touch. -/
structure Untouched (s s' : State E) : Prop where
  loggers : s'.loggers = s.loggers
  appenders : s'.appenders = s.appenders
  loggerMutex : s'.loggerMutex = s.loggerMutex
  appenderMutex : s'.appenderMutex = s.appenderMutex
  phase : s'.phase = s.phase
  lines : s'.lines = s.lines
  taken : s'.taken = s.taken

theorem untouched_put (s : State E) (a : AppenderId) (chars : List Char) (ok : Bool) :
    Untouched s (s.put a chars ok) := by
  unfold State.put
  split <;> exact ⟨rfl, rfl, rfl, rfl, rfl, rfl, rfl⟩

theorem untouched_reopen (s : State E) (a : AppenderId) (opens : Bool × Bool) :
    Untouched s (s.reopen a opens) := by
  unfold State.reopen
  split <;> exact ⟨rfl, rfl, rfl, rfl, rfl, rfl, rfl⟩

/-- A write that succeeds where it can: a stream that takes nothing stays as it is. -/
theorem write_true (ofs : OFStream) :
    takes (ofs.write true).1 = takes ofs ∧ (ofs.write true).2 = takes ofs := by
  unfold takes OFStream.write
  cases hf : ofs.fail with
  | true => simp [hf]
  | false =>
    cases ho : ofs.is_open with
    | true => simp [hf, ho]
    | false =>
      have hstill : ({ ofs with badbit := true } : OFStream).is_open = false := ho
      simp [hstill]

theorem good_streams {s' : State E} (happenders : s'.appenders = s.appenders)
    (h : takes (s'.streams a) = takes (s.streams a)) : s'.good a = s.good a := by
  unfold State.good
  rw [happenders, h]

theorem out_reopen (opens : Bool × Bool) : (s.reopen a opens).out = s.out := by
  unfold State.reopen
  split <;> rfl

theorem good_reopen {b : AppenderId} (hb : b ≠ a) (opens : Bool × Bool) :
    (s.reopen a opens).good b = s.good b := by
  refine good_streams (untouched_reopen s a opens).appenders (congrArg takes ?_)
  unfold State.reopen
  split
  · rfl
  · exact Function.update_of_ne hb ..

/-- What is written to a good appender gets into its sink, and nothing else does. -/
theorem out_put (chars : List Char) : (s.put a chars true).out =
    Function.update s.out (s.appenders a).sink
      (s.out (s.appenders a).sink ++ if s.good a then chars else []) := by
  unfold State.put State.good
  split
  · rename_i hsink
    rw [hsink]
    rfl
  · rename_i filename hsink
    rw [hsink, ← (write_true (s.streams a)).2]

theorem good_put (chars : List Char) (b : AppenderId) : (s.put a chars true).good b = s.good b := by
  refine good_streams (untouched_put s a chars true).appenders ?_
  unfold State.put
  split
  · rfl
  · show takes (Function.update s.streams a ((s.streams a).write true).1 b) = _
    by_cases hb : b = a
    · rw [hb, Function.update_self, (write_true (s.streams a)).1]
    · rw [Function.update_of_ne hb]

end Streams

/-! ### Whole lines -/

section Whole

variable {level : E → Level} {time : E → BitVec 64} (text : LoggerId → E → FormatItem → List Char)
  {loggers : LoggerId → SharedLogger} {appenders : AppenderId → LogAppender}
  {streams : AppenderId → OFStream} {s s' : State E} {t : ThreadId}

/-- The text of a line. -/
def Line.chars (l : Line E) : List Char :=
  if l.kept then l.formatter.items.flatMap (text l.logger l.event) else []

/-- The appender that the thread writes to. -/
def Phase.writes : Phase E → Option AppenderId
  | .log _ _ _ (.write a _ _) => some a
  | _ => none

/-- What the thread has still to write of its line. -/
def Phase.left : Phase E → List Char
  | .log _ lg event (.write _ _ items) => items.flatMap (text lg event)
  | _ => []

/-- What is missing from the last line of an appender. -/
def State.missing (s : State E) (a : AppenderId) : List Char :=
  if s.good a then ((s.appenderMutex a).map fun t => (s.phase t).left text).getD [] else []

/-- No other appender has the sink of `a`. -/
def Sole (appenders : AppenderId → LogAppender) (a : AppenderId) : Prop :=
  ∀ b, (appenders b).sink = (appenders a).sink → b = a

structure Whole (appenders : AppenderId → LogAppender) (s : State E) : Prop where
  mutex : ∀ a t, s.appenderMutex a = some t ↔ (s.phase t).writes = some a
  sinks : ∀ a, (s.appenders a).sink = (appenders a).sink
  lines : ∀ a, Sole appenders a →
    s.out (appenders a).sink ++ s.missing text a = (s.lines a).flatMap (Line.chars text)
  last : ∀ {t held lg event a rest items}, s.phase t = .log held lg event (.write a rest items) →
    ∃ f, (s.lines a).getLast? = some ⟨f, lg, event, s.good a⟩ ∧ items <:+ f.items

theorem whole_start : Whole text appenders (State.start loggers appenders streams) where
  mutex a t := by
    constructor
    · intro h
      cases h
    · intro h
      cases h
  sinks _ := rfl
  lines a _ := by
    rw [State.missing]
    split <;> rfl
  last h := by cases h

variable {text}

theorem missing_of_free {a : AppenderId} (h : s.appenderMutex a = none) : s.missing text a = [] := by
  rw [State.missing, h]
  exact ite_self _

theorem missing_of_held {a : AppenderId} (h : s.appenderMutex a = some t) :
    s.missing text a = if s.good a then (s.phase t).left text else [] := by
  rw [State.missing, h]
  rfl

/-- **A thread that writes nothing** leaves the lines as they are. -/
theorem Whole.frame (h : Whole text appenders s) {p : Phase E}
    (hp : s'.phase = Function.update s.phase t p) (hold : (s.phase t).writes = none)
    (hnew : p.writes = none) (hm : s'.appenderMutex = s.appenderMutex)
    (hsinks : ∀ a, (s'.appenders a).sink = (s.appenders a).sink)
    (hgood : ∀ a, s.appenderMutex a ≠ none → s'.good a = s.good a) (hout : s'.out = s.out)
    (hlines : s'.lines = s.lines) : Whole text appenders s' := by
  have hother : ∀ u, u ≠ t → s'.phase u = s.phase u := fun u hu => by
    rw [hp, Function.update_of_ne hu]
  have hself : s'.phase t = p := by rw [hp, Function.update_self]
  refine ⟨fun a u => ?_, fun a => (hsinks a).trans (h.sinks a), fun a ha => ?_,
    fun {u _ _ _ b _ _} hu => ?_⟩
  · rw [hm, h.mutex]
    by_cases hu : u = t
    · rw [hu, hold, hself, hnew]
    · rw [hother u hu]
  · have hmissing : s'.missing text a = s.missing text a := by
      cases hu : s.appenderMutex a with
      | none => rw [missing_of_free hu, missing_of_free (hm ▸ hu)]
      | some u =>
        have hne : u ≠ t := by
          rintro rfl
          rw [h.mutex, hold] at hu
          cases hu
        rw [missing_of_held hu, missing_of_held (hm ▸ hu), hother u hne, hgood a (by rw [hu]; nofun)]
    rw [hmissing, hout, hlines]
    exact h.lines a ha
  · by_cases hut : u = t
    · rw [hut, hself] at hu
      rw [hu] at hnew
      cases hnew
    · rw [hother u hut] at hu
      have hheld : s.appenderMutex b = some u := (h.mutex b u).mpr (by rw [hu]; rfl)
      rw [hlines, hgood b (by rw [hheld]; nofun)]
      exact h.last hu

theorem Whole.writer_unique (h : Whole text appenders s) {a : AppenderId} {u : ThreadId}
    (hu : (s.phase u).writes = some a) (ht : (s.phase t).writes = some a) : u = t :=
  Option.some.inj (((h.mutex a u).mpr hu).symm.trans ((h.mutex a t).mpr ht))

/-- An appender that the thread does not write to misses what it missed. -/
theorem Whole.missing_other (h : Whole text appenders s) {p : Phase E} {b : AppenderId}
    (hp : s'.phase = Function.update s.phase t p) (hb : (s.phase t).writes ≠ some b)
    (hm : s'.appenderMutex b = s.appenderMutex b) (hgood : s'.good b = s.good b) :
    s'.missing text b = s.missing text b := by
  cases hu : s.appenderMutex b with
  | none => rw [missing_of_free hu, missing_of_free (hm.trans hu)]
  | some u =>
    have hne : u ≠ t := by
      rintro rfl
      exact hb ((h.mutex b u).mp hu)
    rw [missing_of_held hu, missing_of_held (hm.trans hu), hp, Function.update_of_ne hne, hgood]

/-- **A thread that writes** touches one appender, and what has to be checked is about this one. -/
theorem Whole.touch (h : Whole text appenders s) {a : AppenderId} {p : Phase E}
    (hp : s'.phase = Function.update s.phase t p)
    (hold : ∀ b, b ≠ a → (s.phase t).writes ≠ some b)
    (hmutex : ∀ b u, s'.appenderMutex b = some u ↔
      Function.update (fun u => (s.phase u).writes) t p.writes u = some b)
    (hm : ∀ b, b ≠ a → s'.appenderMutex b = s.appenderMutex b)
    (happ : s'.appenders = s.appenders) (hgood : ∀ b, s'.good b = s.good b)
    (hout : ∀ b, b ≠ a → Sole appenders b → s'.out (appenders b).sink = s.out (appenders b).sink)
    (hlines : ∀ b, b ≠ a → s'.lines b = s.lines b)
    (halone : ∀ u, u ≠ t → (s.phase u).writes ≠ some a)
    (ha : Sole appenders a → s'.out (appenders a).sink ++ s'.missing text a =
      (s'.lines a).flatMap (Line.chars text))
    (hlast : ∀ {held lg event b rest items}, p = .log held lg event (.write b rest items) →
      ∃ f, (s'.lines b).getLast? = some ⟨f, lg, event, s.good b⟩ ∧ items <:+ f.items) :
    Whole text appenders s' := by
  refine ⟨fun b u => ?_, fun b => ?_, fun b hb => ?_, fun {u _ _ _ b _ _} hu => ?_⟩
  · rw [hmutex b u, hp, Function.apply_update (fun _ => Phase.writes) s.phase t p u]
  · rw [happ]
    exact h.sinks b
  · by_cases hba : b = a
    · subst hba
      exact ha hb
    · rw [hout b hba hb, hlines b hba, h.missing_other hp (hold b hba) (hm b hba) (hgood b)]
      exact h.lines b hb
  · rw [hgood b]
    by_cases hut : u = t
    · rw [hut, hp, Function.update_self] at hu
      exact hlast hu
    · rw [hp, Function.update_of_ne hut] at hu
      have hba : b ≠ a := by
        rintro rfl
        exact halone u hut (by rw [hu]; rfl)
      rw [hlines b hba]
      exact h.last hu

/-- A thread begins a line. -/
theorem Whole.beginLine (h : Whole text appenders s) {held : List LoggerId} {lg : LoggerId} {event : E}
    {a : AppenderId} {rest : List AppenderId} {f : LogFormatter}
    (hp : s.phase t = .log held lg event (.append a rest)) (hm : s.appenderMutex a = none) :
    Whole text appenders (({ s.setAppenderMutex a (some t) with
      lines := Function.update s.lines a (s.lines a ++ [⟨f, lg, event, s.good a⟩]) } : State E).goto t
        (.log held lg event (.write a rest f.items))) := by
  have hold : (s.phase t).writes = none := by
    rw [hp]
    rfl
  refine h.touch (a := a) rfl (fun b _ => by rw [hold]; nofun) (holder_begin h.mutex hm hold)
    (fun b hb => Function.update_of_ne hb ..) rfl (fun _ => rfl) (fun _ _ _ => rfl)
    (fun b hb => Function.update_of_ne hb ..) (fun u _ hu => ?_) (fun ha => ?_) (fun he => ?_)
  · rw [← h.mutex, hm] at hu
    cases hu
  · have hlines := h.lines a ha
    rw [missing_of_free hm, List.append_nil] at hlines
    rw [missing_of_held (t := t) (Function.update_self ..)]
    show s.out (appenders a).sink ++
      (if s.good a then (Function.update s.phase t _ t).left text else []) =
        (Function.update s.lines a _ a).flatMap _
    rw [Function.update_self, Function.update_self, List.flatMap_append, ← hlines,
      List.flatMap_singleton]
    rfl
  · cases he
    refine ⟨f, ?_, List.suffix_refl _⟩
    show (Function.update s.lines a _ a).getLast? = _
    rw [Function.update_self]
    exact List.getLast?_concat

/-- A thread writes the next item of its line. -/
theorem Whole.put (h : Whole text appenders s) {held : List LoggerId} {lg : LoggerId} {event : E}
    {a : AppenderId} {rest : List AppenderId} {item : FormatItem} {items : List FormatItem}
    (hp : s.phase t = .log held lg event (.write a rest (item :: items))) :
    Whole text appenders
      ((s.put a (text lg event item) true).goto t (.log held lg event (.write a rest items))) := by
  have hold : (s.phase t).writes = some a := by
    rw [hp]
    rfl
  have hheld := (h.mutex a t).mpr hold
  have hsame : Function.update (fun u => (s.phase u).writes) t (some a) = fun u => (s.phase u).writes :=
    Function.update_eq_self_iff.mpr hold.symm
  have hsame' := untouched_put s a (text lg event item) true
  have hgood := good_put (s := s) (a := a) (text lg event item)
  refine h.touch (a := a) (congrArg (Function.update · t _) hsame'.phase) (fun b hb he => ?_)
    (fun b u => ?_) (fun b _ => congrFun hsame'.appenderMutex b) hsame'.appenders hgood
    (fun b hb hsole => ?_) (fun b _ => congrFun hsame'.lines b)
    (fun u hu hwrites => hu (h.writer_unique hwrites hold)) (fun ha => ?_) (fun he => ?_)
  · rw [hold] at he
    exact hb (Option.some.inj he).symm
  · show (s.put a _ true).appenderMutex b = some u ↔
      Function.update (fun u => (s.phase u).writes) t (some a) u = some b
    rw [hsame, hsame'.appenderMutex]
    exact h.mutex b u
  · -- the sink is that of `a`
    show (s.put a _ true).out _ = _
    rw [out_put]
    refine Function.update_of_ne (fun he => hb ?_) ..
    rw [h.sinks a] at he
    exact (hsole a he.symm).symm
  · have hlines := h.lines a ha
    rw [missing_of_held hheld, hp] at hlines
    have hstill : ((s.put a (text lg event item) true).goto t
        (.log held lg event (.write a rest items))).appenderMutex a = some t :=
      (congrFun hsame'.appenderMutex a).trans hheld
    rw [missing_of_held hstill]
    show (s.put a _ true).out (appenders a).sink ++ (if (s.put a _ true).good a then
      (Function.update (s.put a _ true).phase t _ t).left text else []) =
        ((s.put a _ true).lines a).flatMap _
    rw [out_put, hgood, hsame'.lines, h.sinks a, Function.update_self, Function.update_self, ← hlines,
      List.append_assoc]
    congr 1
    split <;> rfl
  · cases he
    obtain ⟨f, hf, hsuffix⟩ := h.last hp
    rw [← hsame'.lines] at hf
    exact ⟨f, hf, (List.suffix_cons item items).trans hsuffix⟩

/-- A line is complete. -/
theorem Whole.endLine (h : Whole text appenders s) {held : List LoggerId} {lg : LoggerId} {event : E}
    {a : AppenderId} {rest : List AppenderId}
    (hp : s.phase t = .log held lg event (.write a rest [])) :
    Whole text appenders
      ((s.setAppenderMutex a none).goto t (.log held lg event (.loop rest))) := by
  have hold : (s.phase t).writes = some a := by
    rw [hp]
    rfl
  refine h.touch (a := a) rfl (fun b hb he => ?_) (holder_end h.mutex hold)
    (fun b hb => Function.update_of_ne hb ..) rfl (fun _ => rfl) (fun _ _ _ => rfl) (fun _ _ => rfl)
    (fun u hu hwrites => hu (h.writer_unique hwrites hold)) (fun ha => ?_) (fun he => by cases he)
  · rw [hold] at he
    exact hb (Option.some.inj he).symm
  · have hlines := h.lines a ha
    rw [missing_of_held ((h.mutex a t).mpr hold), hp] at hlines
    rw [missing_of_free (Function.update_self ..)]
    refine Eq.trans ?_ hlines
    rw [Phase.left, List.flatMap_nil, ite_self]
    rfl

/-- An access to an appender that leaves it its sink. -/
theorem Whole.access (h : Whole text appenders s) {a : AppenderId} {ap : LogAppender} {p : Phase E}
    (hold : (s.phase t).writes = none) (hnew : p.writes = none)
    (hap : ap.sink = (s.appenders a).sink) :
    Whole text appenders ((s.setAppender a ap).goto t p) := by
  have hsinks : ∀ b, (Function.update s.appenders a ap b).sink = (s.appenders b).sink := by
    intro b
    by_cases hb : b = a
    · rw [hb, Function.update_self, hap]
    · rw [Function.update_of_ne hb]
  refine h.frame rfl hold hnew rfl hsinks (fun b _ => ?_) rfl rfl
  show (match (Function.update s.appenders a ap b).sink with
    | .stdout => true
    | .file _ => takes (s.streams b)) = _
  rw [hsinks b]
  rfl

theorem Whole.move (h : Whole text appenders s) (hm : Moved level text s t true s') :
    Whole text appenders s' := by
  cases hm with
  | beginLine hp hm hf => exact h.beginLine hp hm
  | put hp => exact h.put hp
  | endLine hp => exact h.endLine hp
  | @reopen _ _ _ a _ opens hp hfree =>
    have hsame := untouched_reopen s a opens
    refine h.frame (congrArg (Function.update · t _) hsame.phase) (by rw [hp]; rfl) rfl
      hsame.appenderMutex (fun b => by rw [← hsame.appenders]; rfl) (fun b hb => ?_)
      (out_reopen opens) hsame.lines
    refine good_reopen ?_ opens
    rintro rfl
    exact hb hfree
  | take hp =>
    refine h.frame rfl (by rw [hp]; rfl) ?_ rfl (fun _ => rfl) (fun _ _ => rfl) rfl rfl
    unfold Stage.ofSink
    split <;> rfl
  | due hp hnext =>
    refine h.frame rfl (by rw [hp]; rfl) ?_ rfl (fun _ => rfl) (fun _ _ => rfl) rfl rfl
    rcases hnext with rfl | rfl <;> rfl
  | pass hp | refuse hp | enterRoot hp | enter hp | done hp | skip hp | stamp _ hp | finish hp | unlock hp
    | setFormatter hp | eachDone hp | addAppender hp | attach hp =>
    exact h.frame rfl (by rw [hp]; rfl) rfl rfl (fun _ => rfl) (fun _ _ => rfl) rfl rfl
  | each hp =>
    refine h.access (by rw [hp]; rfl) rfl ?_
    unfold Logger.follow
    split <;> rfl
  | adopt hp hm hnext =>
    refine h.access (by rw [hp]; rfl) ?_ rfl
    rcases hnext with rfl | rfl <;> rfl
  | adopting hp => exact h.access (by rw [hp]; rfl) rfl rfl
  | edit hp =>
    refine h.frame rfl ?_ rfl rfl (fun _ => rfl) (fun _ _ => rfl) rfl rfl
    rcases hp with ⟨a, hp⟩ | hp <;> rw [hp] <;> rfl
  | own hp => exact h.access (by rw [hp]; rfl) rfl rfl

theorem Whole.call (h : Whole text appenders s) (hp : s.phase t = .idle) (op : Op E) :
    Whole text appenders (s.call t op) := by
  have hidle : Function.update s.phase t .idle = s.phase := Function.update_eq_self_iff.mpr hp.symm
  have hwrites : (s.phase t).writes = none := by
    rw [hp]
    rfl
  cases op with
  | log | setFormatter | addAppender | delAppender | clearAppenders | appenderSetFormatter =>
    exact h.frame rfl hwrites rfl rfl (fun _ => rfl) (fun _ _ => rfl) rfl rfl
  | setLevel lg level =>
    exact h.frame (t := t) (p := .idle) hidle.symm hwrites rfl rfl (fun _ => rfl) (fun _ _ => rfl) rfl rfl
  | appenderSetLevel a level =>
    have haccess := h.access (a := a) (p := .idle) hwrites rfl
      (show ((s.appenders a).setLevel level).sink = (s.appenders a).sink from rfl)
    unfold State.goto at haccess
    rw [show (s.setAppender a _).phase = s.phase from rfl, hidle] at haccess
    exact haccess

/-- What is written to an open stream without flags gets into the file. -/
def Label.Writes : Label E → Prop
  | .call _ _ => True
  | .move _ _ ok => ok = true

instance : (l : Label E) → Decidable l.Writes
  | .call _ _ => inferInstanceAs (Decidable True)
  | .move _ _ ok => inferInstanceAs (Decidable (ok = true))

theorem Whole.reach
    (h : Reach (step level time text) (fun _ l => l.Writes) (State.start loggers appenders streams) s) :
    Whole text appenders s := by
  refine h.invariant (I := Whole text appenders) (whole_start text) ?_
  intro s l s' hI hwrites hs
  cases l with
  | call t op =>
    obtain ⟨hp, rfl⟩ := call_cases hs
    exact hI.call hp op
  | move t opens ok =>
    obtain rfl : ok = true := hwrites
    exact hI.move (moved_of_move hs)

/-- **No line is torn.**  Whatever threads log to an appender, whatever else is done to it and however
often its file fails to open, its sink, if it is alone with it, holds whole lines while nobody writes,
each of them in the one formatter that the appender had when the line was begun; the lines that were begun
without a good stream are missing as a whole.  While a thread writes, the lines are followed by the
beginning of its line. -/
theorem whole_lines
    (h : Reach (step level time text) (fun _ l => l.Writes) (State.start loggers appenders streams) s)
    {a : AppenderId} (ha : Sole appenders a) :
    (s.appenderMutex a = none → s.out (appenders a).sink = (s.lines a).flatMap (Line.chars text)) ∧
      ∀ t, s.appenderMutex a = some t → ∃ held lg event rest items f whole written,
        s.phase t = .log held lg event (.write a rest items) ∧
          s.lines a = whole ++ [⟨f, lg, event, s.good a⟩] ∧ f.items = written ++ items ∧
          s.out (appenders a).sink = whole.flatMap (Line.chars text) ++
            if s.good a then written.flatMap (text lg event) else [] := by
  have hI := Whole.reach h
  have hlines := hI.lines a ha
  refine ⟨fun hm => ?_, fun t ht => ?_⟩
  · rw [missing_of_free hm, List.append_nil] at hlines
    exact hlines
  · have hwrites := (hI.mutex a t).mp ht
    obtain ⟨held, lg, event, rest, items, hp⟩ : ∃ held lg event rest items,
        s.phase t = .log held lg event (.write a rest items) := by
      unfold Phase.writes at hwrites
      split at hwrites
      · obtain rfl := Option.some.inj hwrites
        exact ⟨_, _, _, _, _, ‹_›⟩
      · cases hwrites
    obtain ⟨f, hf, written, hitems⟩ := hI.last hp
    obtain ⟨whole, hwhole⟩ := List.getLast?_eq_some_iff.mp hf
    refine ⟨held, lg, event, rest, items, f, whole, written, hp, hwhole, hitems.symm, ?_⟩
    rw [missing_of_held ht, hp, hwhole, List.flatMap_append, List.flatMap_singleton, Line.chars,
      ← hitems, List.flatMap_append] at hlines
    cases hgood : s.good a with
    | false =>
      simp only [hgood, Bool.false_eq_true, if_false, List.append_nil] at hlines ⊢
      exact hlines
    | true =>
      simp only [hgood, if_true] at hlines ⊢
      rw [← List.append_assoc] at hlines
      exact List.append_cancel_right hlines

end Whole

/-! Two threads write to a file while a third gives its appender another formatter. -/

/-- An event with its level and its message. -/
abbrev Plain := Level × String

def plainText (_ : LoggerId) (event : Plain) : FormatItem → List Char
  | .string str => str.toList
  | .item .message _ => event.2.toList
  | .item .newLine _ => ['\n']
  | .item _ _ => []

/-- The step of events that come at the time 7. -/
def plainStep : State Plain → Label Plain → Option (State Plain) :=
  step Prod.fst (fun _ => 7) plainText

/-- One logger with two appenders. -/
def twoFiles (lg : LoggerId) : SharedLogger where
  level := .debug
  formatter := none
  appenders := if lg = 0 then [0, 1] else []
  root := none

/-- The appenders of the logger, and others on the console. -/
def files : AppenderId → LogAppender
  | 0 => ⟨.file "all.txt", .debug, some ⟨"%m%n"⟩, true⟩
  | 1 => ⟨.file "warn.txt", .warn, some ⟨"%m%n"⟩, true⟩
  | _ => ⟨.stdout, .debug, some ⟨"%m%n"⟩, true⟩

def moves (t : ThreadId) (n : Nat) : List (Label Plain) := List.replicate n (.move t (true, true) true)

/-- The file is opened, and a line is written to it.  The second line is begun after the formatter was
changed, and is not complete. -/
def changedBetween : List (Label Plain) :=
  [.call 0 (.log 0 (.info, "a")), .call 1 (.log 0 (.error, "b")),
    .call 2 (.appenderSetFormatter 0 (some ⟨"(%m)%n"⟩))] ++
  moves 0 2 ++ moves 1 1 ++ moves 0 8 ++ moves 2 1 ++ moves 0 3 ++ moves 1 6

example : ∃ s : State Plain, s.appenderMutex 0 = some 1 ∧
    s.out (.file "all.txt") = "a\n(b".toList ∧ ∃ held lg event rest items f whole written,
      s.phase 1 = .log held lg event (.write 0 rest items) ∧
        s.lines 0 = whole ++ [⟨f, lg, event, s.good 0⟩] ∧ f.items = written ++ items ∧
        s.out (files 0).sink = whole.flatMap (Line.chars plainText) ++
          if s.good 0 then written.flatMap (plainText lg event) else [] := by
  obtain ⟨s, hr, hc⟩ := exists_of_runs plainStep (State.start twoFiles files fun _ => {})
    changedBetween (fun s => s.appenderMutex 0 = some 1 ∧ s.out (.file "all.txt") = "a\n(b".toList)
    (by decide +kernel)
  obtain ⟨hheld, hout⟩ := of_decide_eq_true hc
  have hsole : Sole files 0 := by
    intro b hb
    match b with
    | 0 => rfl
    | 1 => exact absurd hb (by decide)
    | b + 2 => cases hb
  have hreach : Reach plainStep (fun _ l => l.Writes) (State.start twoFiles files fun _ => {}) s :=
    .of_runs .refl (p := Label.Writes) (by decide) hr
  exact ⟨s, hheld, hout, (whole_lines hreach hsole).2 1 hheld⟩

/-- Loggers with an appender each. -/
def oneEach (lg : LoggerId) : SharedLogger := ⟨.debug, none, [lg], none⟩

/-- Two appenders on the console have a lock each, and a line of one is torn by the other. -/
example : (runs plainStep (State.start oneEach (fun _ => files 2) fun _ => {})
    ([.call 0 (.log 0 (.info, "a")), .call 1 (.log 1 (.info, "b"))] ++
      moves 0 5 ++ moves 1 6 ++ moves 0 1)).map (fun s => s.out .stdout) = some "ab\n\n".toList := by
  decide +kernel

end LioNet.Log.Lines
