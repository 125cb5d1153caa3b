import LioNet.Log.FileAppender
import LioNet.Lib.Transition

/-!
# The logger manager

`LoggerManager` of `log.cc`: a map from names to loggers, which makes a logger when its name is asked
for the first time.  A new logger writes to standard output and to a file of its name.  The
constructor gives these two appenders to the root logger twice.

`Logger::log` calls `format` of the appenders, each on its stream.  `Streams` says what becomes of such
a call: files are opened when their appender is made and again later, and each open and each write may
fail.  **`once_iff`** says for which loggers an event reaches both sinks once.
-/

namespace LioNet.Log

open LioNet.Lib

structure LoggerManager where
  /-- `m_loggers` -/
  loggers : String → Option LoggerId
  /-- the loggers made so far; their ids are the positions -/
  objects : List Logger
  root : LoggerId

/-- The file of a logger. -/
def logFile (name : String) : String := "log/" ++ name ++ ".txt"

def applyDefaultConfig (lg : Logger) : Logger :=
  (lg.attach { sink := .stdout }).attach { sink := .file (logFile lg.name) }

/-- A call of `format`, by an appender of a logger. -/
structure Output where
  logger : LoggerId
  appender : AppenderId
  sink : Sink
  formatter : LogFormatter
  deriving DecidableEq, Repr

namespace LoggerManager

/-- `LoggerManager::LoggerManager`. -/
def new : LoggerManager :=
  let root := applyDefaultConfig (Logger.new "root")
  { loggers := Function.update (fun _ => none) root.name (some 0)
    objects := [applyDefaultConfig root]
    root := 0 }

def getRoot (m : LoggerManager) : LoggerId := m.root

def getLogger (m : LoggerManager) (name : String) : LoggerId × LoggerManager :=
  match m.loggers name with
  | some id => (id, m)
  | none =>
    (m.objects.length,
      { m with
        loggers := Function.update m.loggers name (some m.objects.length)
        objects := m.objects ++ [{ applyDefaultConfig (.new name) with root := some m.root }] })

/-- `Logger::log`: the calls of `format`.  A logger without appenders hands the event on to the root
logger; `depth` bounds the chain of root loggers. -/
def logFrom (m : LoggerManager) : Nat → LoggerId → Level → Option (List Output)
  | 0, _, _ => some []
  | depth + 1, id, level =>
    (m.objects[id]?).bind fun lg =>
      if lg.level.toNat ≤ level.toNat then
        if lg.appenders ≠ [] then
          (lg.appenders.mapM fun a => ((lg.objects a).log level).map fun calls =>
            calls.map fun call => (⟨id, a, call.1, call.2⟩ : Output)).map List.flatten
        else
          match lg.root with
          | some r => m.logFrom depth r level
          | none => some []
      else some []

/-- No chain is longer than the number of loggers. -/
def log (m : LoggerManager) (id : LoggerId) (level : Level) : Option (List Output) :=
  m.logFrom m.objects.length id level

end LoggerManager

/-! ### Streams -/

/-- What the environment does during a call: the outcomes of the two opens that `OpenForWrite` may make
of a file, and whether a sink takes what is written.  Two appenders of one sink get the same answer. -/
structure Outcomes where
  opens : String → Bool × Bool
  writes : Sink → Bool

/-- Every open and every write succeeds. -/
def Outcomes.Succeeds (io : Outcomes) : Prop :=
  (∀ filename, io.opens filename = (true, true)) ∧ ∀ sink, io.writes sink = true

/-- No file can be opened, or everything succeeds. -/
def Outcomes.all (ok : Bool) : Outcomes := ⟨fun _ => (ok, ok), fun _ => true⟩

/-- What the appenders read of an event. -/
structure Event where
  level : Level
  time : BitVec 64
  deriving DecidableEq, Repr

structure Streams where
  /-- `std::cout` has an error flag -/
  coutFail : Bool
  /-- the file appenders of each logger -/
  files : LoggerId → AppenderId → FileLogAppender

namespace Streams

/-- Before anything is made. -/
def init : Streams := ⟨false, fun _ _ => { filename := "" }⟩

def setFile (t : Streams) (id : LoggerId) (a : AppenderId) (file : FileLogAppender) : Streams :=
  { t with files := Function.update t.files id (Function.update (t.files id) a file) }

/-- The file appender that `applyDefaultConfig` makes, the second one of its two. -/
def applyDefaultConfig (t : Streams) (io : Outcomes) (id : LoggerId) (lg : Logger) : Streams :=
  t.setFile id (lg.made + 1) (.construct (logFile lg.name) (io.opens (logFile lg.name)))

/-- `LoggerManager::LoggerManager`. -/
def new (io : Outcomes) : Streams :=
  let root := Logger.new "root"
  (init.applyDefaultConfig io 0 root).applyDefaultConfig io 0 (Log.applyDefaultConfig root)

/-- `LoggerManager::getLogger`. -/
def getLogger (t : Streams) (io : Outcomes) (m : LoggerManager) (name : String) : Streams :=
  match m.loggers name with
  | some _ => t
  | none => t.applyDefaultConfig io m.objects.length (.new name)

/-- The call of `log` as a file appender sees it. -/
def logCall (io : Outcomes) (e : Event) (filename : String) : LogCall :=
  ⟨e.level, e.time, io.opens filename, [io.writes (.file filename)]⟩

theorem succeeds_logCall {io : Outcomes} (h : io.Succeeds) (e : Event) (filename : String) :
    (logCall io e filename).Succeeds := by
  refine ⟨h.1 filename, fun ok hok => ?_⟩
  rw [List.mem_singleton.mp hok]
  exact h.2 _

/-- A call of `format`, and whether the event reached the sink. -/
def format (t : Streams) (io : Outcomes) (e : Event) (o : Output) : Streams × Bool :=
  match o.sink with
  | .stdout =>
    ({ t with coutFail := !(!t.coutFail && io.writes .stdout) }, !t.coutFail && io.writes .stdout)
  | .file _ =>
    let file := t.files o.logger o.appender
    let (file', ok) := file.log (logCall io e file.filename)
    (t.setFile o.logger o.appender file', ok)

/-- The calls of `format` one after the other, and the sinks that the event reached. -/
def formatAll (io : Outcomes) (e : Event) : Streams → List Output → Streams × List Sink
  | t, [] => (t, [])
  | t, o :: os =>
    let (t', ok) := t.format io e o
    let (t'', sinks) := formatAll io e t' os
    (t'', if ok then o.sink :: sinks else sinks)

end Streams

/-! ### Lookups -/

inductive Lookup
  | getRoot
  | getLogger (name : String)
  deriving DecidableEq, Repr

/-- The name that is asked for. -/
def Lookup.name : Lookup → String
  | .getRoot => "root"
  | .getLogger name => name

namespace Lookups

/-- The manager, and the answers it has given. -/
structure State where
  manager : LoggerManager
  answers : List (Lookup × LoggerId)

def State.init : State := ⟨.new, []⟩

def step (s : State) : Lookup → Option State
  | .getRoot => some { s with answers := (.getRoot, s.manager.getRoot) :: s.answers }
  | .getLogger name =>
    let (id, manager) := s.manager.getLogger name
    some ⟨manager, (.getLogger name, id) :: s.answers⟩

/-- The manager with its answers, and the streams. -/
structure Session where
  lookups : State
  streams : Streams

/-- The environment has a say in the constructor of the manager, too. -/
def Session.init (io : Outcomes) : Session := ⟨.init, .new io⟩

inductive Act
  | lookup (l : Lookup)
  | log (id : LoggerId) (e : Event)
  deriving DecidableEq, Repr

/-- A new logger opens its file. -/
def opened (t : Streams) (io : Outcomes) (m : LoggerManager) : Lookup → Streams
  | .getRoot => t
  | .getLogger name => t.getLogger io m name

/-- Events are logged to loggers that were obtained. -/
def act (r : Session) (l : Act × Outcomes) : Option Session :=
  match l.1 with
  | .lookup q => (step r.lookups q).map fun lookups =>
    ⟨lookups, opened r.streams l.2 r.lookups.manager q⟩
  | .log id e =>
    if id ∈ r.lookups.answers.map Prod.snd then
      (r.lookups.manager.log id e.level).map fun calls =>
        ⟨r.lookups, (r.streams.formatAll l.2 e calls).1⟩
    else none

/-- The event is written once to standard output and once to the file of the logger. -/
def Once (r : Session) (io : Outcomes) (id : LoggerId) (name : String) (e : Event) : Prop :=
  ∃ calls, r.lookups.manager.log id e.level = some calls ∧
    (r.streams.formatAll io e calls).2.count .stdout = 1 ∧
    (r.streams.formatAll io e calls).2.count (.file (logFile name)) = 1

/-! ### The loggers that are made -/

/-- The root logger, and any other logger. -/
def rootLogger : Logger := applyDefaultConfig (applyDefaultConfig (.new "root"))

def namedLogger (name : String) : Logger :=
  { applyDefaultConfig (.new name) with root := some 0 }

/-- An appender as a logger of the default pattern adopts it. -/
def adopted (sink : Sink) : LogAppender := Logger.adopt (some defaultFormatter) { sink := sink }

theorem made_new (name : String) : (Logger.new name).Made := fun a ha => by cases ha

/-- An adopted appender formats what its level lets through. -/
theorem log_adopted (sink : Sink) {level : Level} (h : 1 ≤ level.toNat) :
    (adopted sink).log level = some [(sink, defaultFormatter)] := by
  show (if (1 : Nat) ≤ level.toNat then _ else _) = _
  rw [if_pos h]
  rfl

/-! ### Every sequence of lookups -/

/-- The logger that a name stands for. -/
def loggerOf (name : String) : Logger := if name = "root" then rootLogger else namedLogger name

structure Inv (s : State) : Prop where
  root : s.manager.root = 0
  rootName : s.manager.loggers "root" = some 0
  objects : ∀ name id, s.manager.loggers name = some id →
    s.manager.objects[id]? = some (loggerOf name)
  answers : ∀ i ∈ s.answers, s.manager.loggers i.1.name = some i.2

variable {s s' : State}

/-- A name keeps its logger. -/
theorem getLogger_keeps {m : LoggerManager} {name name' : String} {id : LoggerId}
    (h : m.loggers name' = some id) : (m.getLogger name).2.loggers name' = some id := by
  unfold LoggerManager.getLogger
  split
  · exact h
  · rename_i hnone
    have hne : name' ≠ name := by
      intro e
      rw [e, hnone] at h
      cases h
    show Function.update m.loggers name _ name' = some id
    rw [Function.update_of_ne hne]
    exact h

theorem getLogger_answer (m : LoggerManager) (name : String) :
    (m.getLogger name).2.loggers name = some (m.getLogger name).1 := by
  unfold LoggerManager.getLogger
  split
  · assumption
  · exact Function.update_self _ _ _

theorem Inv.getLogger (h : Inv s) (name : String) :
    Inv ⟨(s.manager.getLogger name).2,
      (.getLogger name, (s.manager.getLogger name).1) :: s.answers⟩ := by
  constructor
  · show (s.manager.getLogger name).2.root = 0
    unfold LoggerManager.getLogger
    split
    · exact h.root
    · exact h.root
  · exact getLogger_keeps h.rootName
  · show ∀ name' id, (s.manager.getLogger name).2.loggers name' = some id →
      (s.manager.getLogger name).2.objects[id]? = some (loggerOf name')
    unfold LoggerManager.getLogger
    split
    · exact h.objects
    · rename_i hnone
      intro name' id hid
      by_cases e : name' = name
      · -- the logger that was just made
        subst e
        have hid' : id = s.manager.objects.length := by
          have hu := (Function.update_self name' (some s.manager.objects.length)
            s.manager.loggers).symm.trans hid
          exact (Option.some.inj hu).symm
        have hroot : name' ≠ "root" := by
          intro e
          rw [e, h.rootName] at hnone
          cases hnone
        rw [hid', List.getElem?_concat_length, loggerOf, if_neg hroot, h.root]
        rfl
      · have hid' : s.manager.loggers name' = some id := by
          rw [← hid]
          exact (Function.update_of_ne e _ _).symm
        have hobj := h.objects name' id hid'
        rw [List.getElem?_append_left (List.getElem?_eq_some_iff.mp hobj).1]
        exact hobj
  · intro i hi
    rcases List.mem_cons.mp hi with he | hi
    · rw [he]
      exact getLogger_answer s.manager name
    · exact getLogger_keeps (h.answers i hi)

theorem Inv.step {l : Lookup} (h : Inv s) (hs : Lookups.step s l = some s') : Inv s' := by
  cases l with
  | getRoot =>
    cases hs
    refine ⟨h.root, h.rootName, h.objects, fun i hi => ?_⟩
    rcases List.mem_cons.mp hi with he | hi
    · rw [he]
      show s.manager.loggers "root" = some s.manager.root
      rw [h.root]
      exact h.rootName
    · exact h.answers i hi
  | getLogger name =>
    cases hs
    exact h.getLogger name

/-- A new manager has the root logger only. -/
theorem new_loggers (name : String) :
    LoggerManager.new.loggers name = if name = "root" then some 0 else none := by
  show Function.update (fun _ => none) "root" (some 0) name = _
  rw [Function.update_apply]

theorem inv_init : Inv State.init := by
  refine ⟨rfl, new_loggers "root", fun name id hid => ?_, fun i hi => by cases hi⟩
  rw [show State.init.manager.loggers name = _ from new_loggers name] at hid
  split at hid
  · rename_i e
    cases hid
    rw [loggerOf, if_pos e]
    rfl
  · cases hid

theorem Inv.reach (h : Reach Lookups.step (fun _ _ => True) State.init s) : Inv s :=
  h.invariant (I := Inv) inv_init fun hI _ hs => hI.step hs

/-! ### Events -/

theorem level_loggerOf (name : String) : (loggerOf name).level = .debug := by
  unfold loggerOf
  split <;> rfl

/-- The appenders of a logger, each with its sink. -/
def sinksOf (name : String) : List (AppenderId × Sink) :=
  if name = "root" then
    [(0, .stdout), (1, .file (logFile name)), (2, .stdout), (3, .file (logFile name))]
  else [(0, .stdout), (1, .file (logFile name))]

theorem appenders_loggerOf (name : String) :
    (loggerOf name).appenders = (sinksOf name).map Prod.fst := by
  unfold loggerOf sinksOf
  split <;> rfl

theorem objects_loggerOf {name : String} {i : AppenderId × Sink} (h : i ∈ sinksOf name) :
    (loggerOf name).objects i.1 = adopted i.2 := by
  unfold sinksOf at h
  unfold loggerOf
  split at h
  · rename_i e
    rw [if_pos e]
    subst e
    simp only [List.mem_cons, List.not_mem_nil, or_false] at h
    rcases h with rfl | rfl | rfl | rfl <;> rfl
  · rename_i e
    rw [if_neg e]
    simp only [List.mem_cons, List.not_mem_nil, or_false] at h
    rcases h with rfl | rfl <;> rfl

/-- A logger has the event formatted by each of its appenders. -/
theorem log_loggerOf {m : LoggerManager} {id : LoggerId} {name : String}
    (hobj : m.objects[id]? = some (loggerOf name)) {level : Level} (h1 : 1 ≤ level.toNat) :
    m.log id level =
      some ((sinksOf name).map fun i => ⟨id, i.1, i.2, defaultFormatter⟩) := by
  have hlen : m.objects.length ≠ 0 := by
    intro e
    rw [List.length_eq_zero_iff.mp e] at hobj
    cases hobj
  obtain ⟨depth, hdepth⟩ := Nat.exists_eq_succ_of_ne_zero hlen
  have hlevel : (loggerOf name).level.toNat ≤ level.toNat := by
    rw [level_loggerOf]
    exact h1
  have happ : (sinksOf name).map Prod.fst ≠ [] := by
    unfold sinksOf
    split <;> exact List.cons_ne_nil _ _
  have hall : ∀ l : List (AppenderId × Sink), (∀ i ∈ l, i ∈ sinksOf name) →
      ((l.map Prod.fst).mapM fun a => (((loggerOf name).objects a).log level).map fun calls =>
        calls.map fun call => (⟨id, a, call.1, call.2⟩ : Output)) =
      some (l.map fun i => [⟨id, i.1, i.2, defaultFormatter⟩]) := by
    intro l hl
    induction l with
    | nil => rfl
    | cons i l ih =>
      rw [List.map_cons, List.mapM_cons, objects_loggerOf (hl i List.mem_cons_self),
        log_adopted i.2 h1, ih fun j hj => hl j (List.mem_cons_of_mem i hj)]
      rfl
  rw [LoggerManager.log, hdepth, LoggerManager.logFrom, hobj, Option.bind_some, if_pos hlevel,
    appenders_loggerOf, if_pos happ, hall _ fun _ h => h, Option.map_some]
  exact congrArg some (List.flatMap_def.symm.trans List.map_eq_flatMap.symm)

/-! ### Sinks -/

variable {io₀ : Outcomes} {r r' : Session}

/-- The lookups of a session, and what stays of its file appenders. -/
structure Session.Inv (r : Session) : Prop where
  lookups : Lookups.Inv r.lookups
  level : ∀ id a, (r.streams.files id a).level = .debug
  filename : ∀ name id, r.lookups.manager.loggers name = some id →
    (r.streams.files id 1).filename = logFile name

theorem files_setFile (t : Streams) (id : LoggerId) (a : AppenderId) (file : FileLogAppender)
    (id' : LoggerId) (a' : AppenderId) :
    (t.setFile id a file).files id' a' = if id' = id ∧ a' = a then file else t.files id' a' := by
  show Function.update t.files id _ id' a' = _
  by_cases hid : id' = id
  · subst hid
    rw [Function.update_self, Function.update_apply]
    simp only [true_and]
  · rw [Function.update_of_ne hid, if_neg fun h => hid h.1]

theorem format_stdout {t : Streams} {io : Outcomes} {e : Event} {o : Output}
    (h : o.sink = .stdout) : t.format io e o =
      ({ t with coutFail := !(!t.coutFail && io.writes .stdout) },
        !t.coutFail && io.writes .stdout) := by
  rw [Streams.format, h]

theorem format_file {t : Streams} {io : Outcomes} {e : Event} {o : Output} {filename : String}
    (h : o.sink = .file filename) : t.format io e o =
      (t.setFile o.logger o.appender ((t.files o.logger o.appender).log
          (Streams.logCall io e (t.files o.logger o.appender).filename)).1,
        ((t.files o.logger o.appender).log
          (Streams.logCall io e (t.files o.logger o.appender).filename)).2) := by
  rw [Streams.format, h]

section Files

variable {P : LoggerId → AppenderId → FileLogAppender → Prop} {t : Streams}

theorem setFile_all (h : ∀ id a, P id a (t.files id a)) {id : LoggerId} {a : AppenderId}
    {file : FileLogAppender} (hfile : P id a file) (id' : LoggerId) (a' : AppenderId) :
    P id' a' ((t.setFile id a file).files id' a') := by
  rw [files_setFile]
  split
  · rename_i he
    rw [he.1, he.2]
    exact hfile
  · exact h id' a'

/-- What `log` keeps of each file appender, an event keeps of all. -/
theorem formatAll_all {io : Outcomes} {e : Event} (h : ∀ id a, P id a (t.files id a))
    (hlog : ∀ id a file filename, P id a file →
      P id a (file.log (Streams.logCall io e filename)).1) (os : List Output) :
    ∀ id a, P id a ((t.formatAll io e os).1.files id a) := by
  induction os generalizing t with
  | nil => exact h
  | cons o os ih =>
    have hstep : ∀ id a, P id a ((t.format io e o).1.files id a) := by
      cases ho : o.sink with
      | stdout =>
        rw [format_stdout ho]
        exact h
      | file filename =>
        rw [format_file ho]
        exact setFile_all h (hlog _ _ _ _ (h _ _))
    exact ih hstep

end Files

/-- What a step of a session does. -/
theorem act_cases {l : Act × Outcomes} (h : act r l = some r') :
    (∃ q, step r.lookups q = some r'.lookups ∧
      r'.streams = opened r.streams l.2 r.lookups.manager q) ∨
    ∃ id e calls, id ∈ r.lookups.answers.map Prod.snd ∧
      r.lookups.manager.log id e.level = some calls ∧
      r' = ⟨r.lookups, (r.streams.formatAll l.2 e calls).1⟩ := by
  obtain ⟨l, io⟩ := l
  cases l with
  | lookup q =>
    obtain ⟨lookups, hq, rfl⟩ := Option.map_eq_some_iff.mp h
    exact .inl ⟨q, hq, rfl⟩
  | log id e =>
    simp only [act] at h
    split at h
    · rename_i hid
      obtain ⟨calls, hlog, rfl⟩ := Option.map_eq_some_iff.mp h
      exact .inr ⟨id, e, calls, hid, hlog, rfl⟩
    · cases h

theorem level_applyDefaultConfig {t : Streams} (h : ∀ id a, (t.files id a).level = .debug)
    (io : Outcomes) (id : LoggerId) (lg : Logger) (id' : LoggerId) (a : AppenderId) :
    ((t.applyDefaultConfig io id lg).files id' a).level = .debug := by
  rw [Streams.applyDefaultConfig, files_setFile]
  split
  · rfl
  · exact h id' a

theorem Session.inv_init (io : Outcomes) : (Session.init io).Inv where
  lookups := Lookups.inv_init
  level := level_applyDefaultConfig (level_applyDefaultConfig (fun _ _ => rfl) io 0 _) io 0 _
  filename := by
    intro name id hid
    rw [show (Session.init io).lookups.manager.loggers name = _ from new_loggers name] at hid
    split at hid
    · rename_i e
      cases hid
      rw [e]
      rfl
    · cases hid

/-- The file of a new logger. -/
theorem files_getLogger (t : Streams) (io : Outcomes) {m : LoggerManager} {name : String}
    (hnone : m.loggers name = none) (id : LoggerId) (a : AppenderId) :
    (t.getLogger io m name).files id a =
      if id = m.objects.length ∧ a = 1 then .construct (logFile name) (io.opens (logFile name))
      else t.files id a := by
  rw [Streams.getLogger, hnone]
  exact files_setFile t _ 1 _ id a

theorem loggers_getLogger {m : LoggerManager} {name : String} (hnone : m.loggers name = none) :
    (m.getLogger name).2.loggers = Function.update m.loggers name (some m.objects.length) := by
  rw [LoggerManager.getLogger, hnone]

/-- The file of a logger is as before, or the logger is new and its file was opened for it. -/
theorem file_getLogger (h : Lookups.Inv s) (t : Streams) (io : Outcomes) {name name' : String}
    {id : LoggerId} (hid : (s.manager.getLogger name).2.loggers name' = some id) :
    s.manager.loggers name' = some id ∧
        (t.getLogger io s.manager name).files id 1 = t.files id 1 ∨
      (t.getLogger io s.manager name).files id 1 =
        .construct (logFile name') (io.opens (logFile name')) := by
  cases hname : s.manager.loggers name with
  | some _ =>
    rw [LoggerManager.getLogger, hname] at hid
    refine .inl ⟨hid, ?_⟩
    rw [Streams.getLogger, hname]
  | none =>
    rw [loggers_getLogger hname, Function.update_apply] at hid
    rw [files_getLogger _ _ hname]
    split at hid
    · rename_i e
      obtain rfl := Option.some.inj hid
      rw [if_pos ⟨rfl, rfl⟩, e]
      exact .inr rfl
    · have hobj := h.objects name' id hid
      rw [if_neg fun he => Nat.ne_of_lt (List.getElem?_eq_some_iff.mp hobj).1 he.1]
      exact .inl ⟨hid, rfl⟩

theorem Session.Inv.getLogger (h : r.Inv) (name : String) (io : Outcomes) :
    Session.Inv ⟨⟨(r.lookups.manager.getLogger name).2,
      (.getLogger name, (r.lookups.manager.getLogger name).1) :: r.lookups.answers⟩,
      r.streams.getLogger io r.lookups.manager name⟩ := by
  refine ⟨h.lookups.getLogger name, ?_, fun name' id hid => ?_⟩
  · show ∀ id a, ((r.streams.getLogger io r.lookups.manager name).files id a).level = .debug
    unfold Streams.getLogger
    split
    · exact h.level
    · exact level_applyDefaultConfig h.level io _ _
  · show ((r.streams.getLogger io r.lookups.manager name).files id 1).filename = logFile name'
    rcases file_getLogger h.lookups r.streams io hid with ⟨hold, he⟩ | he
    · rw [he]
      exact h.filename name' id hold
    · rw [he]
      rfl

theorem Session.Inv.step {l : Act × Outcomes} (h : r.Inv) (hs : act r l = some r') : r'.Inv := by
  obtain ⟨q, hq, hstreams⟩ | ⟨id, e, calls, -, -, rfl⟩ := act_cases hs
  · obtain ⟨lookups, streams⟩ := r'
    obtain rfl : streams = _ := hstreams
    cases q with
    | getRoot =>
      obtain rfl := Option.some.inj hq
      exact ⟨h.lookups.step hq, h.level, h.filename⟩
    | getLogger name =>
      obtain rfl := Option.some.inj hq
      exact h.getLogger name l.2
  · refine ⟨h.lookups, ?_, fun name id hid => ?_⟩
    · refine formatAll_all (P := fun _ _ file => file.level = .debug) h.level ?_ calls
      intro id a file filename hfile
      rw [FileLogAppender.log_level, hfile]
    · refine (formatAll_all (P := fun id a file => file.filename = (r.streams.files id a).filename)
        (fun _ _ => rfl) ?_ calls id 1).trans (h.filename name id hid)
      intro id a file filename hfile
      rw [FileLogAppender.log_filename, hfile]

theorem Session.Inv.reach (h : Reach act (fun _ _ => True) (.init io₀) r) : r.Inv :=
  h.invariant (I := Session.Inv) (inv_init io₀) fun hI _ hs => hI.step hs

/-- Standard output and the log file of a logger take the event. -/
def Writable (r : Session) (io : Outcomes) (id : LoggerId) (name : String) (e : Event) : Prop :=
  (r.streams.coutFail = false ∧ io.writes .stdout = true) ∧
    (r.streams.files id 1).Takes (Streams.logCall io e (logFile name))

theorem formatAll_cons (io : Outcomes) (e : Event) (o : Output) (os : List Output) (t : Streams) :
    (t.formatAll io e (o :: os)).2 =
      if (t.format io e o).2 then o.sink :: ((t.format io e o).1.formatAll io e os).2
      else ((t.format io e o).1.formatAll io e os).2 := rfl

/-- Standard output takes an event as often as it is handed to it, or not at all. -/
theorem count_stdout (io : Outcomes) (e : Event) (os : List Output) (t : Streams) :
    (t.formatAll io e os).2.count .stdout =
      if !t.coutFail && io.writes .stdout then (os.map Output.sink).count .stdout else 0 := by
  induction os generalizing t with
  | nil => simp [Streams.formatAll]
  | cons o os ih =>
    rw [formatAll_cons, List.map_cons]
    cases ho : o.sink with
    | stdout =>
      rw [format_stdout ho]
      cases hout : !t.coutFail && io.writes .stdout with
      | true =>
        have hw : io.writes .stdout = true := (Bool.and_eq_true_iff.mp hout).2
        simp [ih, hw]
      | false => simp [ih]
    | file filename =>
      have hne : Sink.file filename ≠ .stdout := by simp
      rw [List.count_cons_of_ne hne]
      rw [format_file ho]
      split
      · rw [List.count_cons_of_ne hne, ih]
        rfl
      · rw [ih]
        rfl

/-- An event of the root logger gets to standard output twice, or not at all. -/
theorem not_once_root (t : Streams) (io : Outcomes) (e : Event) (id : LoggerId) :
    (t.formatAll io e ((sinksOf "root").map fun i => ⟨id, i.1, i.2, defaultFormatter⟩)).2.count
      .stdout ≠ 1 := by
  rw [count_stdout]
  split
  · simp [sinksOf]
  · exact Nat.zero_ne_one

theorem count_stdout_named (t : Streams) (io : Outcomes) (e : Event) (id : LoggerId) {name : String}
    (h : name ≠ "root") :
    (t.formatAll io e ((sinksOf name).map fun i => ⟨id, i.1, i.2, defaultFormatter⟩)).2.count
      .stdout = if !t.coutFail && io.writes .stdout then 1 else 0 := by
  rw [count_stdout, sinksOf, if_neg h]
  rfl

/-- An event of any other logger gets to its file once, if its file appender writes it. -/
theorem count_file_named {t : Streams} {id : LoggerId} {name : String} (h : name ≠ "root")
    (hfilename : (t.files id 1).filename = logFile name) (io : Outcomes) (e : Event) :
    (t.formatAll io e ((sinksOf name).map fun i => ⟨id, i.1, i.2, defaultFormatter⟩)).2.count
      (.file (logFile name)) =
      if ((t.files id 1).log (Streams.logCall io e (logFile name))).2 then 1 else 0 := by
  have hne : Sink.stdout ≠ .file (logFile name) := by simp
  have hfile : ∀ t' : Streams, t'.files = t.files →
      (t'.formatAll io e [⟨id, 1, .file (logFile name), defaultFormatter⟩]).2.count
        (.file (logFile name)) =
        if ((t.files id 1).log (Streams.logCall io e (logFile name))).2 then 1 else 0 := by
    intro t' ht
    rw [formatAll_cons, format_file rfl, ht, ← hfilename]
    split
    · exact List.count_singleton_self
    · rfl
  rw [sinksOf, if_neg h, List.map_cons, List.map_singleton, formatAll_cons, format_stdout rfl]
  split
  · rw [List.count_cons_of_ne hne]
    exact hfile _ rfl
  · exact hfile _ rfl

/-! ### When everything succeeds -/

/-- Standard output has no error flag, and the file of every logger made is open without one. -/
structure Session.Good (r : Session) : Prop where
  inv : r.Inv
  cout : r.streams.coutFail = false
  file : ∀ name id, r.lookups.manager.loggers name = some id →
    (r.streams.files id 1).filestream.file = some (r.streams.files id 1).filename ∧
      (r.streams.files id 1).filestream.fail = false

theorem coutFail_formatAll {io : Outcomes} (h : io.writes .stdout = true) (e : Event)
    (os : List Output) {t : Streams} (ht : t.coutFail = false) :
    (t.formatAll io e os).1.coutFail = false := by
  induction os generalizing t with
  | nil => exact ht
  | cons o os ih =>
    have hstep : (t.format io e o).1.coutFail = false := by
      cases ho : o.sink with
      | stdout =>
        rw [format_stdout ho, ht, h]
        rfl
      | file filename =>
        rw [format_file ho]
        exact ht
    exact ih hstep

theorem Session.good_init (h₀ : io₀.Succeeds) : (Session.init io₀).Good where
  inv := Session.inv_init io₀
  cout := rfl
  file := by
    intro name id hid
    rw [show (Session.init io₀).lookups.manager.loggers name = _ from new_loggers name] at hid
    split at hid
    · cases hid
      have hfile : (Session.init io₀).streams.files 0 1 =
          .construct (logFile "root") (io₀.opens (logFile "root")) := rfl
      rw [hfile, h₀.1]
      exact ⟨rfl, rfl⟩
    · cases hid

theorem Session.Good.getLogger (h : r.Good) (name : String) {io : Outcomes} (hio : io.Succeeds) :
    Session.Good ⟨⟨(r.lookups.manager.getLogger name).2,
      (.getLogger name, (r.lookups.manager.getLogger name).1) :: r.lookups.answers⟩,
      r.streams.getLogger io r.lookups.manager name⟩ := by
  refine ⟨h.inv.getLogger name io, ?_, fun name' id hid => ?_⟩
  · show (r.streams.getLogger io r.lookups.manager name).coutFail = false
    unfold Streams.getLogger
    split <;> exact h.cout
  · show ((r.streams.getLogger io r.lookups.manager name).files id 1).filestream.file = _ ∧ _
    rcases file_getLogger h.inv.lookups r.streams io hid with ⟨hold, he⟩ | he
    · rw [he]
      exact h.file name' id hold
    · rw [he, hio.1]
      exact ⟨rfl, rfl⟩

theorem Session.Good.step {l : Act × Outcomes} (h : r.Good) (hl : l.2.Succeeds)
    (hs : act r l = some r') : r'.Good := by
  obtain ⟨q, hq, hstreams⟩ | ⟨id, e, calls, -, -, rfl⟩ := act_cases hs
  · obtain ⟨lookups, streams⟩ := r'
    obtain rfl : streams = _ := hstreams
    cases q with
    | getRoot =>
      obtain rfl := Option.some.inj hq
      exact ⟨h.inv.step hs, h.cout, h.file⟩
    | getLogger name =>
      obtain rfl := Option.some.inj hq
      exact h.getLogger name hl
  · refine ⟨h.inv.step hs, coutFail_formatAll (hl.2 _) e calls h.cout, fun name id hid => ?_⟩
    -- only the file appender with the id 1 matters, and it stays good
    have hgood : ∀ id' a, id' = id ∧ a = 1 →
        ((r.streams.formatAll l.2 e calls).1.files id' a).filestream.file =
            some ((r.streams.formatAll l.2 e calls).1.files id' a).filename ∧
          ((r.streams.formatAll l.2 e calls).1.files id' a).filestream.fail = false := by
      refine formatAll_all (P := fun id' a file => id' = id ∧ a = 1 →
        file.filestream.file = some file.filename ∧ file.filestream.fail = false) ?_ ?_ calls
      · rintro _ _ ⟨rfl, rfl⟩
        exact h.file name _ hid
      · intro id' a file filename hfile ha
        obtain ⟨hf, hfail⟩ := hfile ha
        have hlog := FileLogAppender.log_good hf hfail (Streams.succeeds_logCall hl e filename)
        rw [hlog.1, FileLogAppender.log_filename]
        exact ⟨rfl, hlog.2.1⟩
    exact hgood id 1 ⟨rfl, rfl⟩

theorem Session.Good.reach (h₀ : io₀.Succeeds)
    (h : Reach act (fun _ l => l.2.Succeeds) (.init io₀) r) : r.Good :=
  h.invariant (I := Session.Good) (good_init h₀) fun hI hl hs => hI.step hl hs

/-- **While every open and every write succeeds, the sinks of every logger can be written.** -/
theorem writable_of_succeeds (h₀ : io₀.Succeeds)
    (h : Reach act (fun _ l => l.2.Succeeds) (.init io₀) r) :
    ∀ i ∈ r.lookups.answers, ∀ (e : Event) (io : Outcomes), io.Succeeds →
      Writable r io i.2 i.1.name e := by
  intro i hi e io hio
  have hgood := Session.Good.reach h₀ h
  obtain ⟨hfile, hfail⟩ := hgood.file i.1.name i.2 (hgood.inv.lookups.answers i hi)
  exact ⟨⟨hgood.cout, hio.2 _⟩,
    FileLogAppender.takes_of_good hfile hfail (Streams.succeeds_logCall hio e _)⟩

/-- **One answer for a name, and one line per sink exactly for the loggers other than the root logger
whose sinks can be written**, in every sequence of lookups and events, whatever the opens and writes
come to. -/
theorem once_iff (h : Reach act (fun _ _ => True) (.init io₀) r) :
    (∀ i ∈ r.lookups.answers, ∀ j ∈ r.lookups.answers, i.1.name = j.1.name → i.2 = j.2) ∧
      ∀ i ∈ r.lookups.answers, ∃ lg, r.lookups.manager.objects[i.2]? = some lg ∧
        ∀ (e : Event) (io : Outcomes), lg.level.toNat ≤ e.level.toNat →
          (Once r io i.2 i.1.name e ↔ i.1.name ≠ "root" ∧ Writable r io i.2 i.1.name e) := by
  have hI := Session.Inv.reach h
  constructor
  · intro i hi j hj he
    have hij := hI.lookups.answers i hi
    rw [he, hI.lookups.answers j hj] at hij
    exact (Option.some.inj hij).symm
  · intro i hi
    have hobj := hI.lookups.objects i.1.name i.2 (hI.lookups.answers i hi)
    refine ⟨loggerOf i.1.name, hobj, fun e io hlevel => ?_⟩
    have h1 : 1 ≤ e.level.toNat := by
      rw [level_loggerOf] at hlevel
      exact hlevel
    have hlog := log_loggerOf hobj h1
    by_cases hroot : i.1.name = "root"
    · refine iff_of_false ?_ fun hne => hne.1 hroot
      rintro ⟨calls, hcalls, hout, -⟩
      obtain rfl := Option.some.inj (hlog.symm.trans hcalls)
      rw [hroot] at hout
      exact not_once_root _ _ _ _ hout
    · have hpasses : (r.streams.files i.2 1).passes (Streams.logCall io e (logFile i.1.name)) =
          true := by
        refine decide_eq_true ?_
        rw [hI.level]
        exact h1
      rw [and_iff_right hroot, Once, hlog, Writable,
        ← FileLogAppender.written_iff hpasses (List.cons_ne_nil _ _)]
      simp only [Option.some.injEq, exists_eq_left']
      have hfilename := hI.filename i.1.name i.2 (hI.lookups.answers i hi)
      rw [count_file_named hroot hfilename, count_stdout_named _ _ _ _ hroot, ite_eq_left_iff,
        ite_eq_left_iff]
      simp

/-- The log file cannot be opened when the logger is made, but when its first event comes. -/
theorem once_iff_system :
    ∃ r, Once r (.all true) 1 "system" ⟨.info, 100⟩ ∧
      runs act (.init (.all true))
        [(.lookup (.getLogger "system"), .all false), (.lookup .getRoot, .all true)] = some r := by
  obtain ⟨r, hr, hc⟩ := exists_of_runs act (.init (.all true))
    [(.lookup (.getLogger "system"), .all false), (.lookup .getRoot, .all true)]
    (fun r => decide (r.lookups.answers = [(.getRoot, 0), (.getLogger "system", 1)] ∧
      r.streams.coutFail = false ∧
      r.streams.files 1 1 = .construct "log/system.txt" (false, false))) (by decide +kernel)
  obtain ⟨hanswers, hcout, hfile⟩ := of_decide_eq_true hc
  have hreach := Reach.of_runs (p := fun _ => True) .refl (fun _ _ => trivial) hr
  obtain ⟨lg, hobj, honce⟩ := (once_iff hreach).2 (.getLogger "system", 1) (by
    rw [hanswers]
    exact List.mem_cons_of_mem _ List.mem_cons_self)
  have hlg : lg = loggerOf "system" := by
    have h := (Session.Inv.reach hreach).lookups
    exact Option.some.inj (hobj.symm.trans (h.objects "system" 1
      (h.answers (.getLogger "system", 1) (by
        rw [hanswers]
        exact List.mem_cons_of_mem _ List.mem_cons_self))))
  have hlevel : lg.level.toNat ≤ Level.info.toNat := by
    rw [hlg, level_loggerOf]
    decide
  have htakes : (r.streams.files 1 1).Takes
      (Streams.logCall (.all true) ⟨.info, 100⟩ (logFile "system")) := by
    rw [hfile]
    refine ⟨?_, fun ok hok => List.mem_singleton.mp hok⟩
    rw [if_pos (by decide)]
    exact ⟨FileLogAppender.construct_sound _ _, rfl⟩
  exact ⟨r, (honce _ _ hlevel).mpr ⟨by decide, ⟨hcout, rfl⟩, htakes⟩, hr⟩

/-- The root logger writes the event twice. -/
theorem root_writes_twice :
    ¬∀ r, Reach act (fun _ l => l.2.Succeeds) (.init (.all true)) r →
      ∀ i ∈ r.lookups.answers, ∀ lg, r.lookups.manager.objects[i.2]? = some lg →
        ∀ e : Event, lg.level.toNat ≤ e.level.toNat → Once r (.all true) i.2 i.1.name e := by
  intro h
  have hreach : Reach act (fun _ l => l.2.Succeeds) (.init (.all true))
      ⟨⟨.new, [(.getRoot, 0)]⟩, .new (.all true)⟩ :=
    .move (l := (.lookup .getRoot, .all true)) .refl ⟨fun _ => rfl, fun _ => rfl⟩ rfl
  obtain ⟨calls, hcalls, hout, -⟩ := h _ hreach (.getRoot, 0) List.mem_cons_self rootLogger rfl
    ⟨.info, 100⟩ (by decide)
  have hobj : LoggerManager.new.objects[0]? = some (loggerOf "root") := rfl
  have hlog := log_loggerOf hobj (by decide : 1 ≤ Level.info.toNat)
  obtain rfl := Option.some.inj (hlog.symm.trans hcalls)
  exact not_once_root _ _ _ _ hout

end Lookups

end LioNet.Log
