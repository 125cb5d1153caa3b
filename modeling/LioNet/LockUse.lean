import Mathlib.Data.Fintype.Order
import Mathlib.Data.Fin.Basic
import LioNet.Lib.LockOrder

/-!
# The locks that each function takes

For every function that takes a lock: which locks, in which order, nested in which way.  What a
function does between its locks is left out, and what it decides by the data (which appenders a
logger has, whether a level passes, whether a name is found) is an argument here, so that a call can
take any of its ways.

`locked l m body` is one `Lock`, `ReadLock` or `WriteLock` in its scope.  `Mutex` and `Spinlock` are
locks that are only taken exclusively.  `start` is the constructor of a `Thread`, which returns when
the new thread has called `m_semaphore.notify()`; a thread of its own then calls what it likes.

The one wait that is no lock is `Thread::join` in `Scheduler::stop`, which holds none.  The locks of
static objects are those after their construction.  A listener of a variable, and a callback of
`Config::Visit`, comes with the proof that it takes loggers' locks only, or variables' too.
-/

namespace LioNet.LockUse

open LioNet.Lib LioNet.Lib.Locks

inductive LockName
  /-- `s_mutex` of `config.cc` -/
  | fileTimes
  /-- `m_mutex` of a `Scheduler` -/
  | scheduler (i : ℕ)
  /-- `Config::GetMutex()` -/
  | datas
  /-- `m_mutex` of a `ConfigVar` -/
  | var (i : ℕ)
  /-- `m_mutex` of the `LoggerManager` -/
  | loggers
  /-- `m_mutex` of a `Logger` that is not the root logger -/
  | logger (i : ℕ)
  | root
  /-- `m_mutex` of a `LogAppender` -/
  | appender (i : ℕ)
  deriving DecidableEq, Repr

/-- The order in which the functions take their locks. -/
def rank : LockName → Fin 7
  | .fileTimes | .scheduler _ => 0
  | .datas => 1
  | .var _ => 2
  | .loggers => 3
  | .logger _ => 4
  | .root => 5
  | .appender _ => 6

abbrev Acts := List (Act LockName)

/-- The acts take no lock below `r`, in order, and give all back. -/
abbrev From (r : Fin 7) (as : Acts) : Prop := Above rank r as

/-! ## Loggers -/

def LogAppender.setFormatter (a : ℕ) : Acts := locked (.appender a) .exclusive []

def LogAppender.getFormatter (a : ℕ) : Acts := locked (.appender a) .exclusive []

def LogAppender.toYamlString (a : ℕ) : Acts := locked (.appender a) .exclusive []

def FileLogAppender.reopen (a : ℕ) : Acts := locked (.appender a) .exclusive []

/-- An appender that is asked to write: whether the level passes, and whether the file is opened
again. -/
inductive Sink
  | stdout (a : ℕ) (passes : Bool)
  | file (a : ℕ) (passes reopens : Bool)
  deriving DecidableEq, Repr

/-- `StdoutLogAppender::log` and `FileLogAppender::log`. -/
def Sink.log : Sink → Acts
  | .stdout a passes => if passes then locked (.appender a) .exclusive [] else []
  | .file a passes reopens =>
    if passes then
      (if reopens then FileLogAppender.reopen a else []) ++ locked (.appender a) .exclusive []
    else []

/-- `log` of the root logger, which has no `m_root`. -/
structure RootLog where
  passes : Bool
  sinks : List Sink
  deriving DecidableEq, Repr

def RootLog.acts (r : RootLog) : Acts :=
  if r.passes then locked .root .exclusive (r.sinks.flatMap Sink.log) else []

/-- `log` of another logger. -/
structure NamedLog where
  logger : ℕ
  passes : Bool
  sinks : List Sink
  root : Option RootLog
  deriving DecidableEq, Repr

def NamedLog.acts (n : NamedLog) : Acts :=
  if n.passes then
    locked (.logger n.logger) .exclusive
      (if n.sinks.isEmpty then (n.root.map RootLog.acts).getD [] else n.sinks.flatMap Sink.log)
  else []

inductive LoggerRef
  | root
  | named (i : ℕ)
  deriving DecidableEq, Repr

def LoggerRef.lock : LoggerRef → LockName
  | .root => .root
  | .named i => .logger i

namespace Logger

variable (l : LoggerRef)

def setFormatter (as : List ℕ) : Acts :=
  locked l.lock .exclusive (as.flatMap fun a => locked (.appender a) .exclusive [])

def getFormatter : Acts := locked l.lock .exclusive []

/-- `hasFormatter`: the appender has a formatter. -/
def addAppender (a : ℕ) (hasFormatter : Bool) : Acts :=
  locked l.lock .exclusive
    (LogAppender.getFormatter a ++ if hasFormatter then [] else LogAppender.setFormatter a)

def delAppender : Acts := locked l.lock .exclusive []

def clearAppenders : Acts := locked l.lock .exclusive []

def toYamlString (as : List ℕ) : Acts :=
  locked l.lock .exclusive (as.flatMap LogAppender.toYamlString)

end Logger

namespace LoggerManager

/-- The two appenders are new. -/
def applyDefaultConfig (l : LoggerRef) (out file : ℕ) : Acts :=
  Logger.addAppender l out false ++ FileLogAppender.reopen file ++ Logger.addAppender l file false

/-- A logger that is not found is made, with two new appenders. -/
def getLogger (made : Option (ℕ × ℕ × ℕ)) : Acts :=
  locked .loggers .exclusive
    (match made with
      | none => []
      | some (i, out, file) => applyDefaultConfig (.named i) out file)

def toYamlString (ls : List (LoggerRef × List ℕ)) : Acts :=
  locked .loggers .exclusive (ls.flatMap fun p => Logger.toYamlString p.1 p.2)

end LoggerManager

/-- An appender that `on_logger_conf_changed` makes for a logger. -/
structure NewAppender where
  id : ℕ
  file : Bool
  formatter : Bool
  deriving DecidableEq, Repr

def NewAppender.acts (l : LoggerRef) (a : NewAppender) : Acts :=
  (if a.file then FileLogAppender.reopen a.id else []) ++
    (if a.formatter then LogAppender.setFormatter a.id else []) ++
    Logger.addAppender l a.id a.formatter

/-- What `on_logger_conf_changed` does to one logger. -/
structure LoggerChange where
  logger : LoggerRef
  made : Option (ℕ × ℕ × ℕ)
  formatter : Option (List ℕ)
  appenders : List NewAppender
  deriving DecidableEq, Repr

def LoggerChange.acts (c : LoggerChange) : Acts :=
  LoggerManager.getLogger c.made ++ (c.formatter.map (Logger.setFormatter c.logger)).getD [] ++
    Logger.clearAppenders c.logger ++ c.appenders.flatMap (NewAppender.acts c.logger)

/-- The listener of `g_log_defines`. -/
def on_logger_conf_changed (info : RootLog) (cs : List LoggerChange) : Acts :=
  info.acts ++ cs.flatMap LoggerChange.acts

/-! ## Configuration -/

/-- A listener of a variable, as far as it gets. -/
structure Listener where
  acts : Acts
  above : From 3 acts

/-- A callback of `Config::Visit`. -/
structure Visitor where
  acts : Acts
  above : From 2 acts

namespace ConfigVar

variable (v : ℕ)

/-- `error`: the conversion throws. -/
def toString (error : Option RootLog) : Acts :=
  locked (.var v) .shared [] ++ (error.map RootLog.acts).getD []

def getValue : Acts := locked (.var v) .shared []

/-- `changed`: the value is a new one and no listener throws. -/
def setValue (cbs : List Listener) (changed : Bool) : Acts :=
  locked (.var v) .shared (cbs.flatMap Listener.acts) ++
    if changed then locked (.var v) .exclusive [] else []

/-- `set`: the conversion does not throw. -/
def fromString (set : Option (List Listener × Bool)) (error : Option RootLog) : Acts :=
  (match set with
    | some (cbs, changed) => setValue v cbs changed
    | none => []) ++ (error.map RootLog.acts).getD []

def addListener : Acts := locked (.var v) .exclusive []

def delListener : Acts := locked (.var v) .exclusive []

def getListener : Acts := locked (.var v) .shared []

def clearListener : Acts := locked (.var v) .shared []

end ConfigVar

namespace Config

/-- `shown`: the variable found has another type and is printed; `said`: the line that is logged. -/
def Lookup (shown : Option (ℕ × Option RootLog)) (said : Option RootLog) : Acts :=
  locked .datas .exclusive
    ((match shown with
      | some (v, error) => ConfigVar.toString v error
      | none => []) ++ (said.map RootLog.acts).getD [])

def LookupBase : Acts := locked .datas .shared []

/-- One node of the document: the variable of its name, if there is one, and how it is set. -/
structure Loaded where
  var : Option ℕ
  set : Option (List Listener × Bool)
  error : Option RootLog

def Loaded.acts (n : Loaded) : Acts :=
  LookupBase ++
    match n.var with
    | some v => ConfigVar.fromString v n.set n.error
    | none => []

/-- `invalid`: the prefixes that `ListAllMember` rejects. -/
def LoadFromYaml (invalid : List NamedLog) (nodes : List Loaded) : Acts :=
  invalid.flatMap NamedLog.acts ++ nodes.flatMap Loaded.acts

/-- One file of the directory: skipped, or loaded as far as that goes and reported. -/
structure LoadedFile where
  skipped : Bool
  invalid : List NamedLog
  nodes : List Loaded
  said : NamedLog

def LoadedFile.acts (f : LoadedFile) : Acts :=
  locked .fileTimes .exclusive [] ++
    if f.skipped then [] else LoadFromYaml f.invalid f.nodes ++ f.said.acts

def LoadFromConfDir (files : List LoadedFile) : Acts := files.flatMap LoadedFile.acts

def Visit (cbs : List Visitor) : Acts := locked .datas .shared (cbs.flatMap Visitor.acts)

end Config

/-! ## Schedulers and fibers -/

namespace Scheduler

variable (i : ℕ)

def tickle (info : NamedLog) : Acts := info.acts

/-- Both forms of `schedule`. -/
def schedule (tickled : Option NamedLog) : Acts :=
  locked (.scheduler i) .exclusive [] ++ (tickled.map tickle).getD []

/-- `n` threads are started; `failed`: `pthread_create` fails for the next one. -/
def start (n : ℕ) (failed : Option NamedLog) : Acts :=
  locked (.scheduler i) .exclusive
    ((List.replicate n [Act.start]).flatten ++ (failed.map NamedLog.acts).getD [])

def stopping : Acts := locked (.scheduler i) .exclusive []

/-- `stop` without `run`, which `m_rootFiber->call()` executes, and without the joins at its end. -/
def stop (tickles : List NamedLog) (asked : ℕ) : Acts :=
  (List.replicate asked (stopping i)).flatten ++ tickles.flatMap tickle ++
    locked (.scheduler i) .exclusive []

/-- One round of the loop in `run` up to the task that was found. -/
def run (tickled : Option NamedLog) : Acts :=
  locked (.scheduler i) .exclusive [] ++ (tickled.map tickle).getD []

end Scheduler

/-- The constructor of a fiber: `size`, the variable `fiber.stack_size`, is read where no stack size
is given. -/
def Fiber.construct (size : Option ℕ) (debug : NamedLog) : Acts :=
  (size.map ConfigVar.getValue).getD [] ++ debug.acts

/-- `found`: `server.work_path`, read for a relative path. -/
def Env.getAbsoluteWorkPath (found : Option ℕ) : Acts :=
  Config.LookupBase ++ (found.map ConfigVar.getValue).getD []

/-! ## Every call takes its locks in order -/

inductive Call
  | appenderSetFormatter (a : ℕ)
  | appenderGetFormatter (a : ℕ)
  | reopen (a : ℕ)
  | log (n : NamedLog)
  | logRoot (r : RootLog)
  | setFormatter (l : LoggerRef) (as : List ℕ)
  | getFormatter (l : LoggerRef)
  | addAppender (l : LoggerRef) (a : ℕ) (hasFormatter : Bool)
  | delAppender (l : LoggerRef)
  | clearAppenders (l : LoggerRef)
  | loggerToYamlString (l : LoggerRef) (as : List ℕ)
  | getLogger (made : Option (ℕ × ℕ × ℕ))
  | managerToYamlString (ls : List (LoggerRef × List ℕ))
  | toString (v : ℕ) (error : Option RootLog)
  | getValue (v : ℕ)
  | setValue (v : ℕ) (cbs : List Listener) (changed : Bool)
  | fromString (v : ℕ) (set : Option (List Listener × Bool)) (error : Option RootLog)
  | addListener (v : ℕ)
  | delListener (v : ℕ)
  | getListener (v : ℕ)
  | clearListener (v : ℕ)
  | lookup (shown : Option (ℕ × Option RootLog)) (said : Option RootLog)
  | lookupBase
  | loadFromYaml (invalid : List NamedLog) (nodes : List Config.Loaded)
  | loadFromConfDir (files : List Config.LoadedFile)
  | visit (cbs : List Visitor)
  | schedule (i : ℕ) (tickled : Option NamedLog)
  | start (i n : ℕ) (failed : Option NamedLog)
  | stop (i : ℕ) (tickles : List NamedLog) (asked : ℕ)
  | run (i : ℕ) (tickled : Option NamedLog)
  | stopping (i : ℕ)
  | fiber (size : Option ℕ) (debug : NamedLog)
  | getAbsoluteWorkPath (found : Option ℕ)

namespace Call

def acts : Call → Acts
  | appenderSetFormatter a => LogAppender.setFormatter a
  | appenderGetFormatter a => LogAppender.getFormatter a
  | reopen a => FileLogAppender.reopen a
  | log n => n.acts
  | logRoot r => r.acts
  | setFormatter l as => Logger.setFormatter l as
  | getFormatter l => Logger.getFormatter l
  | addAppender l a hasFormatter => Logger.addAppender l a hasFormatter
  | delAppender l => Logger.delAppender l
  | clearAppenders l => Logger.clearAppenders l
  | loggerToYamlString l as => Logger.toYamlString l as
  | getLogger made => LoggerManager.getLogger made
  | managerToYamlString ls => LoggerManager.toYamlString ls
  | toString v error => ConfigVar.toString v error
  | getValue v => ConfigVar.getValue v
  | setValue v cbs changed => ConfigVar.setValue v cbs changed
  | fromString v set error => ConfigVar.fromString v set error
  | addListener v => ConfigVar.addListener v
  | delListener v => ConfigVar.delListener v
  | getListener v => ConfigVar.getListener v
  | clearListener v => ConfigVar.clearListener v
  | lookup shown said => Config.Lookup shown said
  | lookupBase => Config.LookupBase
  | loadFromYaml invalid nodes => Config.LoadFromYaml invalid nodes
  | loadFromConfDir files => Config.LoadFromConfDir files
  | visit cbs => Config.Visit cbs
  | schedule i tickled => Scheduler.schedule i tickled
  | start i n failed => Scheduler.start i n failed
  | stop i tickles asked => Scheduler.stop i tickles asked
  | run i tickled => Scheduler.run i tickled
  | stopping i => Scheduler.stopping i
  | fiber size debug => Fiber.construct size debug
  | getAbsoluteWorkPath found => Env.getAbsoluteWorkPath found

end Call

section Order

variable (l : LoggerRef) (a v i : ℕ)

theorem LoggerRef.rank_lock : 4 ≤ rank l.lock ∧ rank l.lock < 6 := by
  cases l with
  | root => exact ⟨by decide, by decide⟩
  | named i => exact ⟨le_rfl, show (4 : Fin 7) < 6 by decide⟩

theorem LogAppender.setFormatter_from : From 6 (LogAppender.setFormatter a) := .alone le_rfl

theorem LogAppender.getFormatter_from : From 6 (LogAppender.getFormatter a) := .alone le_rfl

theorem FileLogAppender.reopen_from : From 6 (FileLogAppender.reopen a) := .alone le_rfl

theorem Sink.log_from (k : Sink) : From 6 k.log := by
  cases k with
  | stdout a passes =>
    cases passes with
    | false => exact .nil
    | true => exact .alone le_rfl
  | file a passes reopens =>
    cases passes with
    | false => exact .nil
    | true =>
      cases reopens with
      | false => exact Above.nil.append (.alone le_rfl)
      | true => exact (FileLogAppender.reopen_from a).append (.alone le_rfl)

theorem RootLog.acts_from (n : RootLog) : From 5 n.acts := by
  unfold RootLog.acts
  split
  · exact .locked (q := 6) le_rfl (by decide) (.flatMap fun k _ => k.log_from)
  · exact .nil

/-- A logger's own lock is below that of the root logger, to which it may pass the event on. -/
theorem NamedLog.acts_from (n : NamedLog) : From 4 n.acts := by
  unfold NamedLog.acts
  split
  · refine .locked (q := 5) le_rfl (show (4 : Fin 7) < 5 by decide) ?_
    split
    · exact .getD RootLog.acts_from
    · exact .flatMap fun k _ => k.log_from.mono (by decide)
  · exact .nil

theorem Logger.locked_from {as : Acts} (h : From 6 as) : From 4 (locked l.lock .exclusive as) :=
  .locked l.rank_lock.1 l.rank_lock.2 h

theorem Logger.setFormatter_from (as : List ℕ) : From 4 (Logger.setFormatter l as) :=
  locked_from l (.flatMap fun a _ => LogAppender.setFormatter_from a)

theorem Logger.addAppender_from (hasFormatter : Bool) :
    From 4 (Logger.addAppender l a hasFormatter) := by
  refine locked_from l ((LogAppender.getFormatter_from a).append ?_)
  cases hasFormatter with
  | true => exact .nil
  | false => exact LogAppender.setFormatter_from a

theorem Logger.clearAppenders_from : From 4 (Logger.clearAppenders l) := locked_from l .nil

theorem Logger.toYamlString_from (as : List ℕ) : From 4 (Logger.toYamlString l as) :=
  locked_from l (.flatMap fun _ _ => .alone le_rfl)

theorem LoggerManager.applyDefaultConfig_from (out file : ℕ) :
    From 4 (LoggerManager.applyDefaultConfig l out file) :=
  ((Logger.addAppender_from l out false).append ((FileLogAppender.reopen_from file).mono (by decide))
    ).append (Logger.addAppender_from l file false)

theorem LoggerManager.getLogger_from (made : Option (ℕ × ℕ × ℕ)) :
    From 3 (LoggerManager.getLogger made) := by
  refine .locked (q := 4) le_rfl (by decide) ?_
  cases made with
  | none => exact .nil
  | some p => exact applyDefaultConfig_from (.named p.1) p.2.1 p.2.2

theorem NewAppender.acts_from (n : NewAppender) : From 4 (n.acts l) := by
  refine Above.append (Above.append ?_ ?_) (Logger.addAppender_from l n.id n.formatter)
  · split
    · exact (FileLogAppender.reopen_from n.id).mono (by decide)
    · exact .nil
  · split
    · exact (LogAppender.setFormatter_from n.id).mono (by decide)
    · exact .nil

theorem LoggerChange.acts_from (c : LoggerChange) : From 3 c.acts := by
  have hf : From 3 ((c.formatter.map (Logger.setFormatter c.logger)).getD []) :=
    .getD fun as => (Logger.setFormatter_from c.logger as).mono (by decide)
  have hc : From 3 (Logger.clearAppenders c.logger) :=
    (Logger.clearAppenders_from c.logger).mono (by decide)
  have ha : From 3 (c.appenders.flatMap (NewAppender.acts c.logger)) :=
    .flatMap fun n _ => (n.acts_from c.logger).mono (by decide)
  exact (((LoggerManager.getLogger_from c.made).append hf).append hc).append ha

/-- The listener of `g_log_defines` takes loggers' locks only. -/
def logsListener (info : RootLog) (cs : List LoggerChange) : Listener where
  acts := on_logger_conf_changed info cs
  above := (info.acts_from.mono (by decide)).append (.flatMap fun c _ => c.acts_from)

theorem ConfigVar.toString_from (error : Option RootLog) : From 2 (ConfigVar.toString v error) :=
  Above.append (.alone le_rfl) (.getD fun n => n.acts_from.mono (by decide))

theorem ConfigVar.getValue_from : From 2 (ConfigVar.getValue v) := .alone le_rfl

/-- A callback that prints the variable. -/
def printing (error : Option RootLog) : Visitor where
  acts := ConfigVar.toString v error
  above := ConfigVar.toString_from v error

theorem ConfigVar.setValue_from (cbs : List Listener) (changed : Bool) :
    From 2 (ConfigVar.setValue v cbs changed) := by
  refine Above.append (.locked (q := 3) le_rfl (show (2 : Fin 7) < 3 by decide) (.flatMap fun c _ => c.above)) ?_
  cases changed with
  | true => exact .alone le_rfl
  | false => exact .nil

theorem ConfigVar.fromString_from (set : Option (List Listener × Bool)) (error : Option RootLog) :
    From 2 (ConfigVar.fromString v set error) := by
  refine Above.append ?_ (.getD fun n => n.acts_from.mono (by decide))
  cases set with
  | none => exact .nil
  | some p => exact setValue_from v p.1 p.2

theorem Config.Lookup_from (shown : Option (ℕ × Option RootLog)) (said : Option RootLog) :
    From 1 (Config.Lookup shown said) := by
  refine .locked (q := 2) le_rfl (by decide) (Above.append ?_ ?_)
  · cases shown with
    | none => exact .nil
    | some p => exact ConfigVar.toString_from p.1 p.2
  · exact .getD fun n => n.acts_from.mono (by decide)

theorem Config.LookupBase_from : From 1 Config.LookupBase := .alone le_rfl

theorem Config.Loaded.acts_from (n : Config.Loaded) : From 1 n.acts := by
  refine Above.append LookupBase_from ?_
  split
  · exact (ConfigVar.fromString_from _ n.set n.error).mono (by decide)
  · exact .nil

theorem Config.LoadFromYaml_from (invalid : List NamedLog) (nodes : List Config.Loaded) :
    From 1 (Config.LoadFromYaml invalid nodes) :=
  Above.append (.flatMap fun n _ => n.acts_from.mono (by decide)) (.flatMap fun n _ => n.acts_from)

theorem Config.LoadedFile.acts_from (f : Config.LoadedFile) : From 0 f.acts := by
  refine Above.append (.alone le_rfl) ?_
  split
  · exact .nil
  · exact ((LoadFromYaml_from f.invalid f.nodes).mono (by decide)).append
      (f.said.acts_from.mono (by decide))

theorem Config.Visit_from (cbs : List Visitor) : From 1 (Config.Visit cbs) :=
  .locked (q := 2) le_rfl (by decide) (.flatMap fun c _ => c.above)

/-- The section of a scheduler, and what it logs afterwards. -/
theorem Scheduler.section_from (tickled : Option NamedLog) : From 0 (Scheduler.schedule i tickled) :=
  Above.append (.alone le_rfl) (.getD fun n => n.acts_from.mono (by decide))

theorem Scheduler.start_from (n : ℕ) (failed : Option NamedLog) :
    From 0 (Scheduler.start i n failed) :=
  .locked (q := 4) le_rfl (show (0 : Fin 7) < 4 by decide)
    (Above.append (.replicate .start) (.getD NamedLog.acts_from))

theorem Scheduler.stop_from (tickles : List NamedLog) (asked : ℕ) :
    From 0 (Scheduler.stop i tickles asked) := by
  have hasked : From 0 ((List.replicate asked (Scheduler.stopping i)).flatten) :=
    .replicate (.alone le_rfl)
  have htickles : From 0 (tickles.flatMap Scheduler.tickle) :=
    .flatMap fun n _ => n.acts_from.mono (by decide)
  exact (hasked.append htickles).append (.alone le_rfl)

theorem Fiber.construct_from (size : Option ℕ) (debug : NamedLog) :
    From 2 (Fiber.construct size debug) :=
  Above.append (.getD ConfigVar.getValue_from) (debug.acts_from.mono (by decide))

theorem Env.getAbsoluteWorkPath_from (found : Option ℕ) : From 1 (Env.getAbsoluteWorkPath found) :=
  Config.LookupBase_from.append (.getD fun v => (ConfigVar.getValue_from v).mono (by decide))

/-- **Every call takes its locks in the order of their ranks and gives all of them back.** -/
theorem Call.acts_ordered (c : Call) : Ordered rank ∅ c.acts := by
  have h : From 0 c.acts := by
    cases c with
    | appenderSetFormatter | appenderGetFormatter | reopen | getFormatter | delAppender | getValue
    | addListener | delListener | getListener | clearListener | lookupBase | stopping =>
      exact Above.alone (Fin.zero_le _)
    | log n => exact n.acts_from.mono (Fin.zero_le _)
    | logRoot n => exact n.acts_from.mono (Fin.zero_le _)
    | setFormatter l as => exact (Logger.setFormatter_from l as).mono (Fin.zero_le _)
    | addAppender l a hasFormatter =>
      exact (Logger.addAppender_from l a hasFormatter).mono (Fin.zero_le _)
    | clearAppenders l => exact (Logger.clearAppenders_from l).mono (Fin.zero_le _)
    | loggerToYamlString l as => exact (Logger.toYamlString_from l as).mono (Fin.zero_le _)
    | getLogger made => exact (LoggerManager.getLogger_from made).mono (Fin.zero_le _)
    | managerToYamlString ls =>
      exact .locked (q := 4) (Fin.zero_le _) (by decide)
        (.flatMap fun p _ => Logger.toYamlString_from p.1 p.2)
    | toString v error => exact (ConfigVar.toString_from v error).mono (Fin.zero_le _)
    | setValue v cbs changed => exact (ConfigVar.setValue_from v cbs changed).mono (Fin.zero_le _)
    | fromString v set error => exact (ConfigVar.fromString_from v set error).mono (Fin.zero_le _)
    | lookup shown said => exact (Config.Lookup_from shown said).mono (Fin.zero_le _)
    | loadFromYaml invalid nodes =>
      exact (Config.LoadFromYaml_from invalid nodes).mono (Fin.zero_le _)
    | loadFromConfDir files => exact .flatMap fun f _ => f.acts_from
    | visit cbs => exact (Config.Visit_from cbs).mono (Fin.zero_le _)
    | schedule i tickled | run i tickled => exact Scheduler.section_from i tickled
    | start i n failed => exact Scheduler.start_from i n failed
    | stop i tickles asked => exact Scheduler.stop_from i tickles asked
    | fiber size debug => exact (Fiber.construct_from size debug).mono (Fin.zero_le _)
    | getAbsoluteWorkPath found => exact (Env.getAbsoluteWorkPath_from found).mono (Fin.zero_le _)
  exact h.ordered

end Order

/-! ## No deadlock -/

/-- **The locks of the program never deadlock.**  For any number of threads, any calls with any data
and any interleaving: while a thread is in a call, some thread can move; there are only finitely many
moves without a new call; and where they end, every call has returned and every lock is free. -/
theorem no_deadlock {n : ℕ} {s : State LockName}
    (hr : Reach (step Call.acts) (fun _ _ => True) (State.initial LockName n) s) :
    (∀ t, s.Busy t → ∃ u s', s.move u = some s') ∧
      ∀ ts s', runs State.move s ts = some s' →
        ts.length ≤ s.weight ∧
          ((∀ u, s'.move u = none) → (∀ t, ¬ s'.Busy t) ∧ ∀ l, s'.lock l = .free) := by
  have hi : Inv rank s := .reach Call.acts_ordered hr
  refine ⟨fun t hb => hi.progress hb, fun ts s' hts => ?_⟩
  obtain ⟨hi', hw⟩ := hi.weight_runs hts
  exact ⟨Nat.le_of_add_left_le hw, hi'.quiet⟩

/-- One thread looks up the name of a variable with another type, one assigns to the "logs" variable,
which has its listener: in turn, two moves each. -/
def lookupAndLogs : List (Label Call) :=
  [.call 0 (.lookup (some (3, none)) (some ⟨true, [.stdout 0 true]⟩)),
    .call 1 (.setValue 3 [logsListener ⟨true, []⟩ [⟨.named 5, none, none, [⟨7, true, false⟩]⟩]] true),
    .move 0, .move 1, .move 0, .move 1]

example : ∃ s : State LockName,
    runs (step Call.acts) (State.initial LockName 2) lookupAndLogs = some s ∧
      s.Busy 0 ∧ ∃ u s', s.move u = some s' := by
  obtain ⟨s, hr, hc⟩ := exists_of_runs (step Call.acts) (State.initial LockName 2) lookupAndLogs
    (fun s => decide (s.Busy 0)) (by decide +kernel)
  have hb : s.Busy 0 := of_decide_eq_true hc
  exact ⟨s, hr, hb, (no_deadlock (.of_runs (p := fun _ => True) .refl (fun _ _ => trivial) hr)).1 0 hb⟩

end LioNet.LockUse
