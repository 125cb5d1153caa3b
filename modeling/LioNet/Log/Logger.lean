import LioNet.Log.Formatter
import Mathlib.Logic.Function.Basic

/-!
# Loggers and appenders

`LogAppender` and `Logger` of `log.cc`.  An appender is attached to one logger at most, so a logger
keeps the appender objects that were made for it, and `m_appenders` is a list of their ids.  An
appender has a formatter, which is its own or the one of its logger; `hasFormatter` is meant to say
which.
-/

namespace LioNet.Log

/-! ### Levels -/

inductive Level
  | unknow | debug | info | warn | error | fatal
  deriving DecidableEq, Repr

def Level.toNat : Level → Nat
  | .unknow => 0
  | .debug => 1
  | .info => 2
  | .warn => 3
  | .error => 4
  | .fatal => 5

/-! ### Appenders -/

/-- Where an appender writes. -/
inductive Sink
  | stdout
  | file (filename : String)
  deriving DecidableEq, Repr

structure LogAppender where
  sink : Sink
  level : Level := .debug
  formatter : Option LogFormatter := none
  hasFormatter : Bool := false
  deriving DecidableEq, Repr

namespace LogAppender

def setLevel (ap : LogAppender) (level : Level) : LogAppender := { ap with level := level }

def setFormatter (ap : LogAppender) (formatter : Option LogFormatter) : LogAppender :=
  { ap with formatter := formatter, hasFormatter := formatter.isSome }

/-- `log`: the call of `format` on the stream of the sink, unless the level is too low.  Whether the
stream takes what is written is not decided here.  Without a formatter the call crashes. -/
def log (ap : LogAppender) (level : Level) : Option (List (Sink × LogFormatter)) :=
  if ap.level.toNat ≤ level.toNat then ap.formatter.map fun f => [(ap.sink, f)] else some []

end LogAppender

/-! ### Loggers -/

abbrev AppenderId := Nat

abbrev LoggerId := Nat

structure Logger where
  name : String
  level : Level
  formatter : Option LogFormatter
  /-- `m_appenders` -/
  appenders : List AppenderId
  /-- the appender objects, `made` of them so far -/
  objects : AppenderId → LogAppender
  made : Nat
  root : Option LoggerId

/-- The pattern of a new logger. -/
def defaultFormatter : LogFormatter :=
  ⟨"%d{%Y-%m-%d %H:%M:%S}%T%t%T%N%T%F%T[%p]%T[%c]%T%f:%l%T%m%n"⟩

namespace Logger

/-- `Logger::Logger`. -/
def new (name : String) : Logger where
  name := name
  level := .debug
  formatter := some defaultFormatter
  appenders := []
  objects := fun _ => { sink := .stdout }
  made := 0
  root := none

def setLevel (lg : Logger) (level : Level) : Logger := { lg with level := level }

/-- What `setFormatter` does to an attached appender. -/
def follow (formatter : Option LogFormatter) (ap : LogAppender) : LogAppender :=
  if ap.hasFormatter then ap else { ap with formatter := formatter }

def setFormatter (lg : Logger) (val : Option LogFormatter) : Logger :=
  { lg with
    formatter := val
    objects := fun a => if a ∈ lg.appenders then follow val (lg.objects a) else lg.objects a }

/-- The overload for patterns. -/
def setPattern (lg : Logger) (val : String) : Logger :=
  if (LogFormatter.mk val).isError then lg else lg.setFormatter (some ⟨val⟩)

/-- What `addAppender` does to the appender. -/
def adopt (formatter : Option LogFormatter) (ap : LogAppender) : LogAppender :=
  if ap.formatter.isNone then ap.setFormatter formatter else ap

def addAppender (lg : Logger) (a : AppenderId) : Logger :=
  { lg with
    objects := Function.update lg.objects a (adopt lg.formatter (lg.objects a))
    appenders := lg.appenders ++ [a] }

def delAppender (lg : Logger) (a : AppenderId) : Logger :=
  { lg with appenders := lg.appenders.erase a }

def clearAppenders (lg : Logger) : Logger := { lg with appenders := [] }

/-- An appender is made. -/
def make (lg : Logger) (ap : LogAppender) : Logger :=
  { lg with objects := Function.update lg.objects lg.made ap, made := lg.made + 1 }

/-- An appender is made and attached. -/
def attach (lg : Logger) (ap : LogAppender) : Logger := (lg.make ap).addAppender lg.made

/-- The attached appenders. -/
def view (lg : Logger) : List LogAppender := lg.appenders.map lg.objects

/-- The attached appenders were made. -/
def Made (lg : Logger) : Prop := ∀ a ∈ lg.appenders, a < lg.made

theorem made_attach {lg : Logger} (h : lg.Made) (ap : LogAppender) : (lg.attach ap).Made := by
  intro a ha
  rcases List.mem_append.mp ha with ha | ha
  · exact Nat.lt_succ_of_lt (h a ha)
  · rw [List.mem_singleton.mp ha]
    exact Nat.lt_succ_self _

/-- A new appender comes last, with the formatter of the logger if it has none; the others stay. -/
theorem view_attach {lg : Logger} (h : lg.Made) (ap : LogAppender) :
    (lg.attach ap).view = lg.view ++ [adopt lg.formatter ap] := by
  have hold : ∀ a ∈ lg.appenders, (lg.attach ap).objects a = lg.objects a := by
    intro a ha
    have hne : a ≠ lg.made := Nat.ne_of_lt (h a ha)
    show Function.update (Function.update lg.objects lg.made ap) lg.made _ a = _
    rw [Function.update_of_ne hne, Function.update_of_ne hne]
  have hnew : (lg.attach ap).objects lg.made = adopt lg.formatter ap := by
    show Function.update (Function.update lg.objects lg.made ap) lg.made
      (adopt lg.formatter (Function.update lg.objects lg.made ap lg.made)) lg.made = _
    rw [Function.update_self, Function.update_self]
  show (lg.appenders ++ [lg.made]).map (lg.attach ap).objects = _
  rw [List.map_append, List.map_congr_left hold, List.map_singleton, hnew]
  rfl

end Logger

end LioNet.Log
