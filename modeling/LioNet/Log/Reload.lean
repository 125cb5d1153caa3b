import LioNet.Log.Manager
import Mathlib.Data.String.Basic

/-!
# Reconfiguring the loggers

The variable `logs` of `log.cc` holds a set of logger definitions, and the listener `LogIniter`
brings the loggers in line with a new value: it goes through the new set and changes the loggers whose
definition differs from the old one, then takes the appenders from those that are not defined any more.

`LogDefine::operator==` compares the appenders of the definition with themselves, so two definitions
that differ in their appenders only are equal.  An empty formatter leaves the formatter of the logger
as it is.  `none` stands for a crash.
-/

namespace LioNet.Log

open LioNet.Lib

/-! ### Definitions -/

structure LogAppenderDefine where
  /-- 1 is a file, 2 is standard output -/
  type : Int
  level : Level
  formatter : String
  file : String
  deriving DecidableEq, Repr

structure LogDefine where
  name : String
  level : Level
  formatter : String
  appenders : List LogAppenderDefine
  deriving Repr

/-- `LogDefine::operator==`. -/
instance : BEq LogDefine where
  beq d oth := d.name == oth.name && d.level == oth.level && d.formatter == oth.formatter &&
    d.appenders == d.appenders

/-- A value of `std::set<LogDefine>`, which is ordered by names. -/
structure LogDefines where
  defs : List LogDefine
  sorted : defs.Pairwise fun d oth => d.name < oth.name

/-- `find`, which looks at the name only. -/
def LogDefines.find (S : LogDefines) (name : String) : Option LogDefine :=
  S.defs.find? fun d => d.name = name

/-! ### One logger -/

/-- The appender of a definition, before it is added. -/
def LogAppenderDefine.make (a : LogAppenderDefine) (sink : Sink) : LogAppender :=
  let ap := LogAppender.setLevel { sink := sink } a.level
  if a.formatter ≠ "" ∧ (LogFormatter.mk a.formatter).isError = false then
    ap.setFormatter (some ⟨a.formatter⟩)
  else ap

/-- One turn of the loop over the appenders.  `d` says that the program was started with the option
`d`, which leaves standard output out; another type leaves the pointer null. -/
def Logger.addDefined (d : Bool) (lg : Logger) (a : LogAppenderDefine) : Option Logger :=
  if a.type = 1 then some (lg.attach (a.make (.file a.file)))
  else if a.type = 2 then if d then some lg else some (lg.attach (a.make .stdout))
  else none

/-- What the listener does to the logger of a changed definition. -/
def LogDefine.applyTo (d : Bool) (i : LogDefine) (lg : Logger) : Option Logger :=
  let lg := lg.setLevel i.level
  let lg := if i.formatter ≠ "" then lg.setPattern i.formatter else lg
  i.appenders.foldlM (Logger.addDefined d) lg.clearAppenders

/-- What the listener does to the logger of a removed definition. -/
def Logger.retire (lg : Logger) : Logger := (lg.setLevel .unknow).clearAppenders

/-! ### All loggers -/

/-- `LIONET_LOG_NAME(name)`, and a change of this logger. -/
def LoggerManager.change (m : LoggerManager) (name : String) (f : Logger → Option Logger) :
    Option LoggerManager :=
  let (id, m') := m.getLogger name
  (m'.objects[id]?).bind fun lg => (f lg).map fun lg' =>
    { m' with objects := m'.objects.set id lg' }

/-- The loop over a set, which changes the loggers for which `act` says how. -/
def LoggerManager.changeAll (act : LogDefine → Option (Logger → Option Logger))
    (m : LoggerManager) (defs : List LogDefine) : Option LoggerManager :=
  defs.foldlM (fun m i =>
    match act i with
    | some f => m.change i.name f
    | none => some m) m

/-- The new definitions: those that are equal to the old one are passed over. -/
def changed (d : Bool) (old : LogDefines) (i : LogDefine) : Option (Logger → Option Logger) :=
  match old.find i.name with
  | none => some (i.applyTo d)
  | some j => if i == j then none else some (i.applyTo d)

/-- The old definitions: those that are found among the new ones are passed over. -/
def removed (new : LogDefines) (i : LogDefine) : Option (Logger → Option Logger) :=
  match new.find i.name with
  | none => some fun lg => some lg.retire
  | some _ => none

/-- The listener of `LogIniter`. -/
def LoggerManager.onChange (d : Bool) (old new : LogDefines) (m : LoggerManager) :
    Option LoggerManager :=
  (m.changeAll (changed d old) new.defs).bind fun m => m.changeAll (removed new) old.defs

namespace Reload

structure State where
  manager : LoggerManager
  /-- the value of `logs` -/
  logs : LogDefines
  /-- the names in all values assigned so far -/
  named : List String

def State.init : State := ⟨.new, ⟨[], .nil⟩, []⟩

/-- `g_log_defines->setValue(S)`. -/
def step (d : Bool) (s : State) (S : LogDefines) : Option State :=
  let named := S.defs.map LogDefine.name ++ s.named
  if S.defs == s.logs.defs then some { s with named := named }
  else (s.manager.onChange d s.logs S).map fun m => ⟨m, S, named⟩

/-- Valid formatters, and appenders of the types 1 and 2. -/
def Valid (S : LogDefines) : Prop :=
  ∀ i ∈ S.defs, (LogFormatter.mk i.formatter).isError = false ∧
    ∀ a ∈ i.appenders, (a.type = 1 ∨ a.type = 2) ∧ (LogFormatter.mk a.formatter).isError = false

/-! ### What is seen of a logger -/

/-- The level, the formatter, and the sink, level and formatter of each appender. -/
structure Shown where
  level : Level
  formatter : Option LogFormatter
  appenders : List (Sink × Level × Option LogFormatter)
  deriving DecidableEq, Repr

def facts (ap : LogAppender) : Sink × Level × Option LogFormatter :=
  (ap.sink, ap.level, ap.formatter)

def shown (lg : Logger) : Shown := ⟨lg.level, lg.formatter, lg.view.map facts⟩

/-- The logger of a name. -/
def get (m : LoggerManager) (name : String) : Option Logger :=
  (m.loggers name).bind fun id => m.objects[id]?

/-- The assignment of `S` left the loggers of `S` as its assignment alone in a fresh process does, and
the loggers that only earlier values named without appenders. -/
def HistoryFree (d : Bool) (s : State) (S : LogDefines) : Prop :=
  (∃ fresh, step d State.init S = some fresh ∧
    ∀ i ∈ S.defs, (get s.manager i.name).map shown = (get fresh.manager i.name).map shown) ∧
  ∀ name ∈ s.named, S.find name = none → ∃ lg, get s.manager name = some lg ∧ lg.appenders = []

/-! ### What a definition asks for -/

/-- The formatter of the logger, which had the formatter `old`. -/
def formatterOf (old : Option LogFormatter) (i : LogDefine) : Option LogFormatter :=
  if i.formatter ≠ "" then some ⟨i.formatter⟩ else old

/-- The appender that a definition adds to a logger with the formatter `fmt`, if any. -/
def appenderOf (d : Bool) (fmt : Option LogFormatter) (a : LogAppenderDefine) :
    Option LogAppender :=
  if a.type = 1 then some (Logger.adopt fmt (a.make (.file a.file)))
  else if d then none else some (Logger.adopt fmt (a.make .stdout))

/-- What is seen of a logger with the formatter `old` when the definition has been applied to it. -/
def asked (d : Bool) (old : Option LogFormatter) (i : LogDefine) : Shown :=
  ⟨i.level, formatterOf old i, (i.appenders.filterMap (appenderOf d (formatterOf old i))).map facts⟩

/-- **When the history does not show**: a definition that is equal to the stored one asks for the same
appenders, and a definition that is applied with an empty formatter finds the default formatter. -/
def Good (d : Bool) (s : State) (S : LogDefines) : Prop :=
  ∀ i ∈ S.defs,
    match changed d s.logs i with
    | none => ∀ j, s.logs.find i.name = some j →
      asked d (some defaultFormatter) i = asked d (some defaultFormatter) j
    | some _ => i.formatter = "" → ∀ lg, get s.manager i.name = some lg →
      lg.formatter = some defaultFormatter

/-! ### The loggers of a manager -/

/-- Every name has a logger of its own. -/
structure Separate (m : LoggerManager) : Prop where
  lt : ∀ name id, m.loggers name = some id → id < m.objects.length
  inj : ∀ name name' id, m.loggers name = some id → m.loggers name' = some id → name = name'

/-- The logger that a lookup of the name gives: a new one has the default formatter. -/
def Base (m : LoggerManager) (name : String) (lg : Logger) : Prop :=
  get m name = some lg ∨ (get m name = none ∧ lg.formatter = some defaultFormatter)

variable {m : LoggerManager} {name : String}

theorem get_eq_none (h : Separate m) : get m name = none ↔ m.loggers name = none := by
  cases hid : m.loggers name with
  | none => simp [get, hid]
  | some id =>
    have hlt := h.lt name id hid
    simp [get, hid, hlt]

theorem getLogger_spec (h : Separate m) (name : String) :
    Separate (m.getLogger name).2 ∧
      (m.getLogger name).2.loggers name = some (m.getLogger name).1 ∧
      (∃ lg, (m.getLogger name).2.objects[(m.getLogger name).1]? = some lg ∧ Base m name lg) ∧
      ∀ n, n ≠ name → get (m.getLogger name).2 n = get m n := by
  unfold LoggerManager.getLogger
  split
  · rename_i id hid
    obtain ⟨lg, hobj⟩ : ∃ lg, m.objects[id]? = some lg :=
      ⟨_, List.getElem?_eq_getElem (h.lt name id hid)⟩
    refine ⟨h, hid, ⟨_, hobj, .inl ?_⟩, fun _ _ => rfl⟩
    rw [get, hid]
    exact hobj
  · rename_i hnone
    have hother : ∀ n, n ≠ name →
        Function.update m.loggers name (some m.objects.length) n = m.loggers n :=
      fun n hn => Function.update_of_ne hn _ _
    have hself : Function.update m.loggers name (some m.objects.length) name =
        some m.objects.length := Function.update_self _ _ _
    refine ⟨⟨fun n id hid => ?_, fun n n' id hn hn' => ?_⟩, hself,
      ⟨_, List.getElem?_concat_length, .inr ⟨(get_eq_none h).mpr hnone, rfl⟩⟩, fun n hn => ?_⟩
    · rw [List.length_append]
      by_cases e : n = name
      · have hid' : some id = some m.objects.length := by
          subst e
          exact hid.symm.trans hself
        cases hid'
        exact Nat.lt_succ_self _
      · have hid' : m.loggers n = some id := (hother n e).symm.trans hid
        exact Nat.lt_succ_of_lt (h.lt n id hid')
    · -- the new id is larger than every id before
      have hnew : ∀ k, k ≠ name → Function.update m.loggers name (some m.objects.length) k ≠
          some m.objects.length := by
        intro k hk he
        exact absurd (h.lt k _ ((hother k hk).symm.trans he)) (Nat.lt_irrefl _)
      by_cases e : n = name
      · by_cases e' : n' = name
        · rw [e, e']
        · have hid : some id = some m.objects.length := by
            subst e
            exact hn.symm.trans hself
          exact absurd (hn'.trans hid) (hnew n' e')
      · by_cases e' : n' = name
        · have hid : some id = some m.objects.length := by
            subst e'
            exact hn'.symm.trans hself
          exact absurd (hn.trans hid) (hnew n e)
        · exact h.inj n n' id ((hother n e).symm.trans hn) ((hother n' e').symm.trans hn')
    · show (Function.update m.loggers name (some m.objects.length) n).bind _ = _
      rw [hother n hn, get]
      cases hid : m.loggers n with
      | none => rfl
      | some id => exact List.getElem?_append_left (h.lt n id hid)

theorem set_spec (h : Separate m) {id : LoggerId} (hid : m.loggers name = some id) (lg : Logger) :
    Separate { m with objects := m.objects.set id lg } ∧
      get { m with objects := m.objects.set id lg } name = some lg ∧
      ∀ n, n ≠ name → get { m with objects := m.objects.set id lg } n = get m n := by
  refine ⟨⟨fun n i hi => ?_, h.inj⟩, ?_, fun n hn => ?_⟩
  · rw [List.length_set]
    exact h.lt n i hi
  · show (m.loggers name).bind _ = _
    rw [hid]
    exact List.getElem?_set_self (h.lt name id hid)
  · show (m.loggers n).bind _ = (m.loggers n).bind _
    cases hi : m.loggers n with
    | none => rfl
    | some i =>
      have hne : id ≠ i := by
        intro e
        subst e
        exact hn (h.inj n name id hi hid)
      exact List.getElem?_set_ne hne

/-- **A change of one logger.** -/
theorem change_spec (h : Separate m) {f : Logger → Option Logger} (hf : ∀ lg, ∃ lg', f lg = some lg')
    (name : String) : ∃ m' lg lg', m.change name f = some m' ∧ Separate m' ∧ Base m name lg ∧
      f lg = some lg' ∧ get m' name = some lg' ∧ ∀ n, n ≠ name → get m' n = get m n := by
  obtain ⟨hsep, hid, ⟨lg, hobj, hbase⟩, hother⟩ := getLogger_spec h name
  obtain ⟨lg', hlg'⟩ := hf lg
  obtain ⟨hsep', hself', hother'⟩ := set_spec hsep hid lg'
  refine ⟨_, lg, lg', ?_, hsep', hbase, hlg', hself',
    fun n hn => (hother' n hn).trans (hother n hn)⟩
  rw [LoggerManager.change]
  dsimp only
  rw [hobj, Option.bind_some, hlg', Option.map_some]

/-- **A loop over definitions of different names.** -/
theorem changeAll_spec (h : Separate m) {act : LogDefine → Option (Logger → Option Logger)}
    {defs : List LogDefine} (hnames : defs.Pairwise fun i j => i.name ≠ j.name)
    (hact : ∀ i ∈ defs, ∀ f, act i = some f → ∀ lg, ∃ lg', f lg = some lg') :
    ∃ m', m.changeAll act defs = some m' ∧ Separate m' ∧
      (∀ i ∈ defs, ∀ f, act i = some f → ∃ lg lg', Base m i.name lg ∧ f lg = some lg' ∧
        get m' i.name = some lg') ∧
      ∀ n, (∀ i ∈ defs, i.name = n → act i = none) → get m' n = get m n := by
  induction defs generalizing m with
  | nil => exact ⟨m, rfl, h, fun i hi => absurd hi List.not_mem_nil, fun _ _ => rfl⟩
  | cons i defs ih =>
    obtain ⟨hhead, htail⟩ := List.pairwise_cons.mp hnames
    have hact' := fun j hj => hact j (List.mem_cons_of_mem i hj)
    cases ha : act i with
    | none =>
      obtain ⟨m', hm', hsep, hdone, hsame⟩ := ih h htail hact'
      refine ⟨m', ?_, hsep, fun j hj f hf => ?_, fun n hn => ?_⟩
      · rw [LoggerManager.changeAll, List.foldlM_cons, ha]
        exact hm'
      · rcases List.mem_cons.mp hj with he | hj
        · rw [he, ha] at hf
          cases hf
        · exact hdone j hj f hf
      · exact hsame n fun j hj => hn j (List.mem_cons_of_mem i hj)
    | some f =>
      obtain ⟨m₁, lg, lg', hm₁, hsep₁, hbase, hf, hget, hother⟩ :=
        change_spec h (hact i List.mem_cons_self f ha) i.name
      obtain ⟨m', hm', hsep, hdone, hsame⟩ := ih hsep₁ htail hact'
      refine ⟨m', ?_, hsep, fun j hj g hg => ?_, fun n hn => ?_⟩
      · rw [LoggerManager.changeAll, List.foldlM_cons, ha]
        show (m.change i.name f).bind _ = _
        rw [hm₁]
        exact hm'
      · rcases List.mem_cons.mp hj with he | hj
        · -- the later turns are about other names
          subst he
          rw [ha] at hg
          cases hg
          refine ⟨lg, lg', hbase, hf, ?_⟩
          rw [hsame j.name fun k hk he => absurd he.symm (hhead k hk)]
          exact hget
        · obtain ⟨lg₁, lg₁', hbase₁, hg', hget₁⟩ := hdone j hj g hg
          have hget' := hother j.name (hhead j hj).symm
          rw [Base, hget'] at hbase₁
          exact ⟨lg₁, lg₁', hbase₁, hg', hget₁⟩
      · have hne : n ≠ i.name := by
          intro e
          rw [hn i List.mem_cons_self e.symm] at ha
          cases ha
        rw [hsame n fun j hj => hn j (List.mem_cons_of_mem i hj), hother n hne]

/-! ### One definition -/

theorem addDefined_spec (d : Bool) {as : List LogAppenderDefine}
    (htypes : ∀ a ∈ as, a.type = 1 ∨ a.type = 2) {lg : Logger} (h : lg.Made) :
    ∃ lg', as.foldlM (Logger.addDefined d) lg = some lg' ∧ lg'.level = lg.level ∧
      lg'.formatter = lg.formatter ∧
      lg'.view = lg.view ++ as.filterMap (appenderOf d lg.formatter) := by
  induction as generalizing lg with
  | nil => exact ⟨lg, rfl, rfl, rfl, (List.append_nil _).symm⟩
  | cons a as ih =>
    have htypes' := fun b hb => htypes b (List.mem_cons_of_mem a hb)
    -- the turn either adds one appender or leaves the logger alone
    have hadd : ∀ ap, Logger.addDefined d lg a = some (lg.attach ap) →
        appenderOf d lg.formatter a = some (Logger.adopt lg.formatter ap) →
        ∃ lg', (a :: as).foldlM (Logger.addDefined d) lg = some lg' ∧ lg'.level = lg.level ∧
          lg'.formatter = lg.formatter ∧
          lg'.view = lg.view ++ (a :: as).filterMap (appenderOf d lg.formatter) := by
      intro ap hturn happ
      obtain ⟨lg', hlg', hlevel, hfmt, hview⟩ := ih htypes' (Logger.made_attach h ap)
      refine ⟨lg', ?_, hlevel, hfmt, ?_⟩
      · rw [List.foldlM_cons, hturn]
        exact hlg'
      · have hfmt' : (lg.attach ap).formatter = lg.formatter := rfl
        rw [hview, Logger.view_attach h, hfmt', List.filterMap_cons, happ, List.append_assoc]
        rfl
    rcases htypes a List.mem_cons_self with ht | ht
    · exact hadd (a.make (.file a.file)) (if_pos ht) (if_pos ht)
    · have h1 : ¬a.type = 1 := by
        rw [ht]
        decide
      cases d with
      | false =>
        refine hadd (a.make .stdout) ?_ ?_
        · rw [Logger.addDefined, if_neg h1, if_pos ht]
          rfl
        · rw [appenderOf, if_neg h1]
          rfl
      | true =>
        obtain ⟨lg', hlg', hlevel, hfmt, hview⟩ := ih htypes' h
        refine ⟨lg', ?_, hlevel, hfmt, ?_⟩
        · have hturn : Logger.addDefined true lg a = some lg := by
            rw [Logger.addDefined, if_neg h1, if_pos ht]
            rfl
          rw [List.foldlM_cons, hturn]
          exact hlg'
        · have happ : appenderOf true lg.formatter a = none := by
            rw [appenderOf, if_neg h1]
            rfl
          rw [hview, List.filterMap_cons, happ]

/-- **A definition that is applied gives the logger what it asks for.** -/
theorem applyTo_spec (d : Bool) {i : LogDefine} (hfmt : (LogFormatter.mk i.formatter).isError = false)
    (htypes : ∀ a ∈ i.appenders, a.type = 1 ∨ a.type = 2) (lg : Logger) :
    ∃ lg', i.applyTo d lg = some lg' ∧ shown lg' = asked d lg.formatter i := by
  let lg₁ := if i.formatter ≠ "" then (lg.setLevel i.level).setPattern i.formatter
    else lg.setLevel i.level
  have h1 : lg₁.level = i.level ∧ lg₁.formatter = formatterOf lg.formatter i := by
    by_cases he : i.formatter ≠ ""
    · have hlg₁ : lg₁ = (lg.setLevel i.level).setFormatter (some ⟨i.formatter⟩) := by
        rw [show lg₁ = _ from if_pos he, Logger.setPattern, hfmt]
        rfl
      rw [hlg₁, formatterOf, if_pos he]
      exact ⟨rfl, rfl⟩
    · rw [show lg₁ = lg.setLevel i.level from if_neg he, formatterOf, if_neg he]
      exact ⟨rfl, rfl⟩
  have hmade : lg₁.clearAppenders.Made := fun a ha => absurd ha List.not_mem_nil
  obtain ⟨lg', hlg', hlevel, hfmt', hview⟩ := addDefined_spec d htypes hmade
  refine ⟨lg', hlg', ?_⟩
  have hf : lg₁.clearAppenders.formatter = formatterOf lg.formatter i := h1.2
  rw [shown, hlevel, hfmt', hview, hf, asked]
  show (⟨lg₁.level, _, _⟩ : Shown) = _
  rw [h1.1]
  rfl

/-! ### Sets of definitions -/

theorem names_ne (S : LogDefines) : S.defs.Pairwise fun i j => i.name ≠ j.name :=
  S.sorted.imp fun h => ne_of_lt h

theorem find_mem {S : LogDefines} {j : LogDefine} (h : S.find name = some j) :
    j ∈ S.defs ∧ j.name = name := by
  refine ⟨List.mem_of_find?_eq_some h, ?_⟩
  simpa using List.find?_some h

theorem find_eq_none {S : LogDefines} : S.find name = none ↔ ∀ i ∈ S.defs, i.name ≠ name := by
  simp [LogDefines.find]

/-- A definition is found under its name. -/
theorem find_self {S : LogDefines} {i : LogDefine} (h : i ∈ S.defs) : S.find i.name = some i := by
  have hlist : ∀ l : List LogDefine, l.Pairwise (fun i j => i.name ≠ j.name) → i ∈ l →
      l.find? (fun d => d.name = i.name) = some i := by
    intro l
    induction l with
    | nil => exact fun _ hi => absurd hi List.not_mem_nil
    | cons j l ih =>
      intro hnames hi
      obtain ⟨hhead, htail⟩ := List.pairwise_cons.mp hnames
      rcases List.mem_cons.mp hi with he | hi
      · subst he
        exact List.find?_cons_of_pos (by simp)
      · have hne := hhead i hi
        rw [List.find?_cons_of_neg (by simpa using hne)]
        exact ih htail hi
  exact hlist S.defs (names_ne S) h

theorem eq_of_beq {i j : LogDefine} (h : (i == j) = true) :
    i.name = j.name ∧ i.level = j.level ∧ i.formatter = j.formatter := by
  have h' : (i.name == j.name && i.level == j.level && i.formatter == j.formatter &&
    i.appenders == i.appenders) = true := h
  simp only [Bool.and_eq_true, beq_iff_eq] at h'
  exact ⟨h'.1.1.1, h'.1.1.2, h'.1.2⟩

/-- Sets that the code takes for equal: each definition of one is equal to the one of its name in the
other. -/
theorem find_of_beq {S T : LogDefines} (h : (S.defs == T.defs) = true) :
    (∀ i ∈ S.defs, ∃ j, T.find i.name = some j ∧ (i == j) = true) ∧
      S.defs.map LogDefine.name = T.defs.map LogDefine.name := by
  have hlists : ∀ l l' : List LogDefine, (l == l') = true →
      (∀ i ∈ l, ∃ j ∈ l', (i == j) = true) ∧ l.map LogDefine.name = l'.map LogDefine.name := by
    intro l
    induction l with
    | nil =>
      intro l' hl
      cases l' with
      | nil => exact ⟨fun i hi => absurd hi List.not_mem_nil, rfl⟩
      | cons j l' => cases hl
    | cons i l ih =>
      intro l' hl
      cases l' with
      | nil => cases hl
      | cons j l' =>
        have hl' : ((i == j) && (l == l')) = true := hl
        obtain ⟨hij, hrest⟩ := Bool.and_eq_true_iff.mp hl'
        obtain ⟨hall, hnames⟩ := ih l' hrest
        refine ⟨fun k hk => ?_, ?_⟩
        · rcases List.mem_cons.mp hk with he | hk
          · rw [he]
            exact ⟨j, List.mem_cons_self, hij⟩
          · obtain ⟨k', hk', he⟩ := hall k hk
            exact ⟨k', List.mem_cons_of_mem j hk', he⟩
        · rw [List.map_cons, List.map_cons, (eq_of_beq hij).1, hnames]
  obtain ⟨hall, hnames⟩ := hlists S.defs T.defs h
  refine ⟨fun i hi => ?_, hnames⟩
  obtain ⟨j, hj, he⟩ := hall i hi
  refine ⟨j, ?_, he⟩
  rw [(eq_of_beq he).1]
  exact find_self hj

theorem find_none_of_beq {S T : LogDefines} (h : (S.defs == T.defs) = true) :
    S.find name = none ↔ T.find name = none := by
  have hmem : ∀ U : LogDefines, U.find name = none ↔ name ∉ U.defs.map LogDefine.name := by
    intro U
    rw [find_eq_none, List.mem_map]
    constructor
    · intro hU hn
      obtain ⟨i, hi, he⟩ := hn
      exact hU i hi he
    · intro hU i hi he
      exact hU ⟨i, hi, he⟩
  rw [hmem S, hmem T, (find_of_beq h).2]

/-! ### One assignment -/

variable {d : Bool} {s s' : State} {S : LogDefines}

/-- The formatter that the logger of the name has before the assignment. -/
def before (s : State) (name : String) : Option LogFormatter :=
  match get s.manager name with
  | some lg => lg.formatter
  | none => some defaultFormatter

/-- What is seen of a defined logger after the assignment. -/
def expected (d : Bool) (s : State) (i : LogDefine) : Shown :=
  match s.logs.find i.name with
  | none => asked d (before s i.name) i
  | some j =>
    if i == j then asked d (some defaultFormatter) j else asked d (before s i.name) i

/-- The loggers are as the value of `logs` asks for, whatever was assigned before. -/
structure Inv (d : Bool) (s : State) : Prop where
  separate : Separate s.manager
  logged : ∀ i ∈ s.logs.defs, ∃ lg, get s.manager i.name = some lg ∧
    shown lg = asked d (some defaultFormatter) i
  gone : ∀ name ∈ s.named, s.logs.find name = none →
    ∃ lg, get s.manager name = some lg ∧ lg.appenders = []

theorem before_of_base {lg : Logger} (h : Base s.manager name lg) :
    before s name = lg.formatter := by
  rw [before]
  rcases h with h | ⟨h, hf⟩
  · rw [h]
  · rw [h]
    exact hf.symm

theorem expected_of_changed {i : LogDefine} {f : Logger → Option Logger}
    (h : changed d s.logs i = some f) :
    f = i.applyTo d ∧ expected d s i = asked d (before s i.name) i := by
  unfold changed at h
  unfold expected
  split at h
  · cases h
    exact ⟨rfl, rfl⟩
  · split at h
    · cases h
    · rename_i hne
      cases h
      exact ⟨rfl, if_neg hne⟩

theorem expected_of_unchanged {i : LogDefine} (h : changed d s.logs i = none) :
    ∃ j, s.logs.find i.name = some j ∧ (i == j) = true ∧
      expected d s i = asked d (some defaultFormatter) j := by
  unfold changed at h
  unfold expected
  split at h
  · cases h
  · rename_i j hf
    rw [hf]
    split at h
    · rename_i he
      exact ⟨j, rfl, he, if_pos he⟩
    · cases h

/-- What holds after an assignment, whether or not the history shows. -/
structure After (d : Bool) (s : State) (S : LogDefines) (s' : State) : Prop where
  separate : Separate s'.manager
  defined : ∀ i ∈ S.defs, ∃ lg, get s'.manager i.name = some lg ∧ shown lg = expected d s i
  gone : ∀ name ∈ s'.named, S.find name = none →
    ∃ lg, get s'.manager name = some lg ∧ lg.appenders = []
  logs : s'.logs = S ∨
    (s'.logs = s.logs ∧ s'.manager = s.manager ∧ (S.defs == s.logs.defs) = true)

/-- A name that is not defined now was named before. -/
theorem mem_named (hname : name ∈ S.defs.map LogDefine.name ++ s.named) (hnone : S.find name = none) :
    name ∈ s.named := by
  rcases List.mem_append.mp hname with hS | hs
  · obtain ⟨i, hi, he⟩ := List.mem_map.mp hS
    exact absurd he (find_eq_none.mp hnone i hi)
  · exact hs

theorem after_same (hI : Inv d s) (he : (S.defs == s.logs.defs) = true) :
    After d s S { s with named := S.defs.map LogDefine.name ++ s.named } := by
  refine ⟨hI.separate, fun i hi => ?_, fun name hname hnone => ?_, .inr ⟨rfl, rfl, he⟩⟩
  · obtain ⟨j, hj, hij⟩ := (find_of_beq he).1 i hi
    obtain ⟨lg, hget, hshown⟩ := hI.logged j (find_mem hj).1
    refine ⟨lg, (find_mem hj).2 ▸ hget, ?_⟩
    rw [expected, hj, hshown]
    exact (if_pos hij).symm
  · exact hI.gone name (mem_named hname hnone) ((find_none_of_beq he).mp hnone)

theorem after_change (hI : Inv d s) (hv : Valid S) : ∃ m, s.manager.onChange d s.logs S = some m ∧
    After d s S ⟨m, S, S.defs.map LogDefine.name ++ s.named⟩ := by
  have happly : ∀ i ∈ S.defs, ∀ f, changed d s.logs i = some f → ∀ lg, ∃ lg', f lg = some lg' := by
    intro i hi f hf lg
    obtain ⟨hfmt, hall⟩ := hv i hi
    rw [(expected_of_changed hf).1]
    obtain ⟨lg', hlg', -⟩ := applyTo_spec d hfmt (fun a ha => (hall a ha).1) lg
    exact ⟨lg', hlg'⟩
  have hretire : ∀ i ∈ s.logs.defs, ∀ f, removed S i = some f → ∀ lg, ∃ lg', f lg = some lg' := by
    intro i _ f hf lg
    unfold removed at hf
    split at hf
    · cases hf
      exact ⟨lg.retire, rfl⟩
    · cases hf
  obtain ⟨m₁, hm₁, hsep₁, hdone₁, hsame₁⟩ := changeAll_spec hI.separate (names_ne S) happly
  obtain ⟨m₂, hm₂, hsep₂, hdone₂, hsame₂⟩ := changeAll_spec hsep₁ (names_ne s.logs) hretire
  refine ⟨m₂, ?_, hsep₂, fun i hi => ?_, fun name hname hnone => ?_, .inl rfl⟩
  · rw [LoggerManager.onChange, hm₁]
    exact hm₂
  · -- the second loop leaves a defined logger alone
    have hkeep : get m₂ i.name = get m₁ i.name := by
      refine hsame₂ i.name fun j _ he => ?_
      rw [removed, he, find_self hi]
    show ∃ lg, get m₂ i.name = some lg ∧ _
    rw [hkeep]
    cases hc : changed d s.logs i with
    | some f =>
      obtain ⟨hf, hexp⟩ := expected_of_changed hc
      obtain ⟨lg, lg', hbase, hlg', hget⟩ := hdone₁ i hi f hc
      obtain ⟨hfmt, hall⟩ := hv i hi
      obtain ⟨lg₂, hlg₂, hshown⟩ := applyTo_spec d hfmt (fun a ha => (hall a ha).1) lg
      have he : lg₂ = lg' := by
        rw [hf, hlg₂] at hlg'
        exact Option.some.inj hlg'
      rw [he] at hshown
      refine ⟨lg', hget, ?_⟩
      rw [hshown, hexp, before_of_base hbase]
    | none =>
      obtain ⟨j, hj, -, hexp⟩ := expected_of_unchanged hc
      have hsame : get m₁ i.name = get s.manager i.name := by
        refine hsame₁ i.name fun k hk he => ?_
        have hki : k = i := by
          have h := find_self hk
          rw [he, find_self hi] at h
          exact (Option.some.inj h).symm
        rw [hki]
        exact hc
      obtain ⟨lg, hget, hshown⟩ := hI.logged j (find_mem hj).1
      rw [hsame, hexp]
      exact ⟨lg, (find_mem hj).2 ▸ hget, hshown⟩
  · show ∃ lg, get m₂ name = some lg ∧ _
    cases hf : s.logs.find name with
    | some j =>
      obtain ⟨hj, hjname⟩ := find_mem hf
      have hr : removed S j = some fun lg => some lg.retire := by
        rw [removed, hjname, hnone]
      obtain ⟨lg, lg', -, hlg', hget⟩ := hdone₂ j hj _ hr
      cases hlg'
      exact ⟨lg.retire, hjname ▸ hget, rfl⟩
    | none =>
      have hkeep₂ : get m₂ name = get m₁ name :=
        hsame₂ name fun j hj he => absurd he (find_eq_none.mp hf j hj)
      have hkeep₁ : get m₁ name = get s.manager name :=
        hsame₁ name fun i hi he => absurd he (find_eq_none.mp hnone i hi)
      rw [hkeep₂, hkeep₁]
      exact hI.gone name (mem_named hname hnone) hf

/-- **One assignment.** -/
theorem step_after (hI : Inv d s) (hv : Valid S) : ∃ s', step d s S = some s' ∧ After d s S s' := by
  cases he : S.defs == s.logs.defs with
  | true => exact ⟨_, if_pos he, after_same hI he⟩
  | false =>
    obtain ⟨m, hm, hafter⟩ := after_change hI hv
    refine ⟨_, ?_, hafter⟩
    rw [step, he, if_neg Bool.false_ne_true, hm]
    rfl

/-! ### Runs -/

theorem asked_eq_iff {old : Option LogFormatter} {i : LogDefine} :
    asked d old i = asked d (some defaultFormatter) i ↔
      (i.formatter = "" → old = some defaultFormatter) := by
  constructor
  · intro h he
    have hfmt := congrArg Shown.formatter h
    have hne : ¬i.formatter ≠ "" := fun hne => hne he
    change formatterOf old i = formatterOf (some defaultFormatter) i at hfmt
    rw [formatterOf, formatterOf, if_neg hne, if_neg hne] at hfmt
    exact hfmt
  · intro h
    have hfmt : formatterOf old i = formatterOf (some defaultFormatter) i := by
      by_cases he : i.formatter = ""
      · rw [h he]
      · rw [formatterOf, formatterOf, if_pos he, if_pos he]
    rw [asked, asked, hfmt]

/-- The condition says that every definition gets what it asks for. -/
theorem good_iff : Good d s S ↔
    ∀ i ∈ S.defs, expected d s i = asked d (some defaultFormatter) i := by
  refine forall_congr' fun i => forall_congr' fun _ => ?_
  cases hc : changed d s.logs i with
  | none =>
    obtain ⟨j, hj, -, hexp⟩ := expected_of_unchanged hc
    rw [hexp]
    show (∀ j, s.logs.find i.name = some j → _) ↔ _
    rw [hj]
    constructor
    · exact fun h => (h j rfl).symm
    · intro h j' hj'
      cases hj'
      exact h.symm
  | some f =>
    rw [(expected_of_changed hc).2, asked_eq_iff]
    show (i.formatter = "" → ∀ lg, get s.manager i.name = some lg → _) ↔ _
    refine imp_congr_right fun _ => ?_
    rw [before]
    cases get s.manager i.name with
    | none => simp
    | some lg => simp

theorem historyFree_of_after (h : After d s S s')
    (hfresh : ∃ fresh, step d State.init S = some fresh ∧
      ∀ i ∈ S.defs, (get fresh.manager i.name).map shown = some (asked d (some defaultFormatter) i)) :
    HistoryFree d s' S ↔ Good d s S := by
  obtain ⟨fresh, hs, hshown⟩ := hfresh
  have hmine : ∀ i ∈ S.defs, (get s'.manager i.name).map shown = some (expected d s i) := by
    intro i hi
    obtain ⟨lg, hget, he⟩ := h.defined i hi
    rw [hget, Option.map_some, he]
  rw [good_iff]
  constructor
  · intro hfree i hi
    obtain ⟨⟨fresh', hs', hsame⟩, -⟩ := hfree
    rw [hs] at hs'
    cases hs'
    have he := hsame i hi
    rw [hmine i hi, hshown i hi] at he
    exact Option.some.inj he
  · intro hgood
    refine ⟨⟨fresh, hs, fun i hi => ?_⟩, h.gone⟩
    rw [hmine i hi, hshown i hi, hgood i hi]

theorem formatter_loggerOf (name : String) :
    (Lookups.loggerOf name).formatter = some defaultFormatter := by
  unfold Lookups.loggerOf
  split <;> rfl

theorem get_init {lg : Logger} (h : get State.init.manager name = some lg) :
    lg.formatter = some defaultFormatter := by
  obtain ⟨id, hid, hobj⟩ := Option.bind_eq_some_iff.mp h
  have hlg := Lookups.inv_init.objects name id hid
  rw [show Lookups.State.init.manager = State.init.manager from rfl, hobj] at hlg
  rw [Option.some.inj hlg]
  exact formatter_loggerOf name

theorem inv_init : Inv d State.init := by
  refine ⟨⟨fun n id hid => ?_, fun n n' id hn hn' => ?_⟩, fun i hi => absurd hi List.not_mem_nil,
    fun n hn => absurd hn List.not_mem_nil⟩
  · exact (List.getElem?_eq_some_iff.mp (Lookups.inv_init.objects n id hid)).1
  · -- the root logger is the only one
    have hroot : ∀ k, State.init.manager.loggers k = some id → k = "root" := by
      intro k hk
      by_contra e
      rw [show State.init.manager.loggers k = _ from Lookups.new_loggers k, if_neg e] at hk
      cases hk
    rw [hroot n hn, hroot n' hn']

/-- In a fresh process every value is good. -/
theorem good_init (d : Bool) (S : LogDefines) : Good d State.init S :=
  fun _ _ _ _ hget => get_init hget

/-- What an assignment alone does in a fresh process. -/
theorem step_init (d : Bool) (hv : Valid S) : ∃ fresh, step d State.init S = some fresh ∧
    ∀ i ∈ S.defs, (get fresh.manager i.name).map shown = some (asked d (some defaultFormatter) i) := by
  obtain ⟨fresh, hs, h⟩ := step_after inv_init hv
  refine ⟨fresh, hs, fun i hi => ?_⟩
  obtain ⟨lg, hget, he⟩ := h.defined i hi
  rw [hget, Option.map_some, he, good_iff.mp (good_init d S) i hi]

/-- A good assignment keeps the invariant. -/
theorem After.inv (hI : Inv d s) (h : After d s S s') (hgood : Good d s S) : Inv d s' := by
  rcases h.logs with hlogs | ⟨hlogs, hm, he⟩
  · refine ⟨h.separate, fun i hi => ?_, fun name hname hnone => ?_⟩
    · rw [hlogs] at hi
      obtain ⟨lg, hget, hshown⟩ := h.defined i hi
      exact ⟨lg, hget, hshown.trans (good_iff.mp hgood i hi)⟩
    · rw [hlogs] at hnone
      exact h.gone name hname hnone
  · refine ⟨h.separate, ?_, fun name hname hnone => ?_⟩
    · rw [hlogs, hm]
      exact hI.logged
    · rw [hlogs] at hnone
      exact h.gone name hname ((find_none_of_beq he).mpr hnone)

theorem Inv.reach (h : Reach (step d) (fun s S => Valid S ∧ Good d s S) State.init s) : Inv d s := by
  refine h.invariant (I := Inv d) inv_init ?_
  intro s S s' hI hP hs
  obtain ⟨s₁, hs₁, hafter⟩ := step_after hI hP.1
  rw [hs₁] at hs
  cases hs
  exact hafter.inv hI hP.2

/-- **In a run of good assignments no history shows**, and it shows after the first assignment that is
not good. -/
theorem historyFree_iff (h : Reach (step d) (fun s S => Valid S ∧ Good d s S) State.init s)
    (hv : Valid S) : ∃ s', step d s S = some s' ∧ (HistoryFree d s' S ↔ Good d s S) := by
  obtain ⟨s', hs, hafter⟩ := step_after (Inv.reach h) hv
  exact ⟨s', hs, historyFree_of_after hafter (step_init d hv)⟩

/-! ### Two assignments -/

/-- One logger with one appender. -/
def oneLogger (level : Level) (appender : LogAppenderDefine) : LogDefines :=
  ⟨[⟨"system", level, "%m", [appender]⟩], List.pairwise_singleton _ _⟩

def toStdout : LogAppenderDefine := ⟨2, .debug, "", ""⟩

def toFile : LogAppenderDefine := ⟨1, .debug, "", "log/system.txt"⟩

theorem valid_oneLogger (level : Level) {a : LogAppenderDefine} (ht : a.type = 1 ∨ a.type = 2)
    (ha : a.formatter = "") : Valid (oneLogger level a) := by
  have hm : (LogFormatter.mk "%m").isError = false := by decide +kernel
  have hempty : (LogFormatter.mk "").isError = false := by decide +kernel
  intro i hi
  rw [List.mem_singleton.mp hi]
  refine ⟨hm, fun b hb => ?_⟩
  rw [List.mem_singleton.mp hb, ha]
  exact ⟨ht, hempty⟩

/-- The first assignment is stored. -/
theorem first_logs (level : Level) {a : LogAppenderDefine} (ht : a.type = 1 ∨ a.type = 2)
    (ha : a.formatter = "") : ∃ s, step false State.init (oneLogger level a) = some s ∧
      s.logs = oneLogger level a ∧ Inv false s := by
  obtain ⟨s, hs, hafter⟩ := step_after inv_init (valid_oneLogger level ht ha)
  refine ⟨s, hs, ?_, hafter.inv inv_init (good_init false _)⟩
  rcases hafter.logs with h | ⟨-, -, h⟩
  · exact h
  · cases h

/-- A new level makes the new appender count. -/
theorem historyFree_iff_level : ∃ s s',
    step false State.init (oneLogger .info toStdout) = some s ∧
      step false s (oneLogger .warn toFile) = some s' ∧
        HistoryFree false s' (oneLogger .warn toFile) := by
  obtain ⟨s, hs, hlogs, -⟩ := first_logs .info (a := toStdout) (.inr rfl) rfl
  have hv := valid_oneLogger .info (a := toStdout) (.inr rfl) rfl
  have hv' := valid_oneLogger .warn (a := toFile) (.inl rfl) rfl
  obtain ⟨s', hs', hiff⟩ := historyFree_iff (.move .refl ⟨hv, good_init false _⟩ hs) hv'
  refine ⟨s, s', hs, hs', hiff.mpr fun i hi => ?_⟩
  rw [List.mem_singleton.mp hi, hlogs]
  show "%m" = "" → _
  intro he
  exact absurd he (by decide)

/-- The appenders alone are changed, and the logger keeps its old one. -/
theorem new_appender_ignored :
    ¬∀ s, Reach (step false) (fun _ S => Valid S) State.init s → ∀ S s', Valid S →
      step false s S = some s' → HistoryFree false s' S := by
  intro h
  obtain ⟨s, hs, hlogs, hI⟩ := first_logs .info (a := toStdout) (.inr rfl) rfl
  have hv := valid_oneLogger .info (a := toStdout) (.inr rfl) rfl
  have hv' := valid_oneLogger .info (a := toFile) (.inl rfl) rfl
  obtain ⟨s', hs', hafter⟩ := step_after hI hv'
  have hfree := h s (.move .refl hv hs) _ s' hv' hs'
  have hgood := (historyFree_of_after hafter (step_init false hv')).mp hfree
  have hexp := good_iff.mp hgood _ (List.mem_singleton.mpr rfl)
  have hold : expected false s ⟨"system", .info, "%m", [toFile]⟩ =
      asked false (some defaultFormatter) ⟨"system", .info, "%m", [toStdout]⟩ := by
    rw [expected, hlogs]
    rfl
  rw [hold] at hexp
  exact absurd hexp (by decide +kernel)

end Reload

end LioNet.Log
