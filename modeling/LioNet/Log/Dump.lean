import LioNet.Log.Define
import Mathlib.Data.Set.Finite.Basic

/-!
# Dumping the loggers and loading the dump

`LoggerManager::toYamlString` of `log.cc`, and what it calls, write the loggers in the layout that the
variable `logs` is read from: an appender goes through text into the node of its logger, and a logger
into the node of the manager.  The conversion to `std::set<LogDefine>` is the one of `config.h` for sets,
where `insert` looks at the names only.

`dump_restores`: whatever was done to the loggers, the dump of a process is read back as a value of
`logs` which, assigned in a fresh process, gives every logger its level, its formatter and its appenders
again.  The levels of the appenders are lost, as the reader passes over them.

`none` stands for an exception of yaml-cpp or for a crash.
-/

namespace LioNet.Log

open LioNet.Yaml LioNet.Config LioNet.LexicalCast LioNet.Lib Reload

/-! ### Text for an appender, a logger and the manager -/

/-- What both kinds of appender write after the lines of their own. -/
def LogAppender.node (ap : LogAppender) (head : List (String × Node)) : Node :=
  built
    (head ++
    field (ap.level ≠ .unknow) "level" (.scalar ap.level.toString) ++
    match ap.formatter with
    | some f => field (ap.hasFormatter = true) "formatter" (.scalar f.pattern)
    | none => [])

/-- The node of `StdoutLogAppender::toYamlString`. -/
def stdoutLogAppender (ap : LogAppender) : Node :=
  ap.node [("type", .scalar "StdoutLogAppender")]

/-- The node of `FileLogAppender::toYamlString`. -/
def fileLogAppender (ap : LogAppender) (filename : String) : Node :=
  ap.node [("type", .scalar "FileLogAppender"), ("file", .scalar filename)]

def LogAppender.encode (ap : LogAppender) : Node :=
  match ap.sink with
  | .stdout => stdoutLogAppender ap
  | .file filename => fileLogAppender ap filename

/-- The virtual `toYamlString`. -/
def LogAppender.toYamlString (L : Library) (ap : LogAppender) : String := L.emit ap.encode

/-- The node of `Logger::toYamlString`, from the nodes of the appenders. -/
def Logger.encode (lg : Logger) (appenders : List Node) : Node :=
  built
    ([("name", .scalar lg.name)] ++
    field (lg.level ≠ .unknow) "level" (.scalar lg.level.toString) ++
    (match lg.formatter with
      | some f => [("formatter", .scalar f.pattern)]
      | none => []) ++
    field (appenders ≠ []) "appenders" (.seq appenders))

/-- `Logger::toYamlString`. -/
def Logger.toYamlString (L : Library) (lg : Logger) : Option String :=
  (lg.view.mapM fun ap => L.load (ap.toYamlString L)).map fun appenders =>
    L.emit (lg.encode appenders)

/-- A fresh node after `push_back` of these items. -/
def pushed : List Node → Node
  | [] => .null
  | items => .seq items

/-- `LoggerManager::toYamlString`; `names` are the keys of `m_loggers` in their order. -/
def LoggerManager.toYamlString (L : Library) (m : LoggerManager) (names : List String) :
    Option String :=
  (names.mapM fun name => (get m name).bind fun lg => (lg.toYamlString L).bind L.load).map
    fun items => L.emit (pushed items)

/-- The keys of `m_loggers`, as a `std::map` gives them. -/
structure Keys (m : LoggerManager) (names : List String) : Prop where
  sorted : names.Pairwise (· < ·)
  mem_iff : ∀ name, name ∈ names ↔ (m.loggers name).isSome

/-! ### Reading a set of definitions -/

/-- `insert`, which keeps the definition that is there. -/
def insertDefine (i : LogDefine) : List LogDefine → List LogDefine
  | [] => [i]
  | j :: defs =>
    if i.name < j.name then i :: j :: defs
    else if j.name < i.name then j :: insertDefine i defs
    else j :: defs

theorem name_of_mem_insert {i k : LogDefine} {defs : List LogDefine} (hk : k ∈ insertDefine i defs) :
    k.name = i.name ∨ k ∈ defs := by
  induction defs with
  | nil => exact .inl (congrArg LogDefine.name (List.mem_singleton.mp hk))
  | cons j defs ih =>
    unfold insertDefine at hk
    split at hk
    · rcases List.mem_cons.mp hk with he | hk
      · exact .inl (congrArg LogDefine.name he)
      · exact .inr hk
    · split at hk
      · rcases List.mem_cons.mp hk with he | hk
        · exact .inr (he ▸ List.mem_cons_self)
        · exact (ih hk).imp_right (List.mem_cons_of_mem j)
      · exact .inr hk

theorem sorted_insert (i : LogDefine) {defs : List LogDefine}
    (h : defs.Pairwise fun d oth => d.name < oth.name) :
    (insertDefine i defs).Pairwise fun d oth => d.name < oth.name := by
  induction defs with
  | nil => exact List.pairwise_singleton _ _
  | cons j defs ih =>
    obtain ⟨hhead, htail⟩ := List.pairwise_cons.mp h
    unfold insertDefine
    split
    · rename_i hij
      refine List.pairwise_cons.mpr ⟨fun k hk => ?_, h⟩
      rcases List.mem_cons.mp hk with he | hk
      · exact he ▸ hij
      · exact hij.trans (hhead k hk)
    · split
      · rename_i hji
        refine List.pairwise_cons.mpr ⟨fun k hk => ?_, ih htail⟩
        rcases name_of_mem_insert hk with he | hk
        · exact he ▸ hji
        · exact hhead k hk
      · exact h

def LogDefines.insert (S : LogDefines) (i : LogDefine) : LogDefines :=
  ⟨insertDefine i S.defs, sorted_insert i S.sorted⟩

theorem sorted_nil : ([] : List LogDefine).Pairwise fun d oth => d.name < oth.name := .nil

/-- `LexicalCast<std::string, std::set<LogDefine>>`. -/
def LogDefines.fromYaml (L : Library) (v : String) : Option LogDefines :=
  (parseItems L.api (LogDefine.fromYaml L) v).map fun ds => ds.foldl LogDefines.insert ⟨[], sorted_nil⟩

/-- A definition of a larger name comes last. -/
theorem insert_last {i : LogDefine} {defs : List LogDefine} (h : ∀ j ∈ defs, j.name < i.name) :
    insertDefine i defs = defs ++ [i] := by
  induction defs with
  | nil => rfl
  | cons j defs ih =>
    have hj := h j List.mem_cons_self
    rw [insertDefine, if_neg hj.asymm, if_pos hj, ih fun k hk => h k (List.mem_cons_of_mem j hk)]
    rfl

/-- **Sorted definitions are read as they are.** -/
theorem foldl_insert {S : LogDefines} {ds : List LogDefine}
    (h : (S.defs ++ ds).Pairwise fun d oth => d.name < oth.name) :
    (ds.foldl LogDefines.insert S).defs = S.defs ++ ds := by
  induction ds generalizing S with
  | nil => exact (List.append_nil _).symm
  | cons i ds ih =>
    have hlast : (S.insert i).defs = S.defs ++ [i] :=
      insert_last fun j hj => (List.pairwise_append.mp h).2.2 j hj i List.mem_cons_self
    have hassoc : S.defs ++ i :: ds = (S.insert i).defs ++ ds := by
      rw [hlast, List.append_assoc]
      rfl
    rw [List.foldl_cons, ih (hassoc ▸ h), hassoc]

/-! ### The definition that a logger is written as -/

/-- A formatter that survives: an empty pattern is read as no formatter, a wrong one is refused. -/
def LogFormatter.Fit (f : LogFormatter) : Prop := f.pattern ≠ "" ∧ f.isError = false

/-- An attached appender has a formatter, which counts as its own. -/
structure LogAppender.Fit (ap : LogAppender) : Prop where
  own : ap.hasFormatter = true
  formatter : ∃ f, ap.formatter = some f ∧ f.Fit

structure Logger.Fit (lg : Logger) : Prop where
  made : lg.Made
  formatter : ∃ f, lg.formatter = some f ∧ f.Fit
  appenders : ∀ ap ∈ lg.view, ap.Fit

def patternOf (formatter : Option LogFormatter) : String := (formatter.map LogFormatter.pattern).getD ""

def LogAppender.define (ap : LogAppender) : LogAppenderDefine :=
  match ap.sink with
  | .file filename => ⟨1, ap.level, patternOf ap.formatter, filename⟩
  | .stdout => ⟨2, ap.level, patternOf ap.formatter, ""⟩

def Logger.define (lg : Logger) : LogDefine :=
  ⟨lg.name, lg.level, patternOf lg.formatter, lg.view.map LogAppender.define⟩

/-- What the reader makes of it. -/
def Logger.redefine (lg : Logger) : LogDefine :=
  { lg.define with appenders := lg.define.appenders.map LogAppenderDefine.unleveled }

theorem encode_appender_define {ap : LogAppender} (h : ap.Fit) : ap.define.encode = ap.encode := by
  obtain ⟨f, hf, hne, -⟩ := h.formatter
  obtain ⟨sink, level, formatter, hasFormatter⟩ := ap
  obtain rfl : formatter = some f := hf
  obtain rfl : hasFormatter = true := h.own
  have hformatter : field (f.pattern ≠ "") "formatter" (.scalar f.pattern) =
      field (true = true) "formatter" (.scalar f.pattern) := by
    rw [field, if_pos hne, field, if_pos rfl]
  cases sink with
  | stdout => exact congrArg (fun fs => built (_ ++ fs)) hformatter
  | file filename => exact congrArg (fun fs => built (_ ++ fs)) hformatter

theorem types_define (ap : LogAppender) :
    ap.define.type = 1 ∨ (ap.define.type = 2 ∧ ap.define.file = "") := by
  unfold LogAppender.define
  cases ap.sink with
  | file filename => exact .inl rfl
  | stdout => exact .inr ⟨rfl, rfl⟩

theorem encode_define {lg : Logger} (h : lg.Fit) :
    lg.define.encode = lg.encode (lg.view.map LogAppender.encode) := by
  obtain ⟨f, hf, hne, -⟩ := h.formatter
  have happenders : lg.define.appenders.map LogAppenderDefine.encode =
      lg.view.map LogAppender.encode := by
    rw [Logger.define, List.map_map]
    exact List.map_congr_left fun ap hap => encode_appender_define (h.appenders ap hap)
  have hpattern : lg.define.formatter = f.pattern := by
    rw [Logger.define, hf]
    rfl
  have hnil : lg.define.appenders ≠ [] ↔ lg.view.map LogAppender.encode ≠ [] := by
    rw [Logger.define, ne_eq, List.map_eq_nil_iff, ne_eq, List.map_eq_nil_iff]
  have hlast : field (lg.define.appenders ≠ []) "appenders"
        (.seq (lg.define.appenders.map LogAppenderDefine.encode)) =
      field (lg.view.map LogAppender.encode ≠ []) "appenders"
        (.seq (lg.view.map LogAppender.encode)) := by
    rw [happenders]
    simp only [field, hnil]
  rw [LogDefine.encode, hlast, hpattern, field, field, if_pos hne, Logger.encode, hf]
  rfl

/-! ### The text of the dump -/

section Text

variable {L : Library} {m : LoggerManager} {names : List String} {lg : Logger} {lgs : List Logger}

/-- The nodes that a logger puts into text. -/
def Logger.nodes (lg : Logger) : List Node :=
  lg.define.encode :: lg.view.map LogAppender.encode

/-- The nodes that the dump puts into text. -/
def LoggerManager.nodes (m : LoggerManager) (names : List String) : List Node :=
  let lgs := names.filterMap (get m)
  pushed (lgs.map fun lg => lg.define.encode) :: lgs.flatMap Logger.nodes

theorem toYamlString_eq (h : lg.Fit) (hload : ∀ node ∈ lg.nodes, L.load (L.emit node) = some node) :
    lg.toYamlString L = some (L.emit lg.define.encode) := by
  have hnodes : lg.view.mapM (fun ap => L.load (ap.toYamlString L)) =
      some (lg.view.map LogAppender.encode) := by
    rw [mapM_eq_some, List.map_map]
    refine List.map_congr_left fun ap hap => ?_
    exact hload ap.encode (List.mem_cons_of_mem _ (List.mem_map_of_mem hap))
  rw [Logger.toYamlString, hnodes, Option.map_some, encode_define h]

/-- **A logger is read as it was written**, but for the levels of its appenders. -/
theorem fromYaml_define (hload : L.load (L.emit lg.define.encode) = some lg.define.encode) :
    LogDefine.fromYaml L (L.emit lg.define.encode) = some lg.redefine := by
  refine fromYaml_toYaml (fun a ha => ?_) hload
  obtain ⟨ap, -, rfl⟩ := List.mem_map.mp ha
  exact types_define ap

/-- The loggers under the keys. -/
theorem filterMap_get (hlgs : names.map (get m) = lgs.map some) : names.filterMap (get m) = lgs :=
  calc names.filterMap (get m) = (names.map (get m)).filterMap id := by
        rw [List.filterMap_map]
        rfl
    _ = (lgs.map some).filterMap id := by rw [hlgs]
    _ = lgs := by
      rw [List.filterMap_map]
      exact List.filterMap_some

theorem dump_eq (hlgs : names.map (get m) = lgs.map some) (hfit : ∀ lg ∈ lgs, lg.Fit)
    (hload : ∀ lg ∈ lgs, ∀ node ∈ lg.nodes, L.load (L.emit node) = some node) :
    m.toYamlString L names = some (L.emit (pushed (lgs.map fun lg => lg.define.encode))) := by
  have hitems : names.mapM (fun name => (get m name).bind fun lg =>
      (lg.toYamlString L).bind L.load) = some (lgs.map fun lg => lg.define.encode) := by
    rw [mapM_eq_some]
    calc names.map (fun name => (get m name).bind fun lg => (lg.toYamlString L).bind L.load)
        = (names.map (get m)).map fun o => o.bind fun lg => (lg.toYamlString L).bind L.load := by
          rw [List.map_map]
          rfl
      _ = lgs.map fun lg => (lg.toYamlString L).bind L.load := by
          rw [hlgs, List.map_map]
          rfl
      _ = (lgs.map fun lg => lg.define.encode).map some := by
          rw [List.map_map]
          refine List.map_congr_left fun lg hlg => ?_
          rw [toYamlString_eq (hfit lg hlg) (hload lg hlg)]
          exact hload lg hlg _ List.mem_cons_self
  rw [LoggerManager.toYamlString, hitems, Option.map_some]

/-- The dump is read back definition by definition. -/
theorem fromYaml_dump (hsorted : lgs.Pairwise fun lg oth => lg.name < oth.name) (hne : lgs ≠ [])
    (hload : ∀ lg ∈ lgs, ∀ node ∈ lg.nodes, L.load (L.emit node) = some node)
    (hall : L.load (L.emit (pushed (lgs.map fun lg => lg.define.encode))) =
      some (pushed (lgs.map fun lg => lg.define.encode))) :
    ∃ S, LogDefines.fromYaml L (L.emit (pushed (lgs.map fun lg => lg.define.encode))) = some S ∧
      S.defs = lgs.map Logger.redefine := by
  have hseq : pushed (lgs.map fun lg => lg.define.encode) =
      .seq (lgs.map fun lg => lg.define.encode) := by
    obtain ⟨lg, lgs, rfl⟩ := List.exists_cons_of_ne_nil hne
    rfl
  have hitems : (lgs.map fun lg => lg.define.encode).mapM
      (fun item => LogDefine.fromYaml L (L.emit item)) = some (lgs.map Logger.redefine) := by
    rw [mapM_eq_some, List.map_map, List.map_map]
    exact List.map_congr_left fun lg hlg => fromYaml_define (hload lg hlg _ List.mem_cons_self)
  have hparse : parseItems L.api (LogDefine.fromYaml L)
      (L.emit (pushed (lgs.map fun lg => lg.define.encode))) = some (lgs.map Logger.redefine) := by
    rw [hseq] at hall ⊢
    exact (parseItems_of_load (Y := L.api) hall rfl fun _ => rfl).trans hitems
  have hdefs : (lgs.map Logger.redefine).Pairwise fun d oth => d.name < oth.name :=
    List.pairwise_map.mpr hsorted
  refine ⟨_, ?_, foldl_insert (S := ⟨[], .nil⟩) hdefs⟩
  rw [LogDefines.fromYaml, hparse, Option.map_some]

end Text

/-! ### What is done to a logger -/

/-- A call of a method of the logger, or of one of its appenders.  `addAppender` gets an appender that
was just made, with or without a formatter of its own. -/
inductive Call
  | setLevel (level : Level)
  | setFormatter (val : LogFormatter)
  | setPattern (val : String)
  | addAppender (sink : Sink) (level : Level) (own : Option LogFormatter)
  | delAppender (a : AppenderId)
  | clearAppenders
  | appenderSetLevel (a : AppenderId) (level : Level)
  | appenderSetFormatter (a : AppenderId) (formatter : LogFormatter)
  deriving DecidableEq, Repr

/-- A method of an appender of the logger. -/
def Logger.onAppender (lg : Logger) (a : AppenderId) (f : LogAppender → LogAppender) : Logger :=
  { lg with objects := Function.update lg.objects a (f (lg.objects a)) }

def Call.apply (lg : Logger) : Call → Logger
  | .setLevel level => lg.setLevel level
  | .setFormatter val => lg.setFormatter (some val)
  | .setPattern val => lg.setPattern val
  | .addAppender sink level own =>
    lg.attach ((LogAppender.setLevel { sink := sink } level).setFormatter own)
  | .delAppender a => lg.delAppender a
  | .clearAppenders => lg.clearAppenders
  | .appenderSetLevel a level => lg.onAppender a fun ap => ap.setLevel level
  | .appenderSetFormatter a formatter => lg.onAppender a fun ap => ap.setFormatter (some formatter)

/-- The formatters that are given to the logger survive. -/
def Call.Fit : Call → Prop
  | .setFormatter val => val.Fit
  | .setPattern val => val ≠ ""
  | .addAppender _ _ own => ∀ f, own = some f → f.Fit
  | .appenderSetFormatter _ formatter => formatter.Fit
  | _ => True

section Calls

variable {lg lg' : Logger}

/-- Appenders may go. -/
theorem Logger.Fit.sublist (h : lg.Fit) {as : List AppenderId} (has : as.Sublist lg.appenders) :
    Logger.Fit { lg with appenders := as } where
  made a ha := h.made a (has.subset ha)
  formatter := h.formatter
  appenders := by
    intro ap hap
    obtain ⟨a, ha, rfl⟩ := List.mem_map.mp hap
    exact h.appenders _ (List.mem_map_of_mem (has.subset ha))

theorem Logger.Fit.attach (h : lg.Fit) {ap : LogAppender}
    (hap : ∀ f, ap.formatter = some f → ap.hasFormatter = true ∧ f.Fit) : (lg.attach ap).Fit where
  made := made_attach h.made ap
  formatter := h.formatter
  appenders := by
    obtain ⟨f, hf, hfit⟩ := h.formatter
    intro ap' hap'
    rw [view_attach h.made, List.mem_append, List.mem_singleton] at hap'
    rcases hap' with hap' | rfl
    · exact h.appenders ap' hap'
    · unfold Logger.adopt
      cases hown : ap.formatter with
      | none =>
        rw [Option.isNone_none, if_pos rfl, hf]
        exact ⟨rfl, f, rfl, hfit⟩
      | some g =>
        rw [Option.isNone_some, if_neg Bool.false_ne_true]
        exact ⟨(hap g hown).1, g, hown, (hap g hown).2⟩

/-- An attached appender has a formatter of its own and does not follow its logger. -/
theorem Logger.Fit.setFormatter (h : lg.Fit) {f : LogFormatter} (hf : f.Fit) :
    (lg.setFormatter (some f)).Fit where
  made := h.made
  formatter := ⟨f, rfl, hf⟩
  appenders := by
    intro ap hap
    obtain ⟨a, ha, rfl⟩ := List.mem_map.mp hap
    have ha' : a ∈ lg.appenders := ha
    have hold := h.appenders _ (List.mem_map_of_mem ha')
    show LogAppender.Fit (if a ∈ lg.appenders then Logger.follow (some f) (lg.objects a)
      else lg.objects a)
    rw [if_pos ha', Logger.follow, if_pos hold.own]
    exact hold

theorem Logger.Fit.setPattern (h : lg.Fit) {val : String} (hne : val ≠ "") :
    (lg.setPattern val).Fit := by
  unfold Logger.setPattern
  split
  · exact h
  · rename_i herr
    exact h.setFormatter ⟨hne, by simpa using herr⟩

theorem Logger.Fit.onAppender (h : lg.Fit) (a : AppenderId) {f : LogAppender → LogAppender}
    (hf : ∀ ap, ap.Fit → (f ap).Fit) : (lg.onAppender a f).Fit where
  made := h.made
  formatter := h.formatter
  appenders := by
    intro ap hap
    obtain ⟨b, hb, rfl⟩ := List.mem_map.mp hap
    have hold := h.appenders _ (List.mem_map_of_mem hb)
    show LogAppender.Fit (Function.update lg.objects a (f (lg.objects a)) b)
    by_cases hba : b = a
    · subst hba
      rw [Function.update_self]
      exact hf _ hold
    · rw [Function.update_of_ne hba]
      exact hold

theorem Logger.name_setPattern (lg : Logger) (val : String) : (lg.setPattern val).name = lg.name := by
  unfold Logger.setPattern
  split
  · rfl
  · rfl

/-- **A call leaves a logger fit**, and its name alone. -/
theorem Logger.Fit.call (h : lg.Fit) {c : Call} (hc : c.Fit) :
    (c.apply lg).Fit ∧ (c.apply lg).name = lg.name := by
  cases c with
  | setLevel level => exact ⟨⟨h.made, h.formatter, h.appenders⟩, rfl⟩
  | setFormatter val => exact ⟨h.setFormatter hc, rfl⟩
  | setPattern val => exact ⟨h.setPattern hc, lg.name_setPattern val⟩
  | addAppender sink level own =>
    refine ⟨h.attach fun f hf => ?_, rfl⟩
    obtain rfl : own = some f := hf
    exact ⟨rfl, hc f rfl⟩
  | delAppender a => exact ⟨h.sublist List.erase_sublist, rfl⟩
  | clearAppenders => exact ⟨h.sublist (List.nil_sublist _), rfl⟩
  | appenderSetLevel a level =>
    refine ⟨h.onAppender a (f := fun ap => ap.setLevel level) fun ap hap => ?_, rfl⟩
    exact ⟨hap.own, hap.formatter⟩
  | appenderSetFormatter a formatter =>
    refine ⟨h.onAppender a (f := fun ap => ap.setFormatter (some formatter)) fun ap _ => ?_, rfl⟩
    exact ⟨rfl, formatter, rfl, hc⟩

/-- The appender of a definition has no formatter, or a correct one. -/
theorem make_formatter {a : LogAppenderDefine} {sink : Sink} {f : LogFormatter}
    (hf : (a.make sink).formatter = some f) : (a.make sink).hasFormatter = true ∧ f.Fit := by
  unfold LogAppenderDefine.make at hf ⊢
  dsimp only at hf ⊢
  split
  · rename_i hfit
    rw [if_pos hfit] at hf
    cases hf
    exact ⟨rfl, hfit⟩
  · rename_i hfit
    rw [if_neg hfit] at hf
    cases hf

theorem Logger.Fit.addDefined (h : lg.Fit) {d : Bool} {a : LogAppenderDefine}
    (ha : lg.addDefined d a = some lg') : lg'.Fit ∧ lg'.name = lg.name := by
  unfold Logger.addDefined at ha
  split at ha
  · cases ha
    exact ⟨h.attach fun _ => make_formatter, rfl⟩
  · split at ha
    · split at ha
      · cases ha
        exact ⟨h, rfl⟩
      · cases ha
        exact ⟨h.attach fun _ => make_formatter, rfl⟩
    · cases ha

theorem Logger.Fit.addAll (h : lg.Fit) {d : Bool} {as : List LogAppenderDefine}
    (ha : as.foldlM (Logger.addDefined d) lg = some lg') : lg'.Fit ∧ lg'.name = lg.name := by
  induction as generalizing lg with
  | nil =>
    cases ha
    exact ⟨h, rfl⟩
  | cons a as ih =>
    rw [List.foldlM_cons] at ha
    obtain ⟨lg₁, h₁, hrest⟩ := Option.bind_eq_some_iff.mp ha
    obtain ⟨hfit₁, hname₁⟩ := h.addDefined h₁
    obtain ⟨hfit, hname⟩ := ih hfit₁ hrest
    exact ⟨hfit, hname.trans hname₁⟩

/-- So does a definition that is applied to it. -/
theorem Logger.Fit.applyTo (h : lg.Fit) {d : Bool} {i : LogDefine}
    (hi : i.applyTo d lg = some lg') : lg'.Fit ∧ lg'.name = lg.name := by
  have hlevel : (lg.setLevel i.level).Fit := ⟨h.made, h.formatter, h.appenders⟩
  have hclear : ∀ lg₁ : Logger, lg₁.Fit → lg₁.clearAppenders.Fit :=
    fun lg₁ h₁ => h₁.sublist (List.nil_sublist _)
  unfold LogDefine.applyTo at hi
  dsimp only at hi
  split at hi
  · rename_i hne
    obtain ⟨hfit, hname⟩ := (hclear _ (hlevel.setPattern hne)).addAll hi
    exact ⟨hfit, hname.trans (Logger.name_setPattern _ _)⟩
  · exact (hclear _ hlevel).addAll hi

theorem fit_default : defaultFormatter.Fit := ⟨by decide, by decide +kernel⟩

theorem fit_new (name : String) : (Logger.new name).Fit where
  made := Lookups.made_new name
  formatter := ⟨_, rfl, fit_default⟩
  appenders := by
    intro ap hap
    cases hap

theorem Logger.Fit.applyDefaultConfig (h : lg.Fit) : (applyDefaultConfig lg).Fit :=
  (h.attach fun _ hf => by cases hf).attach fun _ hf => by cases hf

end Calls

/-! ### Every process -/

namespace Dump

inductive Label
  | getLogger (name : String)
  /-- a call on the logger of a name -/
  | call (name : String) (c : Call)
  /-- `logs` gets a value, while the process has or has not the option `d` -/
  | assign (d : Bool) (S : LogDefines)

def step (s : State) : Label → Option State
  | .getLogger name => some { s with manager := (s.manager.getLogger name).2 }
  | .call name c =>
    (s.manager.change name fun lg => some (c.apply lg)).map fun m => { s with manager := m }
  | .assign d S => Reload.step d s S

/-- Nobody gives a logger or an appender a formatter that does not survive. -/
def Fit : Label → Prop
  | .call _ c => c.Fit
  | .getLogger _ | .assign _ _ => True

/-- Every logger is fit and has the name it is found under. -/
structure Inv (m : LoggerManager) : Prop where
  separate : Separate m
  loggers : ∀ name lg, get m name = some lg → lg.name = name ∧ lg.Fit
  finite : {name | (m.loggers name).isSome}.Finite
  root : (m.loggers "root").isSome

section Runs

variable {m m' : LoggerManager} {name : String} {s s' : State}

/-- A lookup finds the logger of the name, or makes one. -/
theorem get_getLogger {lg : Logger} (hget : get (m.getLogger name).2 name = some lg) :
    get m name = some lg ∨ lg = { applyDefaultConfig (.new name) with root := some m.root } := by
  unfold LoggerManager.getLogger at hget
  split at hget
  · exact .inl hget
  · unfold Reload.get at hget
    dsimp only at hget
    rw [Function.update_self, Option.bind_some, List.getElem?_concat_length] at hget
    exact .inr (Option.some.inj hget).symm

theorem fit_made (name : String) (root : LoggerId) :
    Logger.Fit { applyDefaultConfig (.new name) with root := some root } := by
  obtain ⟨hmade, hformatter, happenders⟩ := (fit_new name).applyDefaultConfig
  exact ⟨hmade, hformatter, happenders⟩

theorem Inv.getLogger (h : Inv m) (name : String) : Inv (m.getLogger name).2 := by
  obtain ⟨hsep, -, -, hother⟩ := getLogger_spec h.separate name
  refine ⟨hsep, fun n lg hget => ?_, ?_, ?_⟩
  · by_cases hn : n = name
    · subst hn
      rcases get_getLogger hget with hold | rfl
      · exact h.loggers n lg hold
      · exact ⟨rfl, fit_made n m.root⟩
    · rw [hother n hn] at hget
      exact h.loggers n lg hget
  · refine (Set.Finite.insert name h.finite).subset fun n hn => ?_
    by_cases he : n = name
    · exact .inl he
    · refine .inr ?_
      unfold LoggerManager.getLogger at hn
      split at hn
      · exact hn
      · have hn' : (Function.update m.loggers name (some m.objects.length) n).isSome := hn
        rwa [Function.update_of_ne he] at hn'
  · obtain ⟨id, hroot⟩ := Option.isSome_iff_exists.mp h.root
    rw [Lookups.getLogger_keeps hroot]
    rfl

/-- A change that leaves a fit logger fit. -/
def Keeps (f : Logger → Option Logger) : Prop :=
  ∀ lg lg', lg.Fit → f lg = some lg' → lg'.Fit ∧ lg'.name = lg.name

/-- A change is a lookup and an assignment to the object that it found. -/
theorem change_cases {f : Logger → Option Logger} (hm : m.change name f = some m') :
    ∃ lg lg', (m.getLogger name).2.objects[(m.getLogger name).1]? = some lg ∧ f lg = some lg' ∧
      { (m.getLogger name).2 with
        objects := (m.getLogger name).2.objects.set (m.getLogger name).1 lg' } = m' := by
  obtain ⟨lg, hobj, hm⟩ := Option.bind_eq_some_iff.mp hm
  obtain ⟨lg', hlg', hm⟩ := Option.map_eq_some_iff.mp hm
  exact ⟨lg, lg', hobj, hlg', hm⟩

theorem Inv.change (h : Inv m) {f : Logger → Option Logger} (hf : Keeps f)
    (hm : m.change name f = some m') : Inv m' := by
  have hI := h.getLogger name
  have hid := Lookups.getLogger_answer m name
  obtain ⟨lg, lg', hobj, hlg', hm'⟩ := change_cases hm
  obtain ⟨hsep, hself, hother⟩ := set_spec hI.separate hid lg'
  rw [hm'] at hsep hself hother
  have hget : get (m.getLogger name).2 name = some lg := by
    rw [Reload.get, hid]
    exact hobj
  obtain ⟨hname, hfit⟩ := hI.loggers name lg hget
  obtain ⟨hfit', hname'⟩ := hf lg lg' hfit hlg'
  have hloggers : m'.loggers = (m.getLogger name).2.loggers := by rw [← hm']
  refine ⟨hsep, fun n lg₁ hn => ?_, hloggers ▸ hI.finite, hloggers ▸ hI.root⟩
  by_cases he : n = name
  · subst he
    rw [hself] at hn
    cases hn
    exact ⟨hname'.trans hname, hfit'⟩
  · rw [hother n he] at hn
    exact hI.loggers n lg₁ hn

theorem Inv.changeAll (h : Inv m) {act : LogDefine → Option (Logger → Option Logger)}
    (hact : ∀ i f, act i = some f → Keeps f) {defs : List LogDefine}
    (hm : m.changeAll act defs = some m') : Inv m' := by
  induction defs generalizing m with
  | nil =>
    cases hm
    exact h
  | cons i defs ih =>
    rw [LoggerManager.changeAll, List.foldlM_cons] at hm
    obtain ⟨m₁, h₁, hrest⟩ := Option.bind_eq_some_iff.mp hm
    refine ih ?_ hrest
    split at h₁
    · rename_i f hf
      exact h.change (hact i f hf) h₁
    · cases h₁
      exact h

theorem keeps_changed {d : Bool} {old : LogDefines} {i : LogDefine} {f : Logger → Option Logger}
    (h : changed d old i = some f) : Keeps f := by
  have happly : Keeps (i.applyTo d) := fun lg lg' hfit hi => hfit.applyTo hi
  unfold changed at h
  split at h
  · cases h
    exact happly
  · split at h
    · cases h
    · cases h
      exact happly

theorem keeps_removed {new : LogDefines} {i : LogDefine} {f : Logger → Option Logger}
    (h : removed new i = some f) : Keeps f := by
  unfold removed at h
  split at h
  · cases h
    intro lg lg' hfit hlg'
    cases hlg'
    have hlevel : (lg.setLevel .unknow).Fit := ⟨hfit.made, hfit.formatter, hfit.appenders⟩
    exact ⟨hlevel.sublist (List.nil_sublist _), rfl⟩
  · cases h

theorem Inv.onChange (h : Inv m) {d : Bool} {old new : LogDefines}
    (hm : m.onChange d old new = some m') : Inv m' := by
  obtain ⟨m₁, h₁, h₂⟩ := Option.bind_eq_some_iff.mp hm
  exact (h.changeAll (fun _ _ => keeps_changed) h₁).changeAll (fun _ _ => keeps_removed) h₂

theorem Inv.step {l : Label} (h : Inv s.manager) (hl : Fit l) (hs : step s l = some s') :
    Inv s'.manager := by
  cases l with
  | getLogger name =>
    cases hs
    exact h.getLogger name
  | call name c =>
    obtain ⟨m, hm, rfl⟩ := Option.map_eq_some_iff.mp hs
    refine h.change (fun lg lg' hfit hlg' => ?_) hm
    cases hlg'
    exact hfit.call hl
  | assign d S =>
    unfold Dump.step Reload.step at hs
    dsimp only at hs
    split at hs
    · cases hs
      exact h
    · obtain ⟨m, hm, rfl⟩ := Option.map_eq_some_iff.mp hs
      exact h.onChange hm

theorem inv_init : Inv State.init.manager := by
  refine ⟨(Reload.inv_init (d := false)).separate, fun name lg hget => ?_, ?_, ?_⟩
  · obtain ⟨id, hid, hobj⟩ := Option.bind_eq_some_iff.mp hget
    have hname : name = "root" := by
      by_contra hne
      rw [show State.init.manager.loggers name = _ from Lookups.new_loggers name, if_neg hne] at hid
      cases hid
    subst hname
    obtain rfl : 0 = id := Option.some.inj hid
    cases hobj
    exact ⟨rfl, (fit_new "root").applyDefaultConfig.applyDefaultConfig⟩
  · refine (Set.finite_singleton "root").subset fun name hname => ?_
    by_contra hne
    have hne : name ≠ "root" := hne
    have hname' : (State.init.manager.loggers name).isSome := hname
    rw [show State.init.manager.loggers name = _ from Lookups.new_loggers name, if_neg hne] at hname'
    cases hname'
  · rfl

theorem Inv.reach (h : Reach Dump.step (fun _ l => Fit l) State.init s) : Inv s.manager :=
  h.invariant (I := fun s => Inv s.manager) inv_init fun hI hl hs => hI.step hl hs

/-- The keys of the map, in their order. -/
theorem Inv.exists_keys (h : Inv m) : ∃ names, Keys m names :=
  ⟨h.finite.toFinset.sort (· ≤ ·), Finset.sortedLT_sort _ |>.pairwise, fun name => by
    rw [Finset.mem_sort, Set.Finite.mem_toFinset]
    rfl⟩

/-- The loggers under the keys. -/
theorem Inv.exists_loggers (h : Inv m) {names : List String}
    (hnames : ∀ name ∈ names, (m.loggers name).isSome) :
    ∃ lgs : List Logger, names.map (get m) = lgs.map some ∧ lgs.map Logger.name = names ∧ ∀ lg ∈ lgs, lg.Fit := by
  induction names with
  | nil => exact ⟨[], rfl, rfl, fun lg hlg => absurd hlg List.not_mem_nil⟩
  | cons name names ih =>
    obtain ⟨lgs, hget, hname, hfit⟩ := ih fun n hn => hnames n (List.mem_cons_of_mem name hn)
    obtain ⟨lg, hlg⟩ : ∃ lg, get m name = some lg := by
      rw [← Option.ne_none_iff_exists', ne_eq, get_eq_none h.separate]
      exact Option.isSome_iff_ne_none.mp (hnames name List.mem_cons_self)
    obtain ⟨hlgname, hlgfit⟩ := h.loggers name lg hlg
    refine ⟨lg :: lgs, ?_, ?_, ?_⟩
    · rw [List.map_cons, List.map_cons, hget, hlg]
    · rw [List.map_cons, hname, hlgname]
    · exact List.forall_mem_cons.mpr ⟨hlgfit, hfit⟩

end Runs

/-! ### Loading the dump in a fresh process -/

/-- What is seen of a logger, but for the levels of its appenders. -/
def unleveled (seen : Shown) : Shown :=
  { seen with appenders := seen.appenders.map fun ap => (ap.1, .unknow, ap.2.2) }

section Load

variable {lg : Logger} {S : LogDefines}

/-- The definition of an appender makes one with the same sink and formatter. -/
theorem appenderOf_define {ap : LogAppender} (h : ap.Fit) (fmt : Option LogFormatter) :
    ∃ made, appenderOf false fmt ap.define.unleveled = some made ∧
      facts made = (ap.sink, .unknow, ap.formatter) := by
  obtain ⟨f, hf, hfit⟩ := h.formatter
  have hmake : ∀ (a : LogAppenderDefine) (sink : Sink), a.formatter = f.pattern → a.level = .unknow →
      facts (Logger.adopt fmt (a.make sink)) = (sink, .unknow, ap.formatter) := by
    intro a sink ha hlevel
    have hmade : a.make sink = (LogAppender.setLevel { sink := sink } a.level).setFormatter (some f) := by
      unfold LogAppenderDefine.make
      rw [ha]
      exact if_pos hfit
    rw [hmade, hlevel, hf]
    rfl
  have hpattern : patternOf ap.formatter = f.pattern := by
    rw [hf]
    rfl
  cases hsink : ap.sink with
  | stdout =>
    refine ⟨Logger.adopt fmt (ap.define.unleveled.make .stdout), ?_, ?_⟩
    · rw [LogAppender.define, hsink]
      rfl
    · refine hmake _ _ ?_ rfl
      rw [LogAppender.define, hsink]
      exact hpattern
  | file filename =>
    refine ⟨Logger.adopt fmt (ap.define.unleveled.make (.file filename)), ?_, ?_⟩
    · rw [LogAppender.define, hsink]
      rfl
    · refine hmake _ _ ?_ rfl
      rw [LogAppender.define, hsink]
      exact hpattern

theorem filterMap_define (fmt : Option LogFormatter) {aps : List LogAppender} (h : ∀ ap ∈ aps, ap.Fit) :
    ((aps.map fun ap => ap.define.unleveled).filterMap (appenderOf false fmt)).map facts =
      aps.map fun ap => (ap.sink, .unknow, ap.formatter) := by
  induction aps with
  | nil => rfl
  | cons ap aps ih =>
    obtain ⟨made, hmade, hfacts⟩ := appenderOf_define (h ap List.mem_cons_self) fmt
    rw [List.map_cons, List.filterMap_cons, hmade, List.map_cons, hfacts, List.map_cons,
      ih fun ap' hap' => h ap' (List.mem_cons_of_mem ap hap')]

/-- **A definition that was read from the dump asks for what was dumped.** -/
theorem asked_redefine (h : lg.Fit) :
    asked false (some defaultFormatter) lg.redefine = unleveled (shown lg) := by
  obtain ⟨f, hf, hne, -⟩ := h.formatter
  have hpattern : lg.redefine.formatter = f.pattern := by
    show patternOf lg.formatter = _
    rw [hf]
    rfl
  have hformatter : formatterOf (some defaultFormatter) lg.redefine = lg.formatter := by
    rw [formatterOf, hpattern, if_pos hne, hf]
  have hdefs : lg.redefine.appenders = lg.view.map fun ap => ap.define.unleveled := by
    show (lg.view.map LogAppender.define).map LogAppenderDefine.unleveled = _
    rw [List.map_map]
    rfl
  rw [asked, hformatter, hdefs, filterMap_define lg.formatter h.appenders, unleveled, shown,
    List.map_map]
  rfl

theorem valid_redefine (h : lg.Fit) : (LogFormatter.mk lg.redefine.formatter).isError = false ∧
    ∀ a ∈ lg.redefine.appenders, a.type = 1 ∨ a.type = 2 := by
  obtain ⟨f, hf, -, herr⟩ := h.formatter
  refine ⟨?_, fun a ha => ?_⟩
  · show (LogFormatter.mk (patternOf lg.formatter)).isError = false
    rw [hf]
    exact herr
  · obtain ⟨b, hb, rfl⟩ := List.mem_map.mp ha
    obtain ⟨ap, -, rfl⟩ := List.mem_map.mp hb
    exact (types_define ap).imp_right And.left

/-- **The first assignment** gives every defined logger what the definition asks for, and makes no
other. -/
theorem first_assignment (hne : S.defs ≠ [])
    (hvalid : ∀ i ∈ S.defs, (LogFormatter.mk i.formatter).isError = false ∧
      ∀ a ∈ i.appenders, a.type = 1 ∨ a.type = 2) :
    ∃ fresh, Reload.step false State.init S = some fresh ∧
      (∀ i ∈ S.defs, (get fresh.manager i.name).map shown =
        some (asked false (some defaultFormatter) i)) ∧
      ∀ name, (∀ i ∈ S.defs, i.name ≠ name) →
        get fresh.manager name = get State.init.manager name := by
  have hchanged : ∀ i, changed false State.init.logs i = some (i.applyTo false) := fun _ => rfl
  have happly : ∀ i ∈ S.defs, ∀ f, changed false State.init.logs i = some f →
      ∀ lg, ∃ lg', f lg = some lg' := by
    intro i hi f hf lg
    obtain rfl : i.applyTo false = f := Option.some.inj hf
    obtain ⟨lg', hlg', -⟩ := applyTo_spec false (hvalid i hi).1 (hvalid i hi).2 lg
    exact ⟨lg', hlg'⟩
  obtain ⟨m, hm, -, hdone, hsame⟩ :=
    changeAll_spec (Reload.inv_init (d := false)).separate (names_ne S) happly
  have hnew : (S.defs == State.init.logs.defs) = false := by
    obtain ⟨i, defs, he⟩ := List.exists_cons_of_ne_nil hne
    rw [he]
    rfl
  refine ⟨⟨m, S, S.defs.map LogDefine.name ++ []⟩, ?_, fun i hi => ?_, fun name hname => ?_⟩
  · have hon : State.init.manager.onChange false State.init.logs S = some m := by
      rw [LoggerManager.onChange, hm]
      rfl
    unfold Reload.step
    dsimp only
    rw [hnew, if_neg Bool.false_ne_true, hon]
    rfl
  · obtain ⟨lg, lg', hbase, hlg', hget⟩ := hdone i hi _ (hchanged i)
    obtain ⟨lg₁, hlg₁, hshown⟩ := applyTo_spec false (hvalid i hi).1 (hvalid i hi).2 lg
    obtain rfl : lg₁ = lg' := Option.some.inj (hlg₁.symm.trans hlg')
    have hdefault : lg.formatter = some defaultFormatter := by
      rcases hbase with hold | ⟨-, hnew⟩
      · exact get_init hold
      · exact hnew
    rw [hget, Option.map_some, hshown, hdefault]
  · exact hsame name fun i hi he => absurd he (hname i hi)

end Load

/-- A process has finitely many loggers. -/
theorem exists_keys {s : State} (h : Reach step (fun _ l => Fit l) State.init s) :
    ∃ names, Keys s.manager names := (Inv.reach h).exists_keys

/-- **The dump restores the loggers.**  After any sequence of lookups, of calls on the loggers and of
assignments to `logs`, the dump is the text of a value of `logs` which, assigned in a fresh process,
gives every logger what it had, but for the levels of the appenders, and makes no other loggers.
`L.load` has to read back what is dumped. -/
theorem dump_restores {s : State} (h : Reach step (fun _ l => Fit l) State.init s)
    {names : List String} (hkeys : Keys s.manager names) {L : Library}
    (hload : ∀ node ∈ s.manager.nodes names, L.load (L.emit node) = some node) :
    ∃ text S fresh, s.manager.toYamlString L names = some text ∧
      LogDefines.fromYaml L text = some S ∧ Reload.step false State.init S = some fresh ∧
      ∀ name, (get fresh.manager name).map shown =
        (get s.manager name).map fun lg => unleveled (shown lg) := by
  have hI := Inv.reach h
  obtain ⟨lgs, hget, hname, hfit⟩ := hI.exists_loggers fun name hn => (hkeys.mem_iff name).mp hn
  have hroot : "root" ∈ names := (hkeys.mem_iff "root").mpr hI.root
  have hne : lgs ≠ [] := by
    rintro rfl
    rw [← hname] at hroot
    exact List.not_mem_nil hroot
  have hnodes : s.manager.nodes names =
      pushed (lgs.map fun lg => lg.define.encode) :: lgs.flatMap Logger.nodes := by
    rw [LoggerManager.nodes, filterMap_get hget]
  rw [hnodes] at hload
  have hload' : ∀ lg ∈ lgs, ∀ node ∈ lg.nodes, L.load (L.emit node) = some node :=
    fun lg hlg node hnode => hload node (.tail _ (List.mem_flatMap.mpr ⟨lg, hlg, hnode⟩))
  have hsorted : lgs.Pairwise fun lg oth => lg.name < oth.name :=
    List.pairwise_map.mp (hname ▸ hkeys.sorted)
  obtain ⟨S, hS, hdefs⟩ := fromYaml_dump hsorted hne hload' (hload _ List.mem_cons_self)
  have hSne : S.defs ≠ [] := by
    rw [hdefs, ne_eq, List.map_eq_nil_iff]
    exact hne
  have hvalid : ∀ i ∈ S.defs, (LogFormatter.mk i.formatter).isError = false ∧
      ∀ a ∈ i.appenders, a.type = 1 ∨ a.type = 2 := by
    intro i hi
    rw [hdefs] at hi
    obtain ⟨lg, hlg, rfl⟩ := List.mem_map.mp hi
    exact valid_redefine (hfit lg hlg)
  obtain ⟨fresh, hfresh, hdone, hsame⟩ := first_assignment hSne hvalid
  refine ⟨_, S, fresh, dump_eq hget hfit hload', hS, hfresh, fun name => ?_⟩
  by_cases hn : name ∈ names
  · -- a logger of the dump
    rw [← hname] at hn
    obtain ⟨lg, hlg, rfl⟩ := List.mem_map.mp hn
    have hhere : get s.manager lg.name = some lg := by
      have hmem : some lg ∈ names.map (get s.manager) := hget ▸ List.mem_map_of_mem hlg
      obtain ⟨n, -, hn⟩ := List.mem_map.mp hmem
      rw [(hI.loggers n lg hn).1, hn]
    have hi := hdone lg.redefine (hdefs ▸ List.mem_map_of_mem hlg)
    rw [asked_redefine (hfit lg hlg)] at hi
    rw [hhere]
    exact hi
  · have hnone : get s.manager name = none := by
      rw [get_eq_none hI.separate]
      simpa [hkeys.mem_iff] using hn
    have hne : name ≠ "root" := fun he => hn (he ▸ hroot)
    have hother : ∀ i ∈ S.defs, i.name ≠ name := by
      intro i hi he
      rw [hdefs] at hi
      obtain ⟨lg, hlg, rfl⟩ := List.mem_map.mp hi
      exact hn (he ▸ hname ▸ List.mem_map_of_mem hlg)
    rw [hsame name hother, hnone]
    have hinit : get State.init.manager name = none := by
      rw [get_eq_none (Reload.inv_init (d := false)).separate,
        show State.init.manager.loggers name = _ from Lookups.new_loggers name, if_neg hne]
    rw [hinit]
    rfl

/-! ### The root logger with one file -/

/-- Its formatters are short, and its appender has a level. -/
def rootToFile : List Label :=
  [.call "root" .clearAppenders, .call "root" (.setLevel .warn),
    .call "root" (.setFormatter ⟨"%m%n"⟩),
    .call "root" (.addAppender (.file "a.txt") .error (some ⟨"%p%n"⟩))]

def appenderNode : Node :=
  .map [(.scalar "type", .scalar "FileLogAppender"), (.scalar "file", .scalar "a.txt"),
    (.scalar "level", .scalar "ERROR"), (.scalar "formatter", .scalar "%p%n")]

def rootNode : Node :=
  .map [(.scalar "name", .scalar "root"), (.scalar "level", .scalar "WARN"),
    (.scalar "formatter", .scalar "%m%n"), (.scalar "appenders", .seq [appenderNode])]

def appenderText : String := "type: FileLogAppender\nfile: a.txt\nlevel: ERROR\nformatter: \"%p%n\""

def rootText : String :=
  "name: root\nlevel: WARN\nformatter: \"%m%n\"\nappenders:\n  - type: FileLogAppender\n    " ++
    "file: a.txt\n    level: ERROR\n    formatter: \"%p%n\""

def dumpText : String :=
  "- name: root\n  level: WARN\n  formatter: \"%m%n\"\n  appenders:\n    - type: FileLogAppender" ++
    "\n      file: a.txt\n      level: ERROR\n      formatter: \"%p%n\""

/-- yaml-cpp on these documents. -/
def rootLibrary : Library where
  load v :=
    if v = appenderText then some appenderNode
    else if v = rootText then some rootNode
    else if v = dumpText then some (.seq [rootNode])
    else none
  emit
    | .seq _ => dumpText
    | .map ((.scalar "name", _) :: _) => rootText
    | _ => appenderText
  find _ _ := none

theorem rootLibrary_load : rootLibrary.load dumpText = some (.seq [rootNode]) ∧
    rootLibrary.load rootText = some rootNode ∧
    rootLibrary.load appenderText = some appenderNode := by
  have hdump : dumpText ≠ appenderText := by decide +kernel
  have hdump' : dumpText ≠ rootText := by decide +kernel
  have hroot : rootText ≠ appenderText := by decide +kernel
  unfold rootLibrary
  dsimp only
  rw [if_neg hdump, if_neg hdump', if_pos rfl, if_neg hroot, if_pos rfl, if_pos rfl]
  exact ⟨rfl, rfl, rfl⟩

example : ∃ s text S fresh, runs step State.init rootToFile = some s ∧
    s.manager.toYamlString rootLibrary ["root"] = some text ∧
      LogDefines.fromYaml rootLibrary text = some S ∧ Reload.step false State.init S = some fresh ∧
      (get fresh.manager "root").map shown =
        some ⟨.warn, some ⟨"%m%n"⟩, [(.file "a.txt", .unknow, some ⟨"%p%n"⟩)]⟩ := by
  have hfit : ∀ l ∈ rootToFile, Fit l := by
    have hm : (LogFormatter.mk "%m%n").Fit := ⟨by decide, by decide +kernel⟩
    have hp : (LogFormatter.mk "%p%n").Fit := ⟨by decide, by decide +kernel⟩
    intro l hl
    simp only [rootToFile, List.mem_cons, List.not_mem_nil, or_false] at hl
    rcases hl with rfl | rfl | rfl | rfl
    · trivial
    · trivial
    · exact hm
    · intro f hf
      cases hf
      exact hp
  obtain ⟨s, hs, hloggers, hnodes, hroot⟩ : ∃ s, runs step State.init rootToFile = some s ∧
      s.manager.loggers = State.init.manager.loggers ∧
      s.manager.nodes ["root"] = [.seq [rootNode], rootNode, appenderNode] ∧
      (get s.manager "root").map shown =
        some ⟨.warn, some ⟨"%m%n"⟩, [(.file "a.txt", .error, some ⟨"%p%n"⟩)]⟩ :=
    ⟨_, rfl, rfl, rfl, rfl⟩
  have hkeys : Keys s.manager ["root"] := by
    refine ⟨List.pairwise_singleton _ _, fun name => ?_⟩
    rw [hloggers, show State.init.manager.loggers name = _ from Lookups.new_loggers name,
      List.mem_singleton]
    split <;> simp_all
  have hload : ∀ node ∈ s.manager.nodes ["root"],
      rootLibrary.load (rootLibrary.emit node) = some node := by
    rw [hnodes]
    intro node hnode
    simp only [List.mem_cons, List.not_mem_nil, or_false] at hnode
    rcases hnode with rfl | rfl | rfl
    · exact rootLibrary_load.1
    · exact rootLibrary_load.2.1
    · exact rootLibrary_load.2.2
  obtain ⟨text, S, fresh, htext, hS, hfresh, hall⟩ :=
    dump_restores (.of_runs .refl hfit hs) hkeys hload
  refine ⟨s, text, S, fresh, hs, htext, hS, hfresh, ?_⟩
  have hseen : (get s.manager "root").map (fun lg => unleveled (shown lg)) =
      ((get s.manager "root").map shown).map unleveled := by
    rw [Option.map_map]
    rfl
  rw [hall "root", hseen, hroot]
  rfl

end Dump

end LioNet.Log
