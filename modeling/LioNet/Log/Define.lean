import LioNet.Config.ScalarPath
import LioNet.Log.Reload

/-!
# Logger definitions as YAML text

The conversions between `LogDefine` and YAML text in `log.cc`.  The encoder leaves out the fields that
have their default value, and the decoder gives a missing field its default.  The decoder never looks
at the `level` of an appender, though the encoder writes it.

`none` stands for an exception, and in `decodeAppender` for an appender that is passed over.
-/

namespace LioNet.Log

open LioNet.Yaml LioNet.Config

/-! ### Levels -/

/-- `LogLevel::ToString`. -/
def Level.toString : Level → String
  | .debug => "DEBUG"
  | .info => "INFO"
  | .warn => "WARN"
  | .error => "ERROR"
  | .fatal => "FATAL"
  | .unknow => "UNKNOW"

/-- `LogLevel::FromString`. -/
def Level.fromString (str : String) : Level :=
  if str = "debug" then .debug
  else if str = "info" then .info
  else if str = "warn" then .warn
  else if str = "error" then .error
  else if str = "fatal" then .fatal
  else if str = "DEBUG" then .debug
  else if str = "INFO" then .info
  else if str = "WARN" then .warn
  else if str = "ERROR" then .error
  else if str = "FATAL" then .fatal
  else .unknow

theorem Level.fromString_toString (level : Level) : fromString level.toString = level := by
  cases level <;> decide

/-! ### Nodes -/

/-- A fresh node after `node[key] = value` for each of these entries, whose keys differ. -/
def built : List (String × Node) → Node
  | [] => .null
  | entries => .map (entries.map fun e => (.scalar e.1, e.2))

def isKey (key : String) : Node → Bool
  | .scalar text => text == key
  | .null | .seq _ | .map _ => false

/-- `node[key]`, if it is defined.  On a scalar it throws. -/
def sub (node : Node) (key : String) : Option (Option Node) :=
  match node with
  | .map members => some ((members.find? fun m => isKey key m.1).map Prod.snd)
  | .null | .seq _ => some none
  | .scalar _ => none

/-- `as<std::string>`. -/
def asStdString : Node → Option String
  | .scalar text => some text
  | .null => some "null"
  | .seq _ | .map _ => none

/-- A string field that may be missing. -/
def optString (node : Node) (key : String) : Option String := do
  match ← sub node key with
  | some value => asStdString value
  | none => some ""

/-! ### The encoder -/

/-- `if (c) { n[key] = value; }`. -/
def field (c : Prop) [Decidable c] (key : String) (value : Node) : List (String × Node) :=
  if c then [(key, value)] else []

def LogAppenderDefine.encode (a : LogAppenderDefine) : Node :=
  built
    ((if a.type = 1 then [("type", .scalar "FileLogAppender"), ("file", .scalar a.file)]
      else if a.type = 2 then [("type", .scalar "StdoutLogAppender")]
      else []) ++
    field (a.level ≠ .unknow) "level" (.scalar a.level.toString) ++
    field (a.formatter ≠ "") "formatter" (.scalar a.formatter))

def LogDefine.encode (i : LogDefine) : Node :=
  built
    ([("name", .scalar i.name)] ++
    field (i.level ≠ .unknow) "level" (.scalar i.level.toString) ++
    field (i.formatter ≠ "") "formatter" (.scalar i.formatter) ++
    field (i.appenders ≠ []) "appenders" (.seq (i.appenders.map LogAppenderDefine.encode)))

/-- `LexicalCast<LogDefine, std::string>`. -/
def LogDefine.toYaml (L : Library) (i : LogDefine) : String := L.emit i.encode

/-! ### The decoder -/

/-- One turn of the loop over the appenders. -/
def decodeAppender (a : Node) : Option (Option LogAppenderDefine) := do
  match ← sub a "type" with
  | none => some none
  | some type =>
    let type ← asStdString type
    if type = "FileLogAppender" then
      match ← sub a "file" with
      | none => some none
      | some file =>
        let file ← asStdString file
        let formatter ← optString a "formatter"
        some (some { type := 1, level := .unknow, formatter := formatter, file := file })
    else if type = "StdoutLogAppender" then
      let formatter ← optString a "formatter"
      some (some { type := 2, level := .unknow, formatter := formatter, file := "" })
    else some none

/-- The loop. -/
def decodeAppenders (L : Library) (node : Node) : Option (List LogAppenderDefine) :=
  ((List.range (L.api.size node)).mapM fun x =>
    decodeAppender ((L.api.nth node x).getD Node.null)).map List.reduceOption

/-- `LexicalCast<std::string, LogDefine>`. -/
def LogDefine.fromYaml (L : Library) (v : String) : Option LogDefine := do
  let node ← L.load v
  let name ← (← sub node "name").bind asStdString
  let level ← optString node "level"
  let formatter ← optString node "formatter"
  let appenders ←
    match ← sub node "appenders" with
    | some as => decodeAppenders L as
    | none => some []
  some { name := name, level := .fromString level, formatter := formatter, appenders := appenders }

section RoundTrip

variable {L : Library} {a : LogAppenderDefine} {i : LogDefine}

/-- A key of a node that was built. -/
theorem sub_built (entries : List (String × Node)) (key : String) :
    sub (built entries) key = some (entries.lookup key) := by
  have hfind : ∀ es : List (String × Node),
      ((es.map fun e => (Node.scalar e.1, e.2)).find? fun m => isKey key m.1).map Prod.snd =
        es.lookup key := by
    intro es
    induction es with
    | nil => rfl
    | cons e es ih =>
      obtain ⟨k, node⟩ := e
      rw [List.map_cons, List.lookup_cons]
      by_cases hk : k = key
      · simp [isKey, hk]
      · have hk' : (key == k) = false := by simpa using Ne.symm hk
        have hkey : isKey key (.scalar k) = false := beq_false_of_ne hk
        simp only [List.find?_cons, hkey, hk', ih]
  cases entries with
  | nil => rfl
  | cons e es => exact congrArg some (hfind (e :: es))

/-- A field that is left out when it is empty reads as it was. -/
theorem optString_field {node : Node} {key value : String}
    (h : sub node key = some (if value ≠ "" then some (.scalar value) else none)) :
    optString node key = some value := by
  unfold optString
  rw [h]
  by_cases hv : value = ""
  · rw [if_neg (not_not.mpr hv), hv]
    rfl
  · rw [if_pos hv]
    rfl

theorem lookup_field (c : Prop) [Decidable c] (key key' : String) (value : Node) :
    (field c key' value).lookup key = if c ∧ key = key' then some value else none := by
  unfold field
  by_cases hk : key = key'
  · by_cases hc : c <;> simp [hk, hc]
  · have hkey : (key == key') = false := beq_false_of_ne hk
    by_cases hc : c <;> simp [hk, hc, hkey, List.lookup_cons]

/-- What the decoder keeps of an appender. -/
def LogAppenderDefine.unleveled (a : LogAppenderDefine) : LogAppenderDefine :=
  { a with level := .unknow }

/-- **An appender comes back without its level.** -/
theorem decodeAppender_encode (h : a.type = 1 ∨ (a.type = 2 ∧ a.file = "")) :
    decodeAppender a.encode = some (some a.unleveled) := by
  have hformatter : optString a.encode "formatter" = some a.formatter := by
    apply optString_field
    rw [LogAppenderDefine.encode, sub_built]
    rcases h with h | ⟨h, -⟩ <;> simp [h, List.lookup_append, lookup_field, List.lookup_cons]
  rcases h with h | ⟨h, hfile⟩
  · have htype : sub a.encode "type" = some (some (.scalar "FileLogAppender")) := by
      rw [LogAppenderDefine.encode, sub_built]
      simp [h]
    have hfile : sub a.encode "file" = some (some (.scalar a.file)) := by
      rw [LogAppenderDefine.encode, sub_built]
      simp [h, List.lookup_cons]
    simp [decodeAppender, htype, hfile, hformatter, asStdString, ← h, LogAppenderDefine.unleveled]
  · have htype : sub a.encode "type" = some (some (.scalar "StdoutLogAppender")) := by
      rw [LogAppenderDefine.encode, sub_built]
      simp [h]
    simp [decodeAppender, htype, hformatter, asStdString, ← h, ← hfile, LogAppenderDefine.unleveled]

theorem decodeAppenders_encode {appenders : List LogAppenderDefine}
    (h : ∀ a ∈ appenders, a.type = 1 ∨ (a.type = 2 ∧ a.file = "")) :
    decodeAppenders L (.seq (appenders.map LogAppenderDefine.encode)) =
      some (appenders.map LogAppenderDefine.unleveled) := by
  have hloop : ((List.range (appenders.map LogAppenderDefine.encode).length).mapM fun x =>
      decodeAppender (((appenders.map LogAppenderDefine.encode)[x]?).getD .null)) =
      some (appenders.map fun a => some a.unleveled) := by
    rw [LexicalCast.mapM_eq_some]
    apply List.ext_getElem
    · simp
    · intro x h1 h2
      have hx : x < appenders.length := by simpa using h2
      have ha := decodeAppender_encode (h appenders[x] (List.getElem_mem hx))
      simpa [hx] using ha
  have hkeep : (appenders.map fun a => some a.unleveled).reduceOption =
      appenders.map LogAppenderDefine.unleveled := by
    show (appenders.map fun a => some a.unleveled).filterMap id = _
    rw [List.filterMap_map]
    exact congrFun (List.filterMap_eq_map (f := LogAppenderDefine.unleveled)) appenders
  rw [decodeAppenders]
  exact (congrArg (Option.map List.reduceOption) hloop).trans (congrArg some hkeep)

theorem decode_level : (do
    let level ← optString i.encode "level"
    some (Level.fromString level)) = some i.level := by
  have hsub : sub i.encode "level" =
      some (if i.level = .unknow then none else some (.scalar i.level.toString)) := by
    rw [LogDefine.encode, sub_built]
    simp [List.lookup_append, lookup_field, List.lookup_cons]
  rw [optString, hsub]
  by_cases hl : i.level = .unknow
  · rw [hl]
    rfl
  · rw [if_neg hl]
    exact congrArg some (Level.fromString_toString i.level)

/-- **A definition comes back without the levels of its appenders.** -/
theorem fromYaml_toYaml (h : ∀ a ∈ i.appenders, a.type = 1 ∨ (a.type = 2 ∧ a.file = ""))
    (hload : L.load (L.emit i.encode) = some i.encode) :
    LogDefine.fromYaml L (i.toYaml L) =
      some { i with appenders := i.appenders.map LogAppenderDefine.unleveled } := by
  have hname : sub i.encode "name" = some (some (.scalar i.name)) := by
    rw [LogDefine.encode, sub_built]
    simp
  obtain ⟨level, hlevel, hback⟩ := Option.bind_eq_some_iff.mp (decode_level (i := i))
  have hformatter : optString i.encode "formatter" = some i.formatter := by
    apply optString_field
    rw [LogDefine.encode, sub_built]
    simp [List.lookup_append, lookup_field, List.lookup_cons]
  have happenders : sub i.encode "appenders" = some (if i.appenders = [] then none else
      some (.seq (i.appenders.map LogAppenderDefine.encode))) := by
    rw [LogDefine.encode, sub_built]
    simp [List.lookup_append, lookup_field, List.lookup_cons]
  rw [LogDefine.toYaml, LogDefine.fromYaml, hload]
  by_cases ha : i.appenders = []
  · simp [hname, hlevel, hformatter, happenders, ha, asStdString, Option.some.inj hback]
  · simp [hname, hlevel, hformatter, happenders, ha, asStdString, Option.some.inj hback,
      decodeAppenders_encode h]

/-- **A definition comes back as it was exactly when no appender has a level.** -/
theorem fromYaml_toYaml_iff (L : Library) (i : LogDefine)
    (h : ∀ a ∈ i.appenders, a.type = 1 ∨ (a.type = 2 ∧ a.file = ""))
    (hload : L.load (L.emit i.encode) = some i.encode) :
    LogDefine.fromYaml L (i.toYaml L) = some i ↔ ∀ a ∈ i.appenders, a.level = .unknow := by
  rw [fromYaml_toYaml h hload]
  have hsame : some { i with appenders := i.appenders.map LogAppenderDefine.unleveled } = some i ↔
      i.appenders.map LogAppenderDefine.unleveled = i.appenders := by
    obtain ⟨name, level, formatter, appenders⟩ := i
    simp
  rw [hsame]
  nth_rewrite 2 [← List.map_id i.appenders]
  rw [List.map_inj_left]
  refine forall₂_congr fun a _ => ?_
  constructor
  · intro ha
    exact (congrArg LogAppenderDefine.level ha).symm
  · intro ha
    rw [LogAppenderDefine.unleveled, ← ha]
    rfl

end RoundTrip

/-! ### An appender without a level, and one with a level -/

/-- A YAML library that knows one document. -/
def only (node : Node) (text : String) : Library where
  load v := if v = text then some node else none
  emit _ := text
  find _ _ := none

/-- A logger that writes to standard output. -/
def toStdout (level : Level) : LogDefine :=
  { name := "system", level := .info, formatter := "",
    appenders := [{ type := 2, level := level, formatter := "", file := "" }] }

theorem toStdout_appenders (level : Level) :
    ∀ a ∈ (toStdout level).appenders, a.type = 1 ∨ (a.type = 2 ∧ a.file = "") := by
  intro a ha
  rw [List.mem_singleton.mp ha]
  exact .inr ⟨rfl, rfl⟩

/-- yaml-cpp on this definition, without and with a level of the appender. -/
def library (level : Level) : Library :=
  only (toStdout level).encode
    ("name: system\nlevel: INFO\nappenders:\n  - type: StdoutLogAppender" ++
      if level = .unknow then "" else "\n    level: " ++ level.toString)

theorem library_load (level : Level) : (library level).load
    ((library level).emit (toStdout level).encode) = some (toStdout level).encode := if_pos rfl

theorem fromYaml_toYaml_unknow :
    LogDefine.fromYaml (library .unknow) ((toStdout .unknow).toYaml (library .unknow)) =
      some (toStdout .unknow) := by
  refine (fromYaml_toYaml_iff _ _ (toStdout_appenders .unknow) (library_load _)).mpr ?_
  intro a ha
  rw [List.mem_singleton.mp ha]

/-- The level of the appender is lost. -/
theorem not_fromYaml_toYaml :
    ¬∀ (L : Library) (i : LogDefine), (∀ a ∈ i.appenders, a.type = 1 ∨ (a.type = 2 ∧ a.file = "")) →
      L.load (L.emit i.encode) = some i.encode → LogDefine.fromYaml L (i.toYaml L) = some i := by
  intro h
  have hround := h (library .error) (toStdout .error) (toStdout_appenders .error) (library_load _)
  rw [fromYaml_toYaml (toStdout_appenders .error) (library_load _)] at hround
  have hlevel := congrArg (fun i : LogDefine => i.appenders.map LogAppenderDefine.level)
    (Option.some.inj hround)
  exact absurd hlevel (by decide)

end LioNet.Log
