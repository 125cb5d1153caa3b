import Mathlib.Data.List.Chain
import Mathlib.Logic.Function.Basic

/-!
# The command line

`Env::init` of `env.cc`.  One pass over the arguments keeps the key of an option that waits for its
value.  An option begins with a dash and has a name behind it; everything that does not begin with a
dash is a value.

A value that no option waits for is an error, and `init` returns false.  A lone dash is reported in the
same words, but the loop goes on, and the waiting key with it: the code takes the dash for nothing.
-/

namespace LioNet

/-! ### The code -/

structure Env where
  args : String → Option String
  program : String
  exe : String
  cwd : String

namespace Env

/-- `m_args[key] = val`. -/
def add (args : String → Option String) (key val : String) : String → Option String :=
  Function.update args key (some val)

/-- `argv[i][0] == '-'`. -/
def hasDash (arg : String) : Bool := arg.toList.head? = some '-'

/-- The waiting key gets an empty value. -/
def flush (args : String → Option String) : Option String → String → Option String
  | some key => add args key ""
  | none => args

/-- The loop over `argv`, with the waiting key. -/
def parse (now_key : Option String) (args : String → Option String) :
    List String → Bool × (String → Option String)
  | [] => (true, flush args now_key)
  | arg :: argv =>
    if hasDash arg then
      if arg.toList.length > 1 then
        parse (some (String.ofList arg.toList.tail)) (flush args now_key) argv
      else parse now_key args argv
    else
      match now_key with
      | some key => parse none (add args key arg) argv
      | none => (false, args)

/-- `m_exe` up to its last slash, and a slash. -/
def cwdOf (exe : String) : String :=
  if '/' ∈ exe.toList then String.ofList (exe.toList.reverse.dropWhile (· ≠ '/')).reverse
  else exe ++ "/"

/-- `init`, where `link` is what `readlink` gives and `argv` what follows the program's name. -/
def init (env : Env) (link : Option String) (program : String) (argv : List String) : Bool × Env :=
  match link with
  | none => (false, env)
  | some exe =>
    ((parse none env.args argv).1,
      { args := (parse none env.args argv).2, program := program, exe := exe, cwd := cwdOf exe })

/-! ### The grammar -/

def IsOption (arg : String) : Prop := hasDash arg = true ∧ 1 < arg.toList.length

def IsValue (arg : String) : Prop := hasDash arg = false

instance (arg : String) : Decidable (IsOption arg) := inferInstanceAs (Decidable (_ ∧ _))

instance (arg : String) : Decidable (IsValue arg) := inferInstanceAs (Decidable (_ = _))

/-- Every value directly follows an option. -/
structure ValuesFollow (argv : List String) : Prop where
  first : ∀ arg ∈ argv.head?, ¬IsValue arg
  next : argv.IsChain fun prev arg => IsValue arg → IsOption prev

/-- No lone dash, and no value without its option. -/
def Grammar (argv : List String) : Prop := "-" ∉ argv ∧ ValuesFollow argv

/-- The value behind an option. -/
def valueOf (argv : List String) : String := (argv.head?.filter fun arg => IsValue arg).getD ""

/-- The options in their order, each with its value. -/
def options : List String → List (String × String)
  | [] => []
  | arg :: argv =>
    if IsOption arg then (String.ofList arg.toList.tail, valueOf argv) :: options argv
    else options argv

/-- `init` accepts exactly the grammar, and then updates the map with the options in order. -/
structure Parses (env : Env) (exe program : String) (argv : List String) : Prop where
  accepts : (env.init (some exe) program argv).1 = true ↔ Grammar argv
  updates : (env.init (some exe) program argv).1 = true →
    (env.init (some exe) program argv).2.args =
      (options argv).foldl (fun args opt => add args opt.1 opt.2) env.args

/-! ### The loop against the grammar -/

theorem eq_dash {arg : String} (h : hasDash arg = true) (hlen : ¬1 < arg.toList.length) :
    arg = "-" := by
  apply String.toList_injective
  have hhead : arg.toList.head? = some '-' := of_decide_eq_true h
  cases hc : arg.toList with
  | nil =>
    rw [hc] at hhead
    cases hhead
  | cons c cs =>
    rw [hc] at hhead hlen
    obtain rfl : c = '-' := Option.some.inj hhead
    cases cs with
    | nil => rfl
    | cons d cs =>
      simp only [List.length_cons] at hlen
      omega

/-- Each argument is an option, a lone dash or a value. -/
theorem token_cases (arg : String) : IsOption arg ∨ arg = "-" ∨ IsValue arg := by
  by_cases h : hasDash arg = true
  · by_cases hlen : 1 < arg.toList.length
    · exact .inl ⟨h, hlen⟩
    · exact .inr (.inl (eq_dash h hlen))
  · exact .inr (.inr (Bool.eq_false_iff.mpr h))

section

variable {key : Option String} {args : String → Option String} {arg : String} {argv : List String}

theorem parse_cons : parse key args (arg :: argv) =
    if hasDash arg then
      if arg.toList.length > 1 then
        parse (some (String.ofList arg.toList.tail)) (flush args key) argv
      else parse key args argv
    else
      match key with
      | some key => parse none (add args key arg) argv
      | none => (false, args) := rfl

theorem parse_option (h : IsOption arg) :
    parse key args (arg :: argv) =
      parse (some (String.ofList arg.toList.tail)) (flush args key) argv := by
  rw [parse_cons, if_pos h.1, if_pos h.2]

theorem parse_dash : parse key args ("-" :: argv) = parse key args argv := by
  rw [parse_cons, if_pos (by decide), if_neg (by decide)]

theorem parse_value (h : IsValue arg) (k : String) :
    parse (some k) args (arg :: argv) = parse none (add args k arg) argv := by
  rw [parse_cons, if_neg (Bool.eq_false_iff.mp h)]

theorem parse_stray (h : IsValue arg) : parse none args (arg :: argv) = (false, args) := by
  rw [parse_cons, if_neg (Bool.eq_false_iff.mp h)]

/-- The code takes a lone dash for nothing. -/
theorem parse_filter (key : Option String) (args : String → Option String) (argv : List String) :
    parse key args (argv.filter (· ≠ "-")) = parse key args argv := by
  induction argv generalizing key args with
  | nil => rfl
  | cons arg argv ih =>
    by_cases hdash : arg = "-"
    · subst hdash
      rw [List.filter_cons_of_neg (by decide), parse_dash, ih]
    · rw [List.filter_cons_of_pos (by simpa using hdash)]
      rcases token_cases arg with h | h | h
      · rw [parse_option h, parse_option h, ih]
      · exact absurd h hdash
      · cases key with
        | none => rw [parse_stray h, parse_stray h]
        | some k => rw [parse_value h, parse_value h, ih]

end

/-- `ValuesFollow`, where `waits` says that an option stands in front. -/
def follows (waits : Bool) : List String → Bool
  | [] => true
  | arg :: argv => if IsOption arg then follows true argv else waits && follows false argv

theorem follows_cons_value {waits : Bool} {arg : String} {argv : List String} (h : IsValue arg) :
    follows waits (arg :: argv) = (waits && follows false argv) := by
  have hno : ¬IsOption arg := fun ho => Bool.eq_false_iff.mp h ho.1
  rw [follows, if_neg hno]

theorem follows_cons_option {waits : Bool} {arg : String} {argv : List String} (h : IsOption arg) :
    follows waits (arg :: argv) = follows true argv := by
  rw [follows, if_pos h]

theorem follows_iff {argv : List String} (hdash : "-" ∉ argv) (waits : Bool) :
    follows waits argv = true ↔ (∀ arg ∈ argv.head?, IsValue arg → waits = true) ∧
      argv.IsChain fun prev arg => IsValue arg → IsOption prev := by
  induction argv generalizing waits with
  | nil => exact iff_of_true rfl ⟨fun _ h => absurd h (Option.not_mem_none _), .nil⟩
  | cons arg argv ih =>
    have hrest : "-" ∉ argv := fun hm => hdash (List.mem_cons_of_mem arg hm)
    rw [List.isChain_cons]
    rcases token_cases arg with h | rfl | h
    · rw [follows_cons_option h, ih hrest]
      constructor
      · rintro ⟨-, hc⟩
        refine ⟨fun a ha hv => ?_, fun _ _ _ => h, hc⟩
        obtain rfl : arg = a := Option.some.inj ha
        exact absurd h.1 (Bool.eq_false_iff.mp hv)
      · rintro ⟨-, -, hc⟩
        exact ⟨fun _ _ _ => rfl, hc⟩
    · exact absurd List.mem_cons_self hdash
    · have hno : ¬IsOption arg := fun ho => Bool.eq_false_iff.mp h ho.1
      rw [follows_cons_value h, Bool.and_eq_true, ih hrest]
      constructor
      · rintro ⟨hw, hfirst, hc⟩
        refine ⟨fun _ _ _ => hw, fun a ha hv => ?_, hc⟩
        exact absurd (hfirst a ha hv) Bool.false_ne_true
      · rintro ⟨hw, hfirst, hc⟩
        refine ⟨hw arg rfl h, fun a ha hv => ?_, hc⟩
        exact absurd (hfirst a ha hv) hno

theorem follows_false_iff {argv : List String} (hdash : "-" ∉ argv) :
    follows false argv = true ↔ ValuesFollow argv := by
  rw [follows_iff hdash]
  constructor
  · rintro ⟨hfirst, hnext⟩
    exact ⟨fun arg ha hv => Bool.false_ne_true (hfirst arg ha hv), hnext⟩
  · rintro ⟨hfirst, hnext⟩
    exact ⟨fun arg ha hv => absurd hv (hfirst arg ha), hnext⟩

/-- The waiting option with its value. -/
def pending (key : Option String) (argv : List String) : List (String × String) :=
  match key with
  | some k => [(k, valueOf argv)]
  | none => []

theorem flush_eq (key : Option String) (args : String → Option String) {argv : List String}
    (h : ∀ arg ∈ argv.head?, ¬IsValue arg) :
    flush args key = (pending key argv).foldl (fun args opt => add args opt.1 opt.2) args := by
  cases key with
  | none => rfl
  | some k =>
    have hv : valueOf argv = "" := by
      cases argv with
      | nil => rfl
      | cons arg argv =>
        have hno : ¬IsValue arg := h arg rfl
        rw [valueOf, List.head?_cons, Option.filter_some, if_neg (by simpa using hno)]
        rfl
    rw [pending, hv]
    rfl

/-- **Without lone dashes the loop accepts the grammar**, and updates the map as it says. -/
theorem parse_spec {argv : List String} (hdash : "-" ∉ argv) (key : Option String)
    (args : String → Option String) :
    (parse key args argv).1 = follows key.isSome argv ∧
      ((parse key args argv).1 = true → (parse key args argv).2 =
        (pending key argv ++ options argv).foldl (fun args opt => add args opt.1 opt.2) args) := by
  induction argv generalizing key args with
  | nil =>
    refine ⟨rfl, fun _ => ?_⟩
    rw [options, List.append_nil, ← flush_eq key args fun _ h => absurd h (Option.not_mem_none _)]
    rfl
  | cons arg argv ih =>
    have hrest : "-" ∉ argv := fun hm => hdash (List.mem_cons_of_mem arg hm)
    rcases token_cases arg with h | rfl | h
    · obtain ⟨hok, hmap⟩ := ih hrest (some (String.ofList arg.toList.tail)) (flush args key)
      have hnv : ∀ a ∈ (arg :: argv).head?, ¬IsValue a := by
        intro a ha hv
        obtain rfl : arg = a := Option.some.inj ha
        exact absurd h.1 (Bool.eq_false_iff.mp hv)
      rw [parse_option h, follows_cons_option h, options, if_pos h]
      refine ⟨hok, fun ht => ?_⟩
      rw [hmap ht, List.foldl_append, List.foldl_append, ← flush_eq key args hnv]
      rfl
    · exact absurd List.mem_cons_self hdash
    · have hno : ¬IsOption arg := fun ho => Bool.eq_false_iff.mp h ho.1
      rw [follows_cons_value h, options, if_neg hno]
      cases key with
      | none =>
        rw [parse_stray h]
        exact ⟨rfl, fun ht => absurd ht Bool.false_ne_true⟩
      | some k =>
        obtain ⟨hok, hmap⟩ := ih hrest none (add args k arg)
        have hv : valueOf (arg :: argv) = arg := by
          rw [valueOf, List.head?_cons, Option.filter_some, if_pos (by simpa using h)]
          rfl
        rw [parse_value h, hok]
        refine ⟨rfl, fun ht => ?_⟩
        rw [hmap (hok.trans ht), pending, pending, hv]
        rfl

theorem init_some (env : Env) (exe program : String) (argv : List String) :
    (env.init (some exe) program argv).1 = (parse none env.args argv).1 ∧
      (env.init (some exe) program argv).2.args = (parse none env.args argv).2 :=
  ⟨rfl, rfl⟩

/-- **`init` parses its grammar exactly when there is no lone dash, or when the rest of the arguments
is already wrong without it.** -/
theorem parses_iff (env : Env) (exe program : String) (argv : List String) :
    env.Parses exe program argv ↔
      "-" ∉ argv ∨ ¬ValuesFollow (argv.filter (· ≠ "-")) := by
  have hfilter : "-" ∉ argv.filter (· ≠ "-") := by simp
  have hinit : (env.init (some exe) program argv).1 = follows false (argv.filter (· ≠ "-")) := by
    rw [(init_some env exe program argv).1, ← parse_filter]
    exact (parse_spec hfilter none env.args).1
  constructor
  · intro h
    by_cases hdash : "-" ∈ argv
    · refine .inr fun hv => ?_
      rw [← follows_false_iff hfilter, ← hinit] at hv
      exact (h.accepts.mp hv).1 hdash
    · exact .inl hdash
  · intro h
    by_cases hdash : "-" ∈ argv
    · have hv := h.resolve_left (not_not_intro hdash)
      rw [← follows_false_iff hfilter, ← hinit] at hv
      exact ⟨iff_of_false hv fun hg => hg.1 hdash, fun ht => absurd ht hv⟩
    · obtain ⟨hok, hmap⟩ := parse_spec hdash none env.args
      refine ⟨?_, fun ht => ?_⟩
      · rw [(init_some env exe program argv).1, hok, Grammar]
        exact (follows_false_iff hdash).trans (iff_and_self.mpr fun _ => hdash)
      · rw [(init_some env exe program argv).1] at ht
        rw [(init_some env exe program argv).2, hmap ht]
        rfl

/-- A lone dash is accepted, even between an option and its value. -/
theorem not_parses_dash :
    ¬(Env.mk (fun _ => none) "" "" "").Parses "/bin/server" "server" ["-c", "-", "conf"] := by
  intro h
  have hok : ((Env.mk (fun _ => none) "" "" "").init (some "/bin/server") "server"
      ["-c", "-", "conf"]).1 = true := by decide
  exact (h.accepts.mp hok).1 (by decide)

end Env

end LioNet
