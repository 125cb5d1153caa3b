import LioNet.Env
import LioNet.Lib.KeyedLog
import LioNet.Lib.Symlinks
import LioNet.FSUtil.ListAllFile

/-!
# Paths of the program

The map of the options, and the paths that `env.cc` makes of relative ones.  `getAbsolutePath` puts the
directory of the executable in front, so what a path names does not depend on the working directory
(`stat_getAbsolutePath`).  An empty path stands for the root.

`Config::LoadFromConfDir` lists the files of the directory that such a path names.  With the path of the
command line these are the files below the directory that the last `-c` names, as seen from the executable
(`conf_files`).
-/

namespace LioNet.Env

open LioNet.Lib LioNet.FSUtil FileSystem

/-! ### The code -/

def has (args : String → Option String) (key : String) : Bool := (args key).isSome

def del (args : String → Option String) (key : String) : String → Option String :=
  Function.update args key none

def get (args : String → Option String) (key default_value : String) : String :=
  (args key).getD default_value

def getAbsolutePath (env : Env) (path : String) : String :=
  if path = "" then "/"
  else if path.toList.head? = some '/' then path
  else env.cwd ++ path

/-- `getAbsoluteWorkPath`, where `work_path` is the value of the variable `server.work_path`; the call
crashes when there is no such variable. -/
def getAbsoluteWorkPath (work_path : Option String) (path : String) : Option String :=
  if path = "" then some "/"
  else if path.toList.head? = some '/' then some path
  else work_path.map fun w => w ++ "/" ++ path

def getConfigPath (env : Env) : String := env.getAbsolutePath (get env.args "c" "conf")

/-- The files of `LoadFromConfDir`. -/
def confFiles (sys : System) (cwd : Loc) (fs : FileSystem) (fuel : Nat) (env : Env) (path : String) :
    Option (List Path) :=
  ListAllFile sys cwd fs ".yml".toList fuel (env.getAbsolutePath path).toList []

/-! ### The options -/

/-- **The last option of a name counts.** -/
theorem foldl_add (opts : List (String × String)) (args : String → Option String) (key : String) :
    opts.foldl (fun args opt => add args opt.1 opt.2) args key =
      ((lastCall Prod.fst opts key).map Prod.snd).or (args key) := by
  induction opts using List.reverseRecOn with
  | nil => rfl
  | append_singleton opts opt ih =>
    rw [List.foldl_append]
    show add _ opt.1 opt.2 key = _
    unfold add
    by_cases hkey : key = opt.1
    · subst hkey
      rw [Function.update_self, lastCall_snoc_self]
      rfl
    · rw [Function.update_of_ne hkey, lastCall_snoc_of_ne opts hkey]
      exact ih

/-- The options of a command line that `init` accepts are in the map, whatever lone dashes it has. -/
theorem args_of_init {env : Env} {exe program : String} {argv : List String}
    (h : (env.init (some exe) program argv).1 = true) (key : String) :
    (env.init (some exe) program argv).2.args key =
      ((lastCall Prod.fst (options (argv.filter (· ≠ "-"))) key).map Prod.snd).or (env.args key) := by
  have hfilter : "-" ∉ argv.filter (· ≠ "-") := by simp
  obtain ⟨-, hmap⟩ := parse_spec hfilter none env.args
  rw [parse_filter] at hmap
  rw [(init_some env exe program argv).2, hmap h]
  exact foldl_add _ _ key

/-! ### Absolute paths -/

section Absolute

variable {fs : FileSystem} {d : Loc} {n : Name}

theorem joined_append (l k : Loc) : Path.joined (l ++ k) = Path.joined l ++ Path.joined k := by
  induction l with
  | nil => rfl
  | cons m l ih =>
    rw [List.cons_append, Path.joined, Path.joined, ih, List.cons_append, List.append_assoc]

/-- The directory of an executable ends in a slash. -/
theorem cwdOf_ofLoc (hn : '/' ∉ n) :
    cwdOf (String.ofList (Path.ofLoc (d ++ [n]))) = String.ofList (Path.joined d ++ ['/']) := by
  have hpath : Path.ofLoc (d ++ [n]) = Path.joined d ++ '/' :: n := by
    rw [Path.ofLoc, if_neg (List.append_ne_nil_of_right_ne_nil d (List.cons_ne_nil n [])), joined_append,
      Path.joined, Path.joined, List.append_nil]
  have hall : ∀ c ∈ n.reverse, (decide (c ≠ '/')) = true := by
    intro c hc
    rw [decide_eq_true_iff]
    rintro rfl
    exact hn (List.mem_reverse.mp hc)
  rw [cwdOf, String.toList_ofList, hpath, if_pos (List.mem_append_right _ List.mem_cons_self),
    List.reverse_append, List.reverse_cons, List.append_assoc, List.dropWhile_append_of_pos hall]
  show String.ofList (('/' :: (Path.joined d).reverse).dropWhile _).reverse = _
  rw [List.dropWhile_cons_of_neg (by decide), List.reverse_cons, List.reverse_reverse]

theorem stat_absolute {path : Path} (h : path.head? = some '/') (cwd cwd' : Loc) :
    fs.stat cwd path = fs.stat cwd' path := by
  rw [stat, stat, Path.start, Path.start, if_pos h, if_pos h]

/-- The path of a directory, a slash and more: it is looked up from the directory. -/
theorem stat_joined (hdir : fs.entry d = some .directory) (cwd : Loc) {path : Path} (hne : path ≠ [])
    (hrel : path.head? ≠ some '/') : fs.stat cwd (Path.joined d ++ '/' :: path) = fs.stat d path := by
  have hsolid : fs.Solid ([] ++ d) := solid_of_directory hdir
  have hroot : fs.entry [] = some .directory := by
    by_cases hd : d = []
    · rwa [hd] at hdir
    · exact directory_of_below (l := []) hd (by rw [List.nil_append, hdir]; exact Option.some_ne_none _)
  have hplain : ∀ m ∈ d, Name.Plain m := plain_of_solid hsolid
  have hnames : Path.names (Path.joined d ++ '/' :: path) = dot :: (d ++ path.names) := by
    have hid : d.map Path.orDot = d.map id :=
      List.map_congr_left fun m hm => Path.orDot_of_plain (hplain m hm)
    rw [Path.names_append, Path.names, Path.parts_joined hplain, List.map_cons, hid, List.map_id]
    rfl
  have hstart : Path.start cwd (Path.joined d ++ '/' :: path) = [] := by
    cases d with
    | nil => rfl
    | cons m d => rfl
  have hstraight : Walks fs false maxSymlinks [] d d maxSymlinks := Walks.straight hsolid _
  refine Option.ext fun l => ?_
  rw [stat_eq_some, stat_eq_some, hstart, hnames, Path.start, if_neg hrel]
  refine and_congr (iff_of_true ?_ hne) (exists_congr fun b => ?_)
  · exact List.append_ne_nil_of_right_ne_nil _ (List.cons_ne_nil _ _)
  · constructor
    · intro h
      rw [← List.cons_append] at h
      obtain ⟨d', b', h₁, h₂⟩ := h.split Path.names_ne_nil
      obtain ⟨rfl, rfl⟩ := h₁.unique (.dot hroot hstraight)
      exact h₂
    · exact fun h => .dot hroot (hstraight.append h)

/-- An empty path stands for the root. -/
def orRoot (path : String) : Path := if path = "" then ['/'] else path.toList

/-- **What a path names does not depend on the working directory**: it is looked up from the directory of
the executable. -/
theorem stat_getAbsolutePath {env : Env}
    (hcwd : env.cwd = cwdOf (String.ofList (Path.ofLoc (d ++ [n]))))
    (hexe : fs.entry (d ++ [n]) ≠ none) (cwd : Loc) (path : String) :
    fs.stat cwd (env.getAbsolutePath path).toList = fs.stat d (orRoot path) := by
  unfold getAbsolutePath orRoot
  by_cases hempty : path = ""
  · rw [if_pos hempty, if_pos hempty]
    exact stat_absolute rfl cwd d
  · rw [if_neg hempty, if_neg hempty]
    by_cases habs : path.toList.head? = some '/'
    · rw [if_pos habs]
      exact stat_absolute habs cwd d
    · have hne : path.toList ≠ [] := fun h => hempty (String.toList_injective h)
      rw [if_neg habs, hcwd, cwdOf_ofLoc (fs.plain hexe).slash, String.toList_append, String.toList_ofList,
        List.append_assoc]
      exact stat_joined (fs.closed hexe) cwd hne habs

end Absolute

/-! ### The files of a directory of configurations -/

section ConfFiles

variable {fs : FileSystem} {cwd l : Loc} {path : Path} {ns : List Name} {n : Name} {subfix : List Char}

/-- In the directory that the path names, names lead to the directories below. -/
theorem stat_below (hl : fs.stat cwd path = some l) (hdir : fs.entry (l ++ ns) = some .directory) :
    fs.stat cwd (below path ns) = some (l ++ ns) := by
  induction ns generalizing path l with
  | nil => rwa [List.append_nil]
  | cons n ns ih =>
    have hsnoc : l ++ n :: ns = l ++ [n] ++ ns := by
      rw [List.append_assoc]
      rfl
    rw [hsnoc] at hdir ⊢
    have hchild : fs.entry (l ++ [n]) = some .directory := by
      by_cases hns : ns = []
      · rwa [hns, List.append_nil] at hdir
      · exact directory_of_below hns (by rw [hdir]; exact Option.some_ne_none _)
    have hne : fs.entry (l ++ [n]) ≠ none := by
      rw [hchild]
      exact Option.some_ne_none _
    have hlstat := (lstat_child (stat_eq_some.mp hl).1 (fs.plain hne)).mpr
      ⟨l, hl, fs.closed hne, rfl, hne⟩
    exact ih (stat_of_lstat_directory hlstat hchild) hdir

/-- The path of a listed file leads to it. -/
theorem lstat_below (hl : fs.stat cwd path = some l) (h : LeadsToFile fs l subfix ns) :
    fs.lstat cwd (below path ns) = some (l ++ ns) := by
  obtain ⟨n, c, hlast, -, he⟩ := h
  obtain ⟨ms, rfl⟩ := List.getLast?_eq_some_iff.mp hlast
  have hne : fs.entry (l ++ ms ++ [n]) ≠ none := by
    rw [List.append_assoc, he]
    exact Option.some_ne_none _
  have hdir := fs.closed hne
  have hstat := stat_below hl hdir
  have hbelow : below path (ms ++ [n]) = (below path ms).child n := List.foldl_concat ..
  rw [hbelow, ← List.append_assoc]
  exact (lstat_child (stat_eq_some.mp hstat).1 (fs.plain hne)).mpr ⟨_, hstat, hdir, rfl, hne⟩

theorem getAbsolutePath_ne (env : Env) (path : String) : env.getAbsolutePath path ≠ "" := by
  unfold getAbsolutePath
  split
  · decide
  · rename_i hpath
    split
    · exact hpath
    · intro h
      have hlist := congrArg String.toList h
      rw [String.toList_append] at hlist
      exact hpath (String.toList_injective (List.append_eq_nil_iff.mp hlist).2)

variable {d : Loc} {env : Env}

/-- `LoadFromConfDir` lists, each once, the configuration files below the directory that its path names
from the executable. -/
theorem confFiles_spec (sys : System)
    (hcwd : env.cwd = cwdOf (String.ofList (Path.ofLoc (d ++ [n])))) (hexe : fs.entry (d ++ [n]) ≠ none)
    (cwd : Loc) (path : String) (hopen : ∀ l, fs.stat d (orRoot path) = some l → Listable sys fs l) :
    ∃ files, (∀ fuel, fs.depth < fuel →
        confFiles sys cwd fs fuel env path = some files) ∧ files.Nodup ∧
      ∀ k, (∃ s ∈ files, fs.lstat cwd s = some k) ↔ ∃ l names, fs.stat d (orRoot path) = some l ∧
        LeadsToFile fs l ".yml".toList names ∧ k = l ++ names := by
  have hstat := stat_getAbsolutePath hcwd hexe cwd path
  by_cases hdir : fs.IsDirectory cwd (env.getAbsolutePath path).toList
  · obtain ⟨l, hl, hdir⟩ := hdir
    have hfuel : fs.depth < fs.depth + 1 + l.length := by omega
    obtain ⟨files, hrun, hnodup, hmem⟩ :=
      ListAllFile_spec ".yml".toList hl hdir (hopen l (hstat ▸ hl)) hfuel []
    refine ⟨files, fun fuel hf => ListAllFile_of_le hf hrun, hnodup, fun k => ?_⟩
    constructor
    · rintro ⟨s, hs, hk⟩
      obtain ⟨m, rest, hfile, rfl⟩ := (hmem s).mp hs
      rw [lstat_below hl hfile] at hk
      exact ⟨l, m :: rest, hstat ▸ hl, hfile, (Option.some.inj hk).symm⟩
    · rintro ⟨l', names, hl', hfile, rfl⟩
      obtain rfl := Option.some.inj (hl.symm.trans (hstat.trans hl'))
      cases names with
      | nil =>
        obtain ⟨m, _, hlast, _⟩ := hfile
        cases hlast
      | cons m rest => exact ⟨_, (hmem _).mpr ⟨m, rest, hfile, rfl⟩, lstat_below hl hfile⟩
  · refine ⟨[], fun fuel hf => ?_, List.nodup_nil, fun k => ?_⟩
    · have hone : ListAllFile sys cwd fs ".yml".toList 1 (env.getAbsolutePath path).toList [] = some [] :=
        ListAllFile_other fun ⟨l, hl, h, _⟩ => hdir ⟨l, hl, h⟩
      exact ListAllFile_of_le (by omega) hone
    · constructor
      · rintro ⟨s, hs, -⟩
        exact absurd hs List.not_mem_nil
      · rintro ⟨l, names, hl, ⟨m, c, hlast, -, he⟩, -⟩
        have hne : names ≠ [] := by
          rintro rfl
          cases hlast
        have hbelow := directory_of_below hne (by rw [he]; exact Option.some_ne_none _)
        exact absurd ⟨l, hstat.trans hl, hbelow⟩ hdir

/-- **The command line names the directory of the configuration files**: after `init` these are the files
below the directory that the last `-c` names, or else `conf`, as seen from the executable and from nowhere
else.  The directories there can be opened. -/
theorem conf_files (sys : System) {program : String} {argv : List String}
    (hexe : fs.entry (d ++ [n]) ≠ none)
    (hinit : (env.init (some (String.ofList (Path.ofLoc (d ++ [n])))) program argv).1 = true) (cwd : Loc) :
    let env' := (env.init (some (String.ofList (Path.ofLoc (d ++ [n])))) program argv).2
    let option := (lastCall Prod.fst (options (argv.filter (· ≠ "-"))) "c").map Prod.snd
    (∀ l, fs.stat d (orRoot ((option.or (env.args "c")).getD "conf")) = some l → Listable sys fs l) →
    ∃ files, (∀ fuel, fs.depth < fuel →
        confFiles sys cwd fs fuel env' env'.getConfigPath = some files) ∧ files.Nodup ∧
      ∀ k, (∃ s ∈ files, fs.lstat cwd s = some k) ↔ ∃ l names,
        fs.stat d (orRoot ((option.or (env.args "c")).getD "conf")) = some l ∧
          LeadsToFile fs l ".yml".toList names ∧ k = l ++ names := by
  intro env' option hopen
  have hcwd : env'.cwd = cwdOf (String.ofList (Path.ofLoc (d ++ [n]))) := rfl
  have hget : get env'.args "c" "conf" = (option.or (env.args "c")).getD "conf" :=
    congrArg (·.getD "conf") (args_of_init hinit "c")
  have hdir : fs.stat d (orRoot env'.getConfigPath) =
      fs.stat d (orRoot ((option.or (env.args "c")).getD "conf")) := by
    have hpath : orRoot env'.getConfigPath = env'.getConfigPath.toList :=
      if_neg (getAbsolutePath_ne _ _)
    rw [hpath, ← hget]
    exact stat_getAbsolutePath hcwd hexe d _
  have hspec := confFiles_spec sys hcwd hexe cwd env'.getConfigPath (by rwa [hdir])
  rw [hdir] at hspec
  exact hspec

/-- A program in the directory `b`, with its configuration beside it. -/
def installed : FileSystem :=
  ((((FileSystem.root.put [] ['b'] .directory rfl (by decide) (by decide)).put [['b']] ['s'] (.regular [])
    (by decide) (by decide) (by decide)).put [['b']] ['e'] .directory (by decide) (by decide)
      (by decide)).put [['b'], ['e']] "log.yml".toList (.regular []) (by decide) (by decide) (by decide))

/-- It is called from elsewhere, and finds its file. -/
example : ∃ files,
    (∀ fuel, installed.depth < fuel → confFiles System.permissive [['x']] installed fuel
      ((Env.mk (fun _ => none) "" "" "").init (some "/b/s") "s" ["-c", "e", "-d"]).2 "/b/e" =
        some files) ∧
    ∃ s ∈ files, installed.lstat [['x']] s = some [['b'], ['e'], "log.yml".toList] := by
  have hexe : installed.entry ([['b']] ++ [['s']]) ≠ none := by decide +kernel
  have hinit : ((Env.mk (fun _ => none) "" "" "").init
      (some (String.ofList (Path.ofLoc ([['b']] ++ [['s']])))) "s" ["-c", "e", "-d"]).1 = true := by
    decide +kernel
  obtain ⟨files, hrun, -, hmem⟩ := conf_files System.permissive hexe hinit [['x']] fun _ _ _ _ _ => rfl
  refine ⟨files, fun fuel hf => ?_, (hmem _).mpr ⟨[['b'], ['e']], ["log.yml".toList], ?_⟩⟩
  · rw [← hrun fuel hf]
    rfl
  · exact ⟨by decide +kernel, ⟨"log.yml".toList, [], rfl, by decide, by decide +kernel⟩, rfl⟩

end ConfFiles

end LioNet.Env
