import Mathlib.Data.List.DropRight
import LioNet.Lib.PathLookup

/-!
# Paths and system calls

A path is a string.  `Path.names` are the names to be looked up, where nothing between two slashes counts
as a dot; `Path.entryNames` drops the slashes at the end, as the calls that make and remove entries do.
`stat` follows every link, `lstat` does not follow the last name, and `place` says which place the last
name stands for, whether something is there or not.

`System` holds what the environment decides: the order in which `readdir` lists a directory, and which
calls are permitted; a directory may always be searched, but not always opened.  A call that fails is `none`.
-/

namespace LioNet.Lib

abbrev Path := List Char

namespace Path

/-- What stands between the slashes. -/
def parts (path : Path) : List Name := path.splitOn '/'

def orDot (n : Name) : Name := if n = [] then dot else n

def names (path : Path) : List Name := path.parts.map orDot

def entryNames (path : Path) : List Name := (path.parts.rdropWhile List.isEmpty).map orDot

def start (cwd : Loc) (path : Path) : Loc := if path.head? = some '/' then [] else cwd

def slashed (path : Path) : Bool := path.getLast? = some '/'

/-- The path of what the directory lists as `n`. -/
def child (path : Path) (n : Name) : Path := path ++ '/' :: n

variable {path rest : Path} {cwd : Loc} {n : Name}

theorem parts_append : (path ++ '/' :: rest).parts = path.parts ++ rest.parts :=
  List.splitOn_append_cons_self path rest

theorem parts_of_noSlash (h : '/' ∉ path) : path.parts = [path] := List.splitOn_eq_singleton h

theorem parts_ne_nil (path : Path) : path.parts ≠ [] := List.splitOn_ne_nil '/' path

theorem names_ne_nil : path.names ≠ [] := fun h => parts_ne_nil path (List.map_eq_nil_iff.mp h)

theorem names_append : (path ++ '/' :: rest).names = path.names ++ rest.names := by
  rw [names, parts_append, List.map_append]
  rfl

theorem start_append (h : path ≠ []) : start cwd (path ++ rest) = start cwd path := by
  obtain ⟨c, cs, rfl⟩ := List.exists_cons_of_ne_nil h
  rfl

theorem orDot_of_plain (hn : n.Plain) : orDot n = n := if_neg hn.ne_nil

/-- The names looked up are the ones of the entry, and dots for the slashes at the end. -/
theorem exists_names_eq (path : Path) : ∃ k, path.names = path.entryNames ++ List.replicate k dot := by
  refine ⟨(path.parts.rtakeWhile List.isEmpty).length, ?_⟩
  have hdots : (path.parts.rtakeWhile List.isEmpty).map orDot =
      List.replicate (path.parts.rtakeWhile List.isEmpty).length dot := by
    rw [List.eq_replicate_iff]
    constructor
    · exact List.length_map ..
    · intro m hm
      obtain ⟨m', hm', rfl⟩ := List.mem_map.mp hm
      have hempty : m' = [] := List.isEmpty_iff.mp (List.mem_rtakeWhile_imp hm')
      rw [hempty]
      rfl
  rw [← hdots, entryNames, ← List.map_append, List.rdropWhile_append_rtakeWhile, names]

theorem entryNames_nil : entryNames [] = [] := by decide

theorem parts_child (hn : n.Plain) : (path.child n).parts = path.parts ++ [n] := by
  rw [child, parts_append, parts_of_noSlash hn.slash]

theorem names_child (hn : n.Plain) : (path.child n).names = path.names ++ [n] := by
  rw [names, parts_child hn, List.map_append, List.map_singleton, orDot_of_plain hn]
  rfl

theorem entryNames_child (hn : n.Plain) : (path.child n).entryNames = path.names ++ [n] := by
  have hne : ¬n.isEmpty = true := fun h => hn.ne_nil (List.isEmpty_iff.mp h)
  rw [entryNames, parts_child hn, List.rdropWhile_concat_neg _ _ _ hne, List.map_append,
    List.map_singleton, orDot_of_plain hn]
  rfl

end Path

namespace FileSystem

variable {fs fs' : FileSystem} {cwd l : Loc} {n : Name} {path : Path}

/-! ### The calls that look -/

/-- `stat` and `access` follow every link, and so does `opendir`. -/
def stat (fs : FileSystem) (cwd : Loc) (path : Path) : Option Loc :=
  if path = [] then none
  else (fs.walk false maxSymlinks (path.start cwd) path.names).map Prod.fst

/-- The place that the last name of a path stands for, in the directory that the others lead to. -/
def place (fs : FileSystem) (cwd : Loc) (path : Path) : Option Loc :=
  match path.entryNames.getLast? with
  | none => none
  | some n =>
    if n = dot ∨ n = dotdot then none
    else
      (fs.walk false maxSymlinks (path.start cwd) path.entryNames.dropLast).bind fun r =>
        if fs.entry r.1 = some .directory then some (r.1 ++ [n]) else none

/-- The last name to be looked up is a dot or two: there is no link not to follow. -/
def EndsInDots (path : Path) : Prop :=
  path.names.getLast? = some dot ∨ path.names.getLast? = some dotdot

instance (path : Path) : Decidable (EndsInDots path) :=
  inferInstanceAs (Decidable (_ ∨ _))

/-- `lstat` does not follow the last name. -/
def lstat (fs : FileSystem) (cwd : Loc) (path : Path) : Option Loc :=
  if EndsInDots path then fs.stat cwd path
  else (fs.place cwd path).filter fun l => (fs.entry l).isSome

/-- The path names a directory. -/
def IsDirectory (fs : FileSystem) (cwd : Loc) (path : Path) : Prop :=
  ∃ l, fs.stat cwd path = some l ∧ fs.entry l = some .directory

theorem stat_eq_some : fs.stat cwd path = some l ↔
    path ≠ [] ∧ ∃ b, Walks fs false maxSymlinks (path.start cwd) path.names l b := by
  rw [stat]
  split
  · rename_i h
    constructor
    · intro hl
      cases hl
    · intro hl
      exact absurd h hl.1
  · rename_i h
    rw [Option.map_eq_some_iff]
    constructor
    · rintro ⟨⟨k, b⟩, hw, rfl⟩
      exact ⟨h, b, walk_eq_some.mp hw⟩
    · rintro ⟨-, b, hw⟩
      exact ⟨(l, b), hw.walk, rfl⟩

theorem place_eq_some : fs.place cwd path = some l ↔
    ∃ q n d b, path.entryNames = q ++ [n] ∧ (n ≠ dot ∧ n ≠ dotdot) ∧
      Walks fs false maxSymlinks (path.start cwd) q d b ∧ fs.entry d = some .directory ∧
        l = d ++ [n] := by
  rw [place]
  rcases List.eq_nil_or_concat' path.entryNames with hnil | ⟨q, n, hq⟩
  · rw [hnil]
    constructor
    · intro h
      cases h
    · rintro ⟨q, n, d, b, hq, -⟩
      exact absurd hq.symm (List.append_ne_nil_of_right_ne_nil q (List.cons_ne_nil n []))
  · rw [hq, List.getLast?_concat, List.dropLast_concat]
    constructor
    · intro h
      by_cases hdots : n = dot ∨ n = dotdot
      · simp only [if_pos hdots] at h
        cases h
      · simp only [if_neg hdots] at h
        obtain ⟨⟨d, b⟩, hw, hd⟩ := Option.bind_eq_some_iff.mp h
        split at hd
        · rename_i hdir
          exact ⟨q, n, d, b, rfl, not_or.mp hdots, walk_eq_some.mp hw, hdir, (Option.some.inj hd).symm⟩
        · cases hd
    · rintro ⟨q', n', d, b, hq', hn, hw, hdir, rfl⟩
      obtain ⟨rfl, hlast⟩ := List.append_inj' hq' rfl
      obtain rfl : n = n' := List.singleton_inj.mp hlast
      simp only [if_neg (not_or.mpr hn)]
      exact Option.bind_eq_some_iff.mpr ⟨(d, b), hw.walk, if_pos hdir⟩

/-! ### Larger file systems -/

theorem stat_mono (h : fs ≤ fs') (hl : fs.stat cwd path = some l) : fs'.stat cwd path = some l := by
  rw [stat_eq_some] at hl ⊢
  obtain ⟨hpath, b, hw⟩ := hl
  exact ⟨hpath, b, hw.mono h⟩

theorem place_of_extends (h : Extends fs fs') (hl : fs.place cwd path = some l) :
    fs'.place cwd path = some l := by
  rw [place_eq_some] at hl ⊢
  obtain ⟨q, n, d, b, hq, hn, hw, hdir, hd⟩ := hl
  exact ⟨q, n, d, b, hq, hn, hw.of_extends h, h.directory hdir, hd⟩

theorem place_mono (h : fs ≤ fs') (hl : fs.place cwd path = some l) : fs'.place cwd path = some l :=
  place_of_extends (fun k e he => .inl (h k e he)) hl

theorem lstat_mono (h : fs ≤ fs') (hl : fs.lstat cwd path = some l) : fs'.lstat cwd path = some l := by
  by_cases hdots : EndsInDots path
  · rw [lstat, if_pos hdots] at hl ⊢
    exact stat_mono h hl
  · rw [lstat, if_neg hdots, Option.filter_eq_some_iff, Option.isSome_iff_ne_none] at hl ⊢
    exact ⟨place_mono h hl.1, ne_none_of_le h hl.2⟩

theorem IsDirectory.mono (h : fs ≤ fs') (hd : fs.IsDirectory cwd path) : fs'.IsDirectory cwd path := by
  obtain ⟨l, hl, hdir⟩ := hd
  exact ⟨l, stat_mono h hl, h _ _ hdir⟩

/-! ### What is at the place found -/

/-- Dots at the end change nothing. -/
theorem Walks.dots {b : Nat} (h : fs.entry l = some .directory) (k : Nat) :
    Walks fs false b l (List.replicate k Lib.dot) l b := by
  induction k with
  | zero => exact .nil b l
  | succ k ih => exact .dot h ih

/-- A path whose last name stands for a directory leads to it. -/
theorem stat_of_place (hl : fs.place cwd path = some l) (hdir : fs.entry l = some .directory) :
    fs.stat cwd path = some l := by
  obtain ⟨q, n, d, b, hq, -, hw, -, rfl⟩ := place_eq_some.mp hl
  obtain ⟨k, hk⟩ := Path.exists_names_eq path
  rw [stat_eq_some]
  constructor
  · rintro rfl
    rw [Path.entryNames_nil] at hq
    exact absurd hq.symm (List.append_ne_nil_of_right_ne_nil q (List.cons_ne_nil n []))
  · refine ⟨b, ?_⟩
    have hlast : Walks fs false b d [n] (d ++ [n]) b :=
      .down hdir (fun _ _ => Entry.noConfusion) (.nil _ _)
    rw [hk, hq]
    exact (hw.append hlast).append (.dots hdir k)

theorem directory_of_endsInDots (h : fs.stat cwd path = some l) (hdots : EndsInDots path) :
    fs.entry l = some .directory := by
  obtain ⟨-, b, hw⟩ := stat_eq_some.mp h
  obtain ⟨q, m, hq⟩ := (List.eq_nil_or_concat' path.names).resolve_left Path.names_ne_nil
  rw [EndsInDots, hq, List.getLast?_concat, Option.some_inj, Option.some_inj] at hdots
  rw [hq] at hw
  obtain ⟨d, b₁, -, hlast⟩ := hw.split (List.cons_ne_nil m [])
  have hdir := hlast.directory (List.cons_ne_nil m [])
  rcases hdots with rfl | rfl
  · obtain ⟨rfl, -⟩ := hlast.unique (.dot hdir (.nil _ _))
    exact hdir
  · obtain ⟨rfl, -⟩ := hlast.unique (.dotdot hdir (.nil _ _))
    rcases List.eq_nil_or_concat' d with rfl | ⟨d', n, rfl⟩
    · exact hdir
    · rw [List.dropLast_concat]
      exact directory_of_entry hdir

/-- `lstat` finds a directory, or the place of the last name. -/
theorem lstat_cases (h : fs.lstat cwd path = some l) :
    (fs.stat cwd path = some l ∧ fs.entry l = some .directory) ∨
      (¬EndsInDots path ∧ fs.place cwd path = some l ∧ fs.entry l ≠ none) := by
  by_cases hdots : EndsInDots path
  · rw [lstat, if_pos hdots] at h
    exact .inl ⟨h, directory_of_endsInDots h hdots⟩
  · rw [lstat, if_neg hdots, Option.filter_eq_some_iff, Option.isSome_iff_ne_none] at h
    exact .inr ⟨hdots, h⟩

theorem entry_of_lstat (h : fs.lstat cwd path = some l) : fs.entry l ≠ none := by
  rcases lstat_cases h with ⟨-, hdir⟩ | ⟨-, -, hne⟩
  · rw [hdir]
    exact Option.some_ne_none _
  · exact hne

/-- Without a slash at the end nothing is dropped. -/
theorem names_eq_entryNames (h : ¬EndsInDots path) : path.names = path.entryNames := by
  obtain ⟨k, hk⟩ := Path.exists_names_eq path
  cases k with
  | zero => rwa [List.replicate_zero, List.append_nil] at hk
  | succ k =>
    rw [List.replicate_succ', ← List.append_assoc] at hk
    rw [EndsInDots, hk, List.getLast?_concat] at h
    exact absurd (.inl rfl) h

/-- `stat` and `lstat` differ at links only. -/
theorem stat_of_lstat {e : Entry} (h : fs.lstat cwd path = some l) (he : fs.entry l = some e)
    (hlink : ∀ absolute ms, e ≠ .symlink absolute ms) : fs.stat cwd path = some l := by
  rcases lstat_cases h with ⟨hstat, -⟩ | ⟨hdots, hplace, -⟩
  · exact hstat
  · obtain ⟨q, n, d, b, hq, -, hw, -, rfl⟩ := place_eq_some.mp hplace
    rw [stat_eq_some, names_eq_entryNames hdots, hq]
    constructor
    · rintro rfl
      rw [Path.entryNames_nil] at hq
      exact absurd hq.symm (List.append_ne_nil_of_right_ne_nil q (List.cons_ne_nil n []))
    · exact ⟨b, hw.append (.down he hlink (.nil _ _))⟩

theorem stat_of_lstat_directory (h : fs.lstat cwd path = some l)
    (hdir : fs.entry l = some .directory) : fs.stat cwd path = some l :=
  stat_of_lstat h hdir fun _ _ => Entry.noConfusion

theorem place_of_lstat (h : fs.lstat cwd path = some l) (hdir : fs.entry l ≠ some .directory) :
    fs.place cwd path = some l := by
  rcases lstat_cases h with ⟨-, hdir'⟩ | ⟨-, hplace, -⟩
  · exact absurd hdir' hdir
  · exact hplace

/-- What `lstat` finds is still found in a smaller file system, when the place of the last name is. -/
theorem lstat_of_place (h : fs' ≤ fs) (hl : fs.lstat cwd path = some l)
    (hplace : fs'.place cwd path = some l) (hne : fs'.entry l ≠ none) :
    fs'.lstat cwd path = some l := by
  by_cases hdots : EndsInDots path
  · rw [lstat, if_pos hdots] at hl ⊢
    have hdir := directory_of_endsInDots hl hdots
    rw [entry_eq_of_le h hne] at hdir
    exact stat_of_place hplace hdir
  · rw [lstat, if_neg hdots, Option.filter_eq_some_iff, Option.isSome_iff_ne_none]
    exact ⟨hplace, hne⟩

/-- What `stat` finds, `lstat` finds too. -/
theorem lstat_ne_none_of_stat (h : fs.stat cwd path = some l) : fs.lstat cwd path ≠ none := by
  by_cases hdots : EndsInDots path
  · rw [lstat, if_pos hdots, h]
    exact Option.some_ne_none l
  · obtain ⟨-, b, hw⟩ := stat_eq_some.mp h
    obtain ⟨q, n, hq⟩ := (List.eq_nil_or_concat' path.names).resolve_left Path.names_ne_nil
    have hn : n ≠ dot ∧ n ≠ dotdot := by
      rw [EndsInDots, hq, List.getLast?_concat, Option.some_inj, Option.some_inj] at hdots
      exact not_or.mp hdots
    have hentry : path.entryNames = q ++ [n] := (names_eq_entryNames hdots).symm.trans hq
    rw [hq] at hw
    obtain ⟨d, b₁, hwq, hlast⟩ := hw.split (List.cons_ne_nil n [])
    have hdir := hlast.directory (List.cons_ne_nil n [])
    have hplace : fs.place cwd path = some (d ++ [n]) :=
      place_eq_some.mpr ⟨q, n, d, b₁, hentry, hn, hwq, hdir, rfl⟩
    have hne : fs.entry (d ++ [n]) ≠ none := by
      cases hlast with
      | dot => exact absurd rfl hn.1
      | dotdot => exact absurd rfl hn.2
      | missing _ _ _ _ hc => cases hc
      | link he => rw [he]; exact Option.some_ne_none _
      | down he => rw [he]; exact Option.some_ne_none _
    have hl : fs.lstat cwd path = some (d ++ [n]) := by
      rw [lstat, if_neg hdots, Option.filter_eq_some_iff, Option.isSome_iff_ne_none]
      exact ⟨hplace, hne⟩
    rw [hl]
    exact Option.some_ne_none _

/-! ### The entries of a directory -/

theorem place_child (hpath : path ≠ []) (hn : n.Plain) :
    fs.place cwd (path.child n) = some l ↔
      ∃ d, fs.stat cwd path = some d ∧ fs.entry d = some .directory ∧ l = d ++ [n] := by
  rw [place_eq_some, Path.entryNames_child hn, Path.child, Path.start_append hpath]
  constructor
  · rintro ⟨q, m, d, b, hq, -, hw, hdir, rfl⟩
    obtain ⟨rfl, hm⟩ := List.append_inj' hq rfl
    obtain rfl : n = m := List.singleton_inj.mp hm
    exact ⟨d, stat_eq_some.mpr ⟨hpath, b, hw⟩, hdir, rfl⟩
  · rintro ⟨d, hstat, hdir, rfl⟩
    obtain ⟨-, b, hw⟩ := stat_eq_some.mp hstat
    exact ⟨_, n, d, b, rfl, ⟨hn.ne_dot, hn.ne_dotdot⟩, hw, hdir, rfl⟩

theorem not_endsInDots_child (hn : n.Plain) : ¬EndsInDots (path.child n) := by
  rw [EndsInDots, Path.names_child hn, List.getLast?_concat, Option.some_inj, Option.some_inj]
  exact hn.not_dots

theorem lstat_child (hpath : path ≠ []) (hn : n.Plain) :
    fs.lstat cwd (path.child n) = some l ↔
      ∃ d, fs.stat cwd path = some d ∧ fs.entry d = some .directory ∧ l = d ++ [n] ∧
        fs.entry l ≠ none := by
  rw [lstat, if_neg (not_endsInDots_child hn), Option.filter_eq_some_iff, Option.isSome_iff_ne_none,
    place_child hpath hn]
  constructor
  · rintro ⟨⟨d, hstat, hdir, hl⟩, hne⟩
    exact ⟨d, hstat, hdir, hl, hne⟩
  · rintro ⟨d, hstat, hdir, hl, hne⟩
    exact ⟨⟨d, hstat, hdir, hl⟩, hne⟩

end FileSystem

/-! ### The environment and the calls that change something -/

/-- What the environment decides. -/
structure System where
  /-- what the calls of `readdir` give for a directory, in their order -/
  readdir : FileSystem → Loc → List Name
  readdir_perm : ∀ fs l, (readdir fs l).Perm (dot :: dotdot :: fs.children l)
  /-- a directory may be opened, to read what it lists -/
  opendir : Loc → Bool
  unlink : Loc → Bool
  rmdir : Loc → Bool
  mkdir : Loc → Bool
  /-- a file may be made and written -/
  create : Loc → Bool
  /-- a FIFO or a device may be opened -/
  special : Loc → Bool
  rename : Loc → Loc → Bool

/-- Everything is permitted, and the two dots come first. -/
def System.permissive : System where
  readdir fs l := dot :: dotdot :: fs.children l
  readdir_perm _ _ := .rfl
  opendir _ := true
  unlink _ := true
  rmdir _ := true
  mkdir _ := true
  create _ := true
  special _ := true
  rename _ _ := true

namespace System

variable (sys : System) (fs : FileSystem) (cwd : Loc)

section Readdir

variable {sys : System} {fs : FileSystem} {l : Loc} {n : Name}

/-- What `readdir` gives besides the dots. -/
theorem mem_readdir (hn : n ∈ sys.readdir fs l) (hdots : ¬(n = dot ∨ n = dotdot)) :
    fs.entry (l ++ [n]) ≠ none := by
  have hmem := (sys.readdir_perm fs l).mem_iff.mp hn
  rcases List.mem_cons.mp hmem with rfl | hmem
  · exact absurd (.inl rfl) hdots
  · rcases List.mem_cons.mp hmem with rfl | hmem
    · exact absurd (.inr rfl) hdots
    · exact FileSystem.mem_children.mp hmem

theorem readdir_complete (h : fs.entry (l ++ [n]) ≠ none) : n ∈ sys.readdir fs l :=
  (sys.readdir_perm fs l).mem_iff.mpr
    (List.mem_cons_of_mem _ (List.mem_cons_of_mem _ (FileSystem.mem_children.mpr h)))

theorem nodup_readdir : (sys.readdir fs l).Nodup := by
  rw [(sys.readdir_perm fs l).nodup_iff, List.nodup_cons, List.nodup_cons]
  refine ⟨?_, ?_, FileSystem.nodup_children fs l⟩
  · rw [List.mem_cons, not_or]
    exact ⟨by decide, fun h => (fs.plain (FileSystem.mem_children.mp h)).ne_dot rfl⟩
  · exact fun h => (fs.plain (FileSystem.mem_children.mp h)).ne_dotdot rfl

end Readdir

/-- `opendir`, and the names that `readdir` will give. -/
def opendirAt (path : Path) : Option (List Name) :=
  (fs.stat cwd path).bind fun l =>
    if fs.entry l = some .directory ∧ sys.opendir l = true then some (sys.readdir fs l) else none

theorem opendirAt_of_stat {sys : System} {fs : FileSystem} {cwd l : Loc} {path : Path}
    (hl : fs.stat cwd path = some l) : sys.opendirAt fs cwd path =
      if fs.entry l = some .directory ∧ sys.opendir l = true then some (sys.readdir fs l) else none := by
  rw [opendirAt, hl, Option.bind_some]

def unlinkAt (path : Path) : Option FileSystem :=
  (fs.lstat cwd path).bind fun l =>
    if fs.entry l ≠ some .directory ∧ sys.unlink l = true then some (fs.cut l) else none

def rmdirAt (path : Path) : Option FileSystem :=
  (fs.place cwd path).bind fun l =>
    if fs.entry l = some .directory ∧ fs.children l = [] ∧ sys.rmdir l = true then some (fs.cut l)
    else none

theorem rmdirAt_eq_some {sys : System} {fs fs' : FileSystem} {cwd : Loc} {path : Path} :
    sys.rmdirAt fs cwd path = some fs' ↔
      ∃ l, fs.place cwd path = some l ∧ fs.entry l = some .directory ∧
        (∀ n, fs.entry (l ++ [n]) = none) ∧ sys.rmdir l = true ∧ fs' = fs.cut l := by
  rw [rmdirAt, Option.bind_eq_some_iff]
  refine exists_congr fun l => and_congr_right fun _ => ?_
  rw [Option.ite_none_right_eq_some, FileSystem.children_eq_nil, Option.some_inj, and_assoc, and_assoc,
    eq_comm (a := fs')]

/-- The entry `e` at a place, if there may be one. -/
def putAt (l : Loc) (e : Entry) : Option FileSystem :=
  match l.getLast? with
  | none => none
  | some n =>
    if h : fs.entry l.dropLast = some .directory ∧ n.Plain ∧
        fs.entry (l.dropLast ++ [n]) ≠ some .directory then
      some (fs.put l.dropLast n e h.1 h.2.1 h.2.2)
    else none

/-- The entry `e` is at `l`, and nothing else has changed. -/
structure Made (fs : FileSystem) (l : Loc) (e : Entry) (fs' : FileSystem) : Prop where
  self : fs'.entry l = some e
  other : ∀ k, k ≠ l → fs'.entry k = fs.entry k

theorem Made.le {fs fs' : FileSystem} {l : Loc} {e : Entry} (h : Made fs l e fs')
    (hno : fs.entry l = none) : fs ≤ fs' := by
  intro k e' hk
  rw [h.other]
  · exact hk
  · rintro rfl
    rw [hno] at hk
    cases hk

theorem putAt_made {fs fs' : FileSystem} {l : Loc} {e : Entry} (h : putAt fs l e = some fs') :
    Made fs l e fs' := by
  rcases List.eq_nil_or_concat' l with rfl | ⟨d, n, rfl⟩
  · cases h
  · rw [putAt, List.getLast?_concat] at h
    simp only [List.dropLast_concat] at h
    split at h
    · cases h
      exact ⟨FileSystem.entry_put_self, fun k hk => FileSystem.entry_put hk⟩
    · cases h

theorem exists_putAt {fs : FileSystem} {d : Loc} {n : Name} (e : Entry)
    (hdir : fs.entry d = some .directory) (hn : n.Plain) (hno : fs.entry (d ++ [n]) ≠ some .directory) :
    ∃ fs', putAt fs (d ++ [n]) e = some fs' := by
  rw [putAt, List.getLast?_concat]
  simp only [List.dropLast_concat]
  rw [dif_pos ⟨hdir, hn, hno⟩]
  exact ⟨_, rfl⟩

def mkdirAt (path : Path) : Option FileSystem :=
  (fs.place cwd path).bind fun l =>
    if fs.entry l = none ∧ sys.mkdir l = true then putAt fs l .directory else none

theorem mkdirAt_made {sys : System} {fs fs' : FileSystem} {cwd : Loc} {path : Path}
    (h : sys.mkdirAt fs cwd path = some fs') :
    ∃ l, fs.place cwd path = some l ∧ fs.entry l = none ∧ Made fs l .directory fs' := by
  rw [mkdirAt] at h
  obtain ⟨l, hl, h⟩ := Option.bind_eq_some_iff.mp h
  obtain ⟨⟨hno, _⟩, hput⟩ := Option.ite_none_right_eq_some.mp h
  exact ⟨l, hl, hno, putAt_made hput⟩

theorem exists_mkdirAt {sys : System} {fs : FileSystem} {cwd d : Loc} {n : Name} {path : Path}
    (hl : fs.place cwd path = some (d ++ [n])) (hn : n.Plain) (hno : fs.entry (d ++ [n]) = none)
    (hperm : sys.mkdir (d ++ [n]) = true) : ∃ fs', sys.mkdirAt fs cwd path = some fs' := by
  obtain ⟨_, _, d', _, _, _, _, hdir, heq⟩ := FileSystem.place_eq_some.mp hl
  obtain ⟨rfl, _⟩ := List.append_inj' heq rfl
  rw [mkdirAt, hl, Option.bind_some, if_pos ⟨hno, hperm⟩]
  exact exists_putAt .directory hdir hn (by rw [hno]; exact (Option.some_ne_none _).symm)

/-- `open` for writing, with `O_CREAT` and `O_TRUNC` as asked: the place of the file too. -/
def openAt (creat trunc : Bool) (path : Path) : Option (Loc × FileSystem) :=
  if path = [] then none
  else
    (fs.walk creat maxSymlinks (path.start cwd) path.names).bind fun r =>
      match fs.entry r.1 with
      | none => if sys.create r.1 = true then (putAt fs r.1 (.regular [])).map (r.1, ·) else none
      | some (.regular content) =>
        if sys.create r.1 = true then
          (putAt fs r.1 (.regular (if trunc then [] else content))).map (r.1, ·)
        else none
      | some .directory | some (.symlink _ _) => none
      | some _ => if sys.special r.1 = true then some (r.1, fs) else none

/-- What is opened is missing, under a proper name, or regular, or stays as it is. -/
theorem openAt_eq_some {sys : System} {fs fs' : FileSystem} {cwd l : Loc} {creat trunc : Bool}
    {path : Path} (h : sys.openAt fs cwd creat trunc path = some (l, fs')) :
    path ≠ [] ∧ (∃ b, FileSystem.Walks fs creat maxSymlinks (path.start cwd) path.names l b) ∧
      ((fs.entry l = none ∧ ∃ d n, l = d ++ [n] ∧ n.Plain) ∨ (∃ c, fs.entry l = some (.regular c)) ∨
        fs.entry l ≠ none ∧ fs' = fs) := by
  rw [openAt] at h
  split at h
  · cases h
  · rename_i hpath
    obtain ⟨⟨k, b⟩, hwalk, h⟩ := Option.bind_eq_some_iff.mp h
    refine ⟨hpath, ?_⟩
    split at h
    · rename_i hno
      obtain ⟨_, h⟩ := Option.ite_none_right_eq_some.mp h
      obtain ⟨fs₁, hput, heq⟩ := Option.map_eq_some_iff.mp h
      obtain ⟨rfl, -⟩ := Prod.mk.inj heq
      refine ⟨⟨b, FileSystem.walk_eq_some.mp hwalk⟩, .inl ⟨hno, ?_⟩⟩
      rcases List.eq_nil_or_concat' k with rfl | ⟨d, n, rfl⟩
      · cases hput
      · refine ⟨d, n, rfl, (fs₁.plain (l := d) ?_)⟩
        rw [(putAt_made hput).self]
        exact Option.some_ne_none _
    · rename_i content hfile
      obtain ⟨_, h⟩ := Option.ite_none_right_eq_some.mp h
      obtain ⟨_, _, heq⟩ := Option.map_eq_some_iff.mp h
      obtain ⟨rfl, -⟩ := Prod.mk.inj heq
      exact ⟨⟨b, FileSystem.walk_eq_some.mp hwalk⟩, .inr (.inl ⟨content, hfile⟩)⟩
    · cases h
    · cases h
    · rename_i e _ _ _ he
      obtain ⟨_, h⟩ := Option.ite_none_right_eq_some.mp h
      obtain ⟨rfl, rfl⟩ := Prod.mk.inj (Option.some.inj h)
      refine ⟨⟨b, FileSystem.walk_eq_some.mp hwalk⟩, .inr (.inr ⟨?_, rfl⟩)⟩
      rw [he]
      exact Option.some_ne_none e

/-- A missing file is made, and a regular one opened. -/
theorem exists_openAt {sys : System} {fs : FileSystem} {cwd d : Loc} {b : Nat} {n : Name} {path : Path}
    {creat : Bool} (trunc : Bool) (hpath : path ≠ [])
    (hw : FileSystem.Walks fs creat maxSymlinks (path.start cwd) path.names (d ++ [n]) b)
    (hdir : fs.entry d = some .directory) (hn : n.Plain)
    (he : fs.entry (d ++ [n]) = none ∨ ∃ content, fs.entry (d ++ [n]) = some (.regular content))
    (hperm : sys.create (d ++ [n]) = true) :
    ∃ content fs', sys.openAt fs cwd creat trunc path = some (d ++ [n], fs') ∧
      Made fs (d ++ [n]) (.regular content) fs' := by
  rw [openAt, if_neg hpath, hw.walk, Option.bind_some]
  rcases he with he | ⟨content, he⟩
  · obtain ⟨fs', hput⟩ := exists_putAt (.regular []) hdir hn (by rw [he]; exact nofun)
    refine ⟨[], fs', ?_, putAt_made hput⟩
    simp only [he]
    rw [if_pos hperm, hput]
    rfl
  · obtain ⟨fs', hput⟩ := exists_putAt (.regular (if trunc then [] else content)) hdir hn
      (by rw [he]; exact nofun)
    refine ⟨_, fs', ?_, putAt_made hput⟩
    simp only [he]
    rw [if_pos hperm, hput]
    rfl

/-- What `rename` may put the entry `e` over. -/
def replaceable (e : Entry) (dst : Loc) : Bool :=
  match fs.entry dst with
  | none => true
  | some .directory => e = .directory ∧ fs.children dst = []
  | some _ => e ≠ .directory

/-- `rename`: not over what is above or below, and with a slash at an end only for a directory. -/
def renameAt (old new : Path) : Option FileSystem :=
  (fs.place cwd old).bind fun src =>
    (fs.place cwd new).bind fun dst =>
      match fs.entry src, dst.getLast? with
      | some e, some n =>
        if (old.slashed = true ∨ new.slashed = true) ∧ e ≠ .directory then none
        else if src = dst then some fs
        else if h : (fs.entry dst.dropLast = some .directory ∧ n.Plain ∧
            ¬src <+: dst.dropLast ++ [n]) ∧ replaceable fs e dst = true ∧ sys.rename src dst = true then
          some (fs.move src dst.dropLast n h.1.1 h.1.2.1 h.1.2.2)
        else none
      | _, _ => none

/-- The subtree at `src` is at `dst`, and nothing else has changed. -/
structure Moved (fs : FileSystem) (src dst : Loc) (fs' : FileSystem) : Prop where
  new : ∀ r, fs'.entry (dst ++ r) = fs.entry (src ++ r)
  old : ∀ k, ¬dst <+: k → src <+: k → fs'.entry k = none
  other : ∀ k, ¬dst <+: k → ¬src <+: k → fs'.entry k = fs.entry k

theorem renameAt_moved {sys : System} {fs fs' : FileSystem} {cwd : Loc} {old new : Path}
    (h : sys.renameAt fs cwd old new = some fs') :
    ∃ src dst, fs.place cwd old = some src ∧ fs.entry src ≠ none ∧ fs.place cwd new = some dst ∧
      (src = dst ∨ ¬src <+: dst ∧ ∃ e, fs.entry src = some e ∧ replaceable fs e dst = true) ∧
        Moved fs src dst fs' := by
  rw [renameAt] at h
  obtain ⟨src, hsrc, h⟩ := Option.bind_eq_some_iff.mp h
  obtain ⟨dst, hdst, h⟩ := Option.bind_eq_some_iff.mp h
  obtain ⟨q, n, d, b, _, _, _, _, rfl⟩ := FileSystem.place_eq_some.mp hdst
  refine ⟨src, d ++ [n], hsrc, ?_⟩
  cases he : fs.entry src with
  | none =>
    rw [he, List.getLast?_concat] at h
    cases h
  | some e =>
    rw [he, List.getLast?_concat] at h
    simp only at h
    split at h
    · cases h
    · split at h
      · rename_i hsame
        cases h
        refine ⟨Option.some_ne_none e, hdst, .inl hsame, fun r => by rw [hsame], ?_, fun _ _ _ => rfl⟩
        intro k hk hk'
        exact absurd (hsame ▸ hk') hk
      · split at h
        · rename_i hok
          cases h
          have hlast : (d ++ [n]).dropLast = d := List.dropLast_concat
          obtain ⟨⟨hdir, hn, hno⟩, hrep, _⟩ := hok
          refine ⟨Option.some_ne_none e, hdst, .inr ⟨by rwa [hlast] at hno, e, rfl, hrep⟩, ?_⟩
          constructor
          · intro r
            simpa only [hlast] using FileSystem.entry_move_new hdir hn hno r
          · intro k hk hk'
            exact FileSystem.entry_move_old hdir hn hno (by rwa [hlast]) hk'
          · intro k hk hk'
            exact FileSystem.entry_move_other hdir hn hno (by rwa [hlast]) hk'
        · cases h

end System

end LioNet.Lib
