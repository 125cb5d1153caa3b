import LioNet.FSUtil.Mkdir

/-!
# Opening files for writing

`FSUtil::Dirname` and `FSUtil::OpenForWrite`.  When the file cannot be opened, `OpenForWrite` makes the
directory that `Dirname` gives and tries again.  The second try meets either the tree as it was or a new and
empty directory (`Mkdir_fresh`), so it makes the file.

This works for a name that leads to a regular file; and, in the modes that make files, for one that is
missing or a link to a missing name in a directory; and for no other (`opens_iff`).  A link to a place in a missing
directory is not made good, since `Dirname` is where the link is and not where it leads.
-/

namespace LioNet.FSUtil

open Lib FileSystem

/-! ### The code -/

/-- The last place of `c`. -/
def rfind (s : Path) (c : Char) : Option Nat :=
  (s.reverse.findIdx? (· = c)).map fun i => s.length - 1 - i

def Dirname (filename : Path) : Path :=
  if filename = [] then ['.']
  else
    match rfind filename '/' with
    | some 0 => ['/']
    | none => ['.']
    | some pos => filename.take pos

/-- The bits of `std::ios_base::openmode` that matter; an `ofstream` adds `out`. -/
structure OpenMode where
  app : Bool
  trunc : Bool
  input : Bool
  deriving DecidableEq

/-- `O_CREAT` and `O_TRUNC` for a mode, if it is a valid one. -/
def OpenMode.flags (mode : OpenMode) : Option (Bool × Bool) :=
  if mode.app && mode.trunc then none
  else some (mode.app || mode.trunc || !mode.input, mode.trunc || (!mode.app && !mode.input))

section Code

variable (sys : System) (cwd : Loc)

/-- `ofs.open`: a stream is the place of its file, `none` when it is closed.  An open one stays as it is. -/
def openStream (ofs : Option Loc) (filename : Path) (mode : OpenMode) (fs : FileSystem) :
    Option Loc × FileSystem :=
  match ofs, mode.flags with
  | none, some (creat, trunc) =>
    match sys.openAt fs cwd creat trunc filename with
    | some (l, fs') => (some l, fs')
    | none => (none, fs)
  | ofs, _ => (ofs, fs)

def OpenForWrite (ofs : Option Loc) (filename : Path) (mode : OpenMode) (fs : FileSystem) :
    Bool × Option Loc × FileSystem :=
  let r := openStream sys cwd ofs filename mode fs
  if r.1.isSome then (true, r)
  else
    let dir := Dirname filename
    let r' := openStream sys cwd r.1 filename mode (Mkdir sys cwd dir r.2).2
    (r'.1.isSome, r')

end Code

/-! ### Dirname -/

section Dirname

variable {p : Path} {t : Name}

theorem findIdx_noSlash (h : '/' ∉ t) : t.reverse.findIdx? (· = '/') = none := by
  rw [List.findIdx?_eq_none_iff]
  intro c hc
  rw [decide_eq_false_iff_not]
  rintro rfl
  exact h (List.mem_reverse.mp hc)

theorem rfind_append (h : '/' ∉ t) : rfind (p ++ '/' :: t) '/' = some p.length := by
  have hlen : (p ++ '/' :: t).length - 1 - t.length = p.length := by
    rw [List.length_append, List.length_cons]
    omega
  rw [rfind, List.reverse_append, List.reverse_cons, List.append_assoc, List.findIdx?_append,
    findIdx_noSlash h, List.singleton_append, List.findIdx?_cons, if_pos (by decide)]
  simp only [Option.map_some, Option.none_or, Nat.zero_add, List.length_reverse, hlen]

/-- What stands before the last slash, if anything does. -/
theorem Dirname_append (hp : p ≠ []) (h : '/' ∉ t) : Dirname (p ++ '/' :: t) = p := by
  obtain ⟨c, cs, rfl⟩ := List.exists_cons_of_ne_nil hp
  rw [Dirname, if_neg (List.append_ne_nil_of_left_ne_nil hp _), rfind_append h]
  exact List.take_left

theorem Dirname_slash (h : '/' ∉ t) : Dirname ('/' :: t) = ['/'] := by
  have hfind := rfind_append (p := []) h
  rw [List.nil_append] at hfind
  rw [Dirname, if_neg (List.cons_ne_nil _ _), hfind]
  rfl

theorem rfind_noSlash (h : '/' ∉ t) : rfind t '/' = none := by
  rw [rfind, findIdx_noSlash h]
  rfl

theorem Dirname_noSlash (h : '/' ∉ t) : Dirname t = ['.'] := by
  rw [Dirname, rfind_noSlash h]
  split <;> rfl

end Dirname

/-! ### Opening a file -/

section Open

variable {sys : System} {cwd d : Loc} {path : Path} {us : List Name} {t : Name} {mode : OpenMode}
  {creat trunc : Bool} {fs fs' : FileSystem}

theorem openStream_closed : openStream sys cwd none path mode fs =
    match mode.flags with
    | some (creat, trunc) =>
      match sys.openAt fs cwd creat trunc path with
      | some (l, fs') => (some l, fs')
      | none => (none, fs)
    | none => (none, fs) := by
  unfold openStream
  cases mode.flags <;> rfl

/-- Without the directory there is nothing to open. -/
theorem openStream_of_noParent (ht : t.Plain) (hparts : path.parts = us ++ [t])
    (hno : ¬∃ d, fs.Parent cwd path d) : openStream sys cwd none path mode fs = (none, fs) := by
  have hnames : path.names = us.map Path.orDot ++ [t] := by
    rw [Path.names, hparts, List.map_append, List.map_singleton, Path.orDot_of_plain ht]
  rw [openStream_closed]
  cases mode.flags with
  | none => rfl
  | some flags =>
    show (match sys.openAt fs cwd flags.1 flags.2 path with
      | some (l, fs') => (some l, fs')
      | none => (none, fs)) = (none, fs)
    cases hopen : sys.openAt fs cwd flags.1 flags.2 path with
    | none => rfl
    | some r =>
      obtain ⟨_, ⟨b, hw⟩, _⟩ := System.openAt_eq_some hopen
      rw [hnames] at hw
      obtain ⟨d, b₁, hd, hlast⟩ := hw.split (List.cons_ne_nil t [])
      refine absurd ⟨d, ⟨b₁, ?_⟩, hlast.directory (List.cons_ne_nil t [])⟩ hno
      rw [hparts, List.dropLast_concat]
      exact hd

/-- In its directory a missing name can be made. -/
theorem walks_of_parent (ht : t.Plain) (hparts : path.parts = us ++ [t]) (hd : fs.Parent cwd path d)
    (hno : fs.entry (d ++ [t]) = none) :
    ∃ b, Walks fs true maxSymlinks (path.start cwd) path.names (d ++ [t]) b := by
  obtain ⟨⟨b, hw⟩, hdir⟩ := hd
  have hnames : path.names = path.parts.dropLast.map Path.orDot ++ [t] := by
    rw [Path.names, hparts, List.dropLast_concat, List.map_append, List.map_singleton,
      Path.orDot_of_plain ht]
  rw [hnames]
  exact ⟨b, hw.append (.missing hdir ht.ne_dot ht.ne_dotdot hno rfl)⟩

/-- A missing file is made in its directory, and a regular one opened. -/
theorem openStream_of_walks {b : Nat} {n : Name} (hmode : mode.flags = some (creat, trunc))
    (hpath : path ≠ []) (hw : Walks fs creat maxSymlinks (path.start cwd) path.names (d ++ [n]) b)
    (hdir : fs.entry d = some .directory) (hn : n.Plain)
    (he : fs.entry (d ++ [n]) = none ∨ ∃ c, fs.entry (d ++ [n]) = some (.regular c))
    (hperm : sys.create (d ++ [n]) = true) :
    ∃ c fs', openStream sys cwd none path mode fs = (some (d ++ [n]), fs') ∧
      System.Made fs (d ++ [n]) (.regular c) fs' := by
  obtain ⟨c, fs', hopen, hmade⟩ := System.exists_openAt trunc hpath hw hdir hn he hperm
  refine ⟨c, fs', ?_, hmade⟩
  rw [openStream_closed, hmode]
  simp only [hopen]

/-- Writing a file leads no path astray. -/
theorem extends_of_made {l : Loc} {c : List Char}
    (he : fs.entry l = none ∨ ∃ c, fs.entry l = some (.regular c))
    (h : System.Made fs l (.regular c) fs') : Extends fs fs' := by
  intro k e hk
  by_cases hkl : k = l
  · subst hkl
    rcases he with hno | ⟨c', he⟩
    · rw [hno] at hk
      cases hk
    · rw [he] at hk
      exact .inr ⟨c', c, (Option.some.inj hk).symm, h.self⟩
  · exact .inl ((h.other k hkl).trans hk)

end Open

/-! ### What OpenForWrite is for -/

/-- The name of a file: plain names between slashes, and no slash at the end. -/
structure PlainFile where
  path : Path
  parts : ∀ n ∈ path.parts, IsPart n
  last : path.parts.getLast? ≠ some []

/-- Nothing but directories is on the way to the file, and making directories and files is permitted. -/
structure Ready (sys : System) (cwd : Loc) (fs : FileSystem) (filename : Path) : Prop where
  prefixes : ∀ q : Path, q.PrefixOf filename → q ≠ filename → fs.lstat cwd q ≠ none →
    fs.IsDirectory cwd q
  start : fs.entry (filename.start cwd) = some .directory
  mkdir : ∀ l, sys.mkdir l = true
  create : ∀ l, sys.create l = true

/-- A file may be opened under this name: at the end of all links there is a regular file; or, where files
are made, nothing is there, be it under the name itself or where its links lead to in some directory. -/
def Fit (cwd : Loc) (creat : Bool) (fs : FileSystem) (filename : Path) : Prop :=
  (∃ l c, fs.stat cwd filename = some l ∧ fs.entry l = some (.regular c)) ∨
    creat = true ∧ (fs.lstat cwd filename = none ∨ ∃ d n b, n.Plain ∧ fs.entry (d ++ [n]) = none ∧
      Walks fs true maxSymlinks (filename.start cwd) filename.names (d ++ [n]) b)

/-- What `OpenForWrite` gives, from `fs`: true, and a tree where the file is there, in its directories, and
nothing else is new or changed. -/
structure Opens (cwd : Loc) (fs : FileSystem) (filename : Path) (r : Bool × Option Loc × FileSystem) :
    Prop where
  returns : r.1 = true
  file : ∃ l c, r.2.2.stat cwd filename = some l ∧ r.2.2.entry l = some (.regular c)
  ancestors : ∀ q : Path, q.PrefixOf filename → q ≠ filename → r.2.2.IsDirectory cwd q
  others : ∀ k, r.2.2.entry k ≠ fs.entry k → r.2.2.stat cwd filename = some k ∨
    fs.entry k = none ∧ r.2.2.entry k = some .directory ∧
      ∃ q : Path, q.PrefixOf filename ∧ q ≠ filename ∧ r.2.2.place cwd q = some k

section Purpose

variable {sys : System} {cwd d : Loc} {mode : OpenMode} {creat trunc : Bool} {fs fs₁ fs' : FileSystem}
  {us : List Name} {t : Name}

theorem PlainFile.exists_name (p : PlainFile) : ∃ us t, p.path.parts = us ++ [t] ∧ t.Plain := by
  obtain ⟨us, t, hparts⟩ := (List.eq_nil_or_concat' p.path.parts).resolve_left (Path.parts_ne_nil _)
  refine ⟨us, t, hparts, ?_⟩
  have ht := p.parts t (by rw [hparts]; exact List.mem_append_right us List.mem_cons_self)
  refine ht.resolve_left fun hnil => p.last ?_
  rw [hparts, List.getLast?_concat, hnil]

theorem PlainFile.ne_nil (p : PlainFile) : p.path ≠ [] := by
  intro hnil
  have hlast := p.last
  rw [hnil] at hlast
  exact hlast rfl

/-- When the directory of the file is missing, its path is what stands before the last slash. -/
theorem PlainFile.exists_dirname (p : PlainFile)
    (hstart : fs.entry (p.path.start cwd) = some .directory) (hno : ¬∃ d, fs.Parent cwd p.path d) :
    ∃ q t : Path, q ≠ [] ∧ '/' ∉ t ∧ p.path = q ++ '/' :: t := by
  obtain ⟨c, rest, hpath⟩ := List.exists_cons_of_ne_nil p.ne_nil
  have hrest : '/' ∈ rest := by
    by_contra hslash
    rw [hpath] at hstart hno
    exact hno ⟨_, parent_first hslash hstart⟩
  obtain ⟨t, ht, heq | ⟨q, hq⟩⟩ := Path.exists_last rest
  · exact absurd (heq ▸ hrest) ht
  · exact ⟨c :: q, t, List.cons_ne_nil c q, ht, by rw [hpath, hq]; rfl⟩

/-- The directory of the file, once it is there, is below all that leads to it. -/
theorem isDirectory_of_parent {path q : Path} (hd : fs.Parent cwd path d) (hq : q.PrefixOf path)
    (hne : q ≠ path) : fs.IsDirectory cwd q := by
  obtain ⟨t, ht, rfl | ⟨p, rfl⟩⟩ := Path.exists_last path
  · exact absurd (Path.eq_of_prefixOf_noSlash ht hq) hne
  · have hq' := Path.prefixOf_of_ne ht hq hne
    have hp : p ≠ [] := by
      rintro rfl
      obtain ⟨hq₀, heq | ⟨r, hr⟩⟩ := hq'
      · exact hq₀ heq
      · exact absurd hr.symm (List.append_ne_nil_of_left_ne_nil hq₀ _)
    have hstat := (parent_append hp ht).mp hd
    exact IsDirectory.prefixOf ⟨d, hstat⟩ hq'

/-- What is left to say when the file has been made in `fs₁`, where `fs` has got the missing directories. -/
theorem opens_of_made {path : Path} {ofs : Option Loc} {l : Loc} {b : Nat} {c : List Char}
    (hpath : path ≠ []) (hle : fs ≤ fs₁)
    (hnew : ∀ k, fs.entry k = none → fs₁.entry k ≠ none → fs₁.entry k = some .directory ∧
      ∃ q : Path, q.PrefixOf path ∧ q ≠ path ∧ fs₁.place cwd q = some k)
    (hd : fs₁.Parent cwd path d)
    (hw : Walks fs₁ creat maxSymlinks (path.start cwd) path.names l b)
    (he : fs₁.entry l = none ∨ ∃ c, fs₁.entry l = some (.regular c))
    (hmade : System.Made fs₁ l (.regular c) fs') : Opens cwd fs path (true, ofs, fs') := by
  have hext := extends_of_made he hmade
  have hd' := hd.of_extends hext
  have hstat : fs'.stat cwd path = some l :=
    stat_eq_some.mpr ⟨hpath, b, hw.of_file hext hmade.self⟩
  refine ⟨rfl, ⟨_, c, hstat, hmade.self⟩, fun q hq hne => isDirectory_of_parent hd' hq hne, ?_⟩
  intro k hk
  by_cases hkl : k = l
  · rw [hkl]
    exact .inl hstat
  · refine .inr ?_
    show fs.entry k = none ∧ fs'.entry k = some .directory ∧ _
    have hsame : fs'.entry k = fs₁.entry k := hmade.other k hkl
    have hk' : fs₁.entry k ≠ fs.entry k := fun h => hk (hsame.trans h)
    have hno : fs.entry k = none := by
      by_contra hex
      exact hk' (entry_eq_of_le hle hex)
    rw [hno] at hk'
    obtain ⟨hdir, q, hq, hne, hplace⟩ := hnew k hno hk'
    refine ⟨hno, hsame.trans hdir, q, hq, hne, ?_⟩
    exact place_of_extends hext hplace

/-- A name that may be opened leads from the directory of the file to the place where the file is made. -/
theorem Fit.exists_walks {path : Path} (h : Fit cwd creat fs path) (ht : t.Plain)
    (hparts : path.parts = us ++ [t]) (hstart : fs.entry (path.start cwd) = some .directory)
    (hd : fs.Parent cwd path d) :
    ∃ k n b, Walks fs creat maxSymlinks (path.start cwd) path.names (k ++ [n]) b ∧
      fs.entry k = some .directory ∧ n.Plain ∧
        (fs.entry (k ++ [n]) = none ∨ ∃ c, fs.entry (k ++ [n]) = some (.regular c)) := by
  rcases h with ⟨l, c, hl, hc⟩ | ⟨rfl, hnone | ⟨k, n, b, hn, hno, hw⟩⟩
  · obtain ⟨-, b, hw⟩ := stat_eq_some.mp hl
    rcases List.eq_nil_or_concat' l with rfl | ⟨k, n, rfl⟩
    · -- the root is a directory, since there is one
      by_cases hroot : path.start cwd = []
      · rw [hroot, hc] at hstart
        cases hstart
      · have hdir : fs.entry [] = some .directory :=
          directory_of_below hroot (by rw [List.nil_append, hstart]; exact Option.some_ne_none _)
        rw [hc] at hdir
        cases hdir
    · have hne : fs.entry (k ++ [n]) ≠ none := by rw [hc]; exact Option.some_ne_none _
      exact ⟨k, n, b, hw.of_false, fs.closed hne, fs.plain hne, .inr ⟨c, hc⟩⟩
  · have hno : fs.entry (d ++ [t]) = none := by
      by_contra hne
      rw [lstat_of_parent ht hparts hd hne] at hnone
      cases hnone
    obtain ⟨b, hw⟩ := walks_of_parent ht hparts hd hno
    exact ⟨d, t, b, hw, hd.2, ht, .inl hno⟩
  · have hex : fs.entry (path.start cwd) ≠ none := by rw [hstart]; exact Option.some_ne_none _
    obtain hne | ⟨-, k', n', hkn, hdir⟩ := hw.ne_none_or_missing hex
    · exact absurd hno hne
    · rw [← (List.append_inj' hkn rfl).1] at hdir
      exact ⟨k, n, b, hw, hdir, hn, .inl hno⟩

/-- Where the directory of the file is missing, a name that may be opened is missing too. -/
theorem Fit.missing {path : Path} (h : Fit cwd creat fs path) (ht : t.Plain)
    (hparts : path.parts = us ++ [t]) (hno : ¬∃ d, fs.Parent cwd path d) : creat = true := by
  rcases h with ⟨l, c, hl, -⟩ | ⟨hcreat, -⟩
  · obtain ⟨d, hd, -⟩ := parent_of_stat ht hparts hl
    exact absurd ⟨d, hd⟩ hno
  · exact hcreat

/-- Where the directory of the file is missing, `Mkdir` makes it, and it is empty then. -/
theorem PlainFile.exists_fresh (p : PlainFile) (h : Ready sys cwd fs p.path) (ht : t.Plain)
    (hparts : p.path.parts = us ++ [t]) (hparent : ¬∃ d, fs.Parent cwd p.path d) :
    ∃ d fs₁, (Mkdir sys cwd (Dirname p.path) fs).2 = fs₁ ∧ fs ≤ fs₁ ∧ fs₁.Parent cwd p.path d ∧
      fs₁.entry (d ++ [t]) = none ∧
      ∀ k, fs.entry k = none → fs₁.entry k ≠ none → fs₁.entry k = some .directory ∧
        ∃ q : Path, q.PrefixOf p.path ∧ q ≠ p.path ∧ fs₁.place cwd q = some k := by
  obtain ⟨q, s, hq, hs, hpath⟩ := p.exists_dirname h.start hparent
  have hname : p.path.parts = q.parts ++ [s] := by
    rw [hpath, Path.parts_append, Path.parts_of_noSlash hs]
  obtain rfl : s = t := List.singleton_inj.mp (List.append_inj' (hname.symm.trans hparts) rfl).2
  let dir : PlainPath := ⟨q, hq, fun n hn => p.parts n (hname ▸ List.mem_append_left _ hn)⟩
  have hproper : ∀ r : Path, r.PrefixOf q → r.PrefixOf p.path ∧ r ≠ p.path := by
    intro r hr
    refine ⟨hpath ▸ hr.trans (Path.prefixOf_append hq), ?_⟩
    rintro rfl
    have hlen := hr.length_le
    rw [hpath, List.length_append, List.length_cons] at hlen
    omega
  have hnodir : ¬fs.IsDirectory cwd q := by
    rintro ⟨d, hd⟩
    exact hparent ⟨d, hpath ▸ (parent_append hq hs).mpr hd⟩
  have hnew : fs.lstat cwd q = none := by
    by_contra hex
    obtain ⟨hr, hne⟩ := hproper q (.refl hq)
    exact hnodir (h.prefixes q hr hne hex)
  have htruth : TellsTruth sys cwd fs dir.path := tellsTruth fun hex => absurd hnew hex
  obtain ⟨htrue, hmade⟩ := htruth.makes h.mkdir (by
      have hstart := h.start
      rwa [hpath, Path.start_append hq] at hstart)
    fun r hr => h.prefixes r (hproper r hr).1 (hproper r hr).2
  have hfresh := Mkdir_fresh (p := dir) (.inr ht) hnew htrue
  obtain ⟨d, hd, _, hempty⟩ := hfresh.resolve_left fun hsame => hnodir (by
    have hdir := hmade q (.refl hq)
    rwa [hsame] at hdir)
  have hdirname : Dirname p.path = q := by rw [hpath, Dirname_append hq hs]
  refine ⟨d, _, by rw [hdirname], htruth.grows.1, hpath ▸ hd, hempty _, fun k hno hex => ?_⟩
  obtain ⟨hdir, r, hr, hplace⟩ := htruth.grows.2 k hno hex
  exact ⟨hdir, r, (hproper r hr).1, (hproper r hr).2, hplace⟩

theorem opens_of_fit (p : PlainFile) (hmode : mode.flags = some (creat, trunc))
    (h : Ready sys cwd fs p.path) (hfit : Fit cwd creat fs p.path) :
    Opens cwd fs p.path (OpenForWrite sys cwd none p.path mode fs) := by
  obtain ⟨us, t, hparts, ht⟩ := p.exists_name
  by_cases hparent : ∃ d, fs.Parent cwd p.path d
  · -- the directory is there, and so the first try succeeds
    obtain ⟨d, hd⟩ := hparent
    obtain ⟨k, n, b, hw, hdir, hn, he⟩ := hfit.exists_walks ht hparts h.start hd
    obtain ⟨c, fs', hopen, hmade⟩ := openStream_of_walks hmode p.ne_nil hw hdir hn he (h.create _)
    have hrun : OpenForWrite sys cwd none p.path mode fs = (true, some (k ++ [n]), fs') := by
      rw [OpenForWrite]
      simp only [hopen, Option.isSome_some, if_true]
    rw [hrun]
    exact opens_of_made p.ne_nil (le_refl fs) (fun k hno hex => absurd hno hex) hd hw he hmade
  · have hfail : openStream sys cwd none p.path mode fs = (none, fs) :=
      openStream_of_noParent ht hparts hparent
    -- the directory is new and empty, so the second try makes the file
    obtain ⟨d, fs₁, hmkdir, hle, hd, hempty, hnew⟩ := p.exists_fresh h ht hparts hparent
    obtain rfl := hfit.missing ht hparts hparent
    obtain ⟨b, hw⟩ := walks_of_parent ht hparts hd hempty
    obtain ⟨c, fs', hopen, hmade⟩ :=
      openStream_of_walks hmode p.ne_nil hw hd.2 ht (.inl hempty) (h.create _)
    have hrun : OpenForWrite sys cwd none p.path mode fs = (true, some (d ++ [t]), fs') := by
      rw [OpenForWrite]
      simp only [hfail, hmkdir, hopen, Option.isSome_none, Option.isSome_some, Bool.false_eq_true, if_false]
    rw [hrun]
    exact opens_of_made p.ne_nil hle hnew hd hw (.inl hempty) hmade

/-- What an `open` gave a regular file for may be opened. -/
theorem fit_of_openAt {path : Path} {l : Loc} (h : sys.openAt fs cwd creat trunc path = some (l, fs'))
    (hstart : fs.entry (path.start cwd) = some .directory)
    (hfile : ∃ k c, fs'.stat cwd path = some k ∧ fs'.entry k = some (.regular c)) :
    Fit cwd creat fs path := by
  obtain ⟨hpath, ⟨b, hw⟩, ⟨hno, d, n, rfl, hn⟩ | ⟨c, hc⟩ | ⟨hne, rfl⟩⟩ := System.openAt_eq_some h
  · have hex : fs.entry (path.start cwd) ≠ none := by rw [hstart]; exact Option.some_ne_none _
    obtain hne | ⟨rfl, -⟩ := hw.ne_none_or_missing hex
    · exact absurd hno hne
    · exact .inr ⟨rfl, .inr ⟨d, n, b, hn, hno, hw⟩⟩
  · refine .inl ⟨l, c, stat_eq_some.mpr ⟨hpath, b, hw.of_ne_none ?_⟩, hc⟩
    rw [hc]
    exact Option.some_ne_none _
  · exact .inl hfile

/-- The directory of a file, when it is there, is what `Dirname` gives. -/
theorem lstat_Dirname {path : Path} (hstart : fs.entry (path.start cwd) = some .directory)
    (hd : fs.Parent cwd path d) : fs.lstat cwd (Dirname path) ≠ none := by
  obtain ⟨s, hs, rfl | ⟨q, rfl⟩⟩ := Path.exists_last path
  · have hcwd : path.start cwd = cwd := if_neg fun hhead => hs (List.mem_of_mem_head? hhead)
    rw [hcwd] at hstart
    rw [Dirname_noSlash hs]
    have hnames : Path.names ['.'] = [dot] := by decide
    have hdot : fs.stat cwd ['.'] = some cwd :=
      stat_eq_some.mpr ⟨List.cons_ne_nil _ _, maxSymlinks, hnames ▸ .dot hstart (.nil _ _)⟩
    exact lstat_ne_none_of_stat hdot
  · by_cases hq : q = []
    · subst hq
      rw [List.nil_append, Dirname_slash hs]
      have hnames : Path.names ['/'] = [dot, dot] := by decide
      have hroot : fs.stat cwd ['/'] = some [] := stat_eq_some.mpr
        ⟨List.cons_ne_nil _ _, maxSymlinks, hnames ▸ .dot hstart (.dot hstart (.nil _ _))⟩
      exact lstat_ne_none_of_stat hroot
    · rw [Dirname_append hq hs]
      exact lstat_ne_none_of_stat ((parent_append hq hs).mp hd).1

theorem fit_of_opens (p : PlainFile) (hmode : mode.flags = some (creat, trunc))
    (h : Ready sys cwd fs p.path)
    (hopens : Opens cwd fs p.path (OpenForWrite sys cwd none p.path mode fs)) :
    Fit cwd creat fs p.path := by
  obtain ⟨us, t, hparts, ht⟩ := p.exists_name
  have hclosed : ∀ fs', sys.openAt fs' cwd creat trunc p.path = none →
      openStream sys cwd none p.path mode fs' = (none, fs') := by
    intro fs' hnone
    rw [openStream_closed, hmode]
    simp only [hnone]
  cases hopen : sys.openAt fs cwd creat trunc p.path with
  | some r =>
    have hfirst : openStream sys cwd none p.path mode fs = (some r.1, r.2) := by
      rw [openStream_closed, hmode]
      simp only [hopen]
    have hfile := hopens.file
    rw [OpenForWrite] at hfile
    simp only [hfirst, Option.isSome_some, if_true] at hfile
    exact fit_of_openAt hopen h.start hfile
  | none =>
    have hreturns := hopens.returns
    rw [OpenForWrite] at hreturns
    simp only [hclosed fs hopen, Option.isSome_none, Bool.false_eq_true, if_false] at hreturns
    by_cases hparent : ∃ d, fs.Parent cwd p.path d
    · -- there is nothing to make, and the second try fails like the first
      obtain ⟨d, hd⟩ := hparent
      rw [Mkdir_of_exists (lstat_Dirname h.start hd), hclosed fs hopen] at hreturns
      cases hreturns
    · have hnone : fs.lstat cwd p.path = none := by
        by_contra hex
        obtain ⟨d, hd, -⟩ := parent_of_lstat ht hparts hex
        exact hparent ⟨d, hd⟩
      refine .inr ⟨?_, .inl hnone⟩
      cases creat with
      | true => rfl
      | false =>
        obtain ⟨d, fs₁, hmkdir, -, hd, hempty, -⟩ := p.exists_fresh h ht hparts hparent
        rw [hmkdir] at hreturns
        cases hopen' : sys.openAt fs₁ cwd false trunc p.path with
        | none =>
          rw [hclosed fs₁ hopen'] at hreturns
          cases hreturns
        | some r =>
          obtain ⟨hpath, ⟨b, hw⟩, -⟩ := System.openAt_eq_some hopen'
          obtain ⟨k, hk, hne⟩ := parent_of_stat ht hparts (stat_eq_some.mpr ⟨hpath, b, hw⟩)
          rw [hk.unique hd] at hne
          exact absurd hempty hne

/-- **`OpenForWrite` opens what may be opened, whatever directories are missing on the way, and nothing
else.** -/
theorem opens_iff (p : PlainFile) (hmode : mode.flags = some (creat, trunc)) (h : Ready sys cwd fs p.path) :
    Opens cwd fs p.path (OpenForWrite sys cwd none p.path mode fs) ↔ Fit cwd creat fs p.path :=
  ⟨fit_of_opens p hmode h, opens_of_fit p hmode h⟩

/-- A file in a directory that is missing. -/
theorem opens_in_new_directory : Opens [] FileSystem.root ['d', '/', 'f']
    (OpenForWrite System.permissive [] none ['d', '/', 'f'] ⟨true, false, false⟩ FileSystem.root) := by
  refine (opens_iff ⟨['d', '/', 'f'], by decide, by decide⟩ rfl ⟨?_, rfl, fun _ => rfl, fun _ => rfl⟩).mpr
    (.inr ⟨rfl, .inl (by decide)⟩)
  intro q hq hne hex
  have hd : q.PrefixOf ['d'] := Path.prefixOf_of_ne (p := ['d']) (t := ['f']) (by decide) hq hne
  obtain rfl : q = ['d'] := Path.eq_of_prefixOf_noSlash (by decide) hd
  exact absurd (by decide) hex

/-- The root directory with one entry. -/
def holding (n : Name) (e : Entry) (hn : n.Plain) : FileSystem :=
  FileSystem.root.put [] n e FileSystem.root_entry hn (FileSystem.root_entry_ne n)

/-- A link into a missing directory is not opened; a FIFO is, but is no regular file; and in a mode that
reads nothing is made. -/
theorem not_opens_dangling :
    (let fs := holding ['l'] (.symlink false [['m'], ['x']]) (by decide)
     Ready System.permissive [] fs ['l'] ∧ ¬fs.IsDirectory [] ['l'] ∧
        ¬Opens [] fs ['l']
          (OpenForWrite System.permissive [] none ['l'] ⟨false, false, false⟩ fs)) ∧
      (let fs := holding ['p'] .fifo (by decide)
       Ready System.permissive [] fs ['p'] ∧ ¬fs.IsDirectory [] ['p'] ∧
        ¬Opens [] fs ['p']
          (OpenForWrite System.permissive [] none ['p'] ⟨false, false, false⟩ fs)) ∧
      Ready System.permissive [] FileSystem.root ['f'] ∧ ¬FileSystem.root.IsDirectory [] ['f'] ∧
        ¬Opens [] FileSystem.root ['f']
          (OpenForWrite System.permissive [] none ['f'] ⟨false, false, true⟩ FileSystem.root) := by
  have hready : ∀ (fs : FileSystem) (c : Char), '/' ≠ c → fs.entry [] = some .directory →
      Ready System.permissive [] fs [c] := by
    intro fs c hc hroot
    refine ⟨fun q hq hne => ?_, ?_, fun _ => rfl, fun _ => rfl⟩
    · exact absurd (Path.eq_of_prefixOf_noSlash (fun h => hc (List.mem_singleton.mp h)) hq) hne
    · have hstart : Path.start [] [c] = [] := by
        rw [Path.start]
        split <;> rfl
      rw [hstart, hroot]
  refine ⟨⟨hready _ 'l' (by decide) rfl, ?_, ?_⟩, ⟨hready _ 'p' (by decide) rfl, ?_, ?_⟩,
    hready _ 'f' (by decide) rfl, ?_, ?_⟩
  · rintro ⟨l, hl, _⟩
    have hnone : (holding ['l'] (.symlink false [['m'], ['x']]) (by decide)).stat [] ['l'] = none := by
      decide
    rw [hnone] at hl
    cases hl
  · intro h
    exact absurd h.returns (by decide)
  · rintro ⟨l, hl, hdir⟩
    have hsome : (holding ['p'] .fifo (by decide)).stat [] ['p'] = some [['p']] := by decide
    rw [hsome, Option.some_inj] at hl
    rw [← hl] at hdir
    exact absurd hdir (by decide)
  · intro h
    obtain ⟨l, c, hl, hc⟩ := h.file
    have hsome : (OpenForWrite System.permissive [] none ['p'] ⟨false, false, false⟩
        (holding ['p'] .fifo (by decide))).2.2.stat [] ['p'] = some [['p']] := by decide
    rw [hsome, Option.some_inj] at hl
    have hfifo : (OpenForWrite System.permissive [] none ['p'] ⟨false, false, false⟩
        (holding ['p'] .fifo (by decide))).2.2.entry [['p']] = some .fifo := by decide
    rw [← hl, hfifo] at hc
    cases hc
  · rintro ⟨l, hl, _⟩
    have hnone : FileSystem.root.stat [] ['f'] = none := by decide
    rw [hnone] at hl
    cases hl
  · intro h
    exact absurd h.returns (by decide)

end Purpose

end LioNet.FSUtil
