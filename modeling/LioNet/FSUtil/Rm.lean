import LioNet.Lib.SystemCalls

/-!
# Removing trees

`FSUtil::Unlink` and `FSUtil::Rm`.  `Rm` takes for a directory whatever has the bit `S_IFDIR` in its mode,
and sockets and block devices have it too: `opendir` fails there, and they stay.  It also fails for a
directory that may not be read, and even an empty one stays then.

All that a run of `Rm` does is to remove single entries that it reaches below its path (`Rm_spec`).  It
removes everything when each entry may be removed and the path does not lead through what lies below it
(`Rm_of_direct`), and only then does it return true for a path that existed (`direct_of_true`).
-/

namespace LioNet.FSUtil

open Lib FileSystem

/-! ### Modes -/

def S_IFIFO : Nat := 0o010000
def S_IFCHR : Nat := 0o020000
def S_IFDIR : Nat := 0o040000
def S_IFBLK : Nat := 0o060000
def S_IFREG : Nat := 0o100000
def S_IFLNK : Nat := 0o120000
def S_IFSOCK : Nat := 0o140000

/-- The file type in `st_mode`. -/
def st_mode : Entry → Nat
  | .directory => S_IFDIR
  | .regular _ => S_IFREG
  | .symlink _ _ => S_IFLNK
  | .fifo => S_IFIFO
  | .socket => S_IFSOCK
  | .blockDevice => S_IFBLK
  | .charDevice => S_IFCHR

theorem st_mode_eq_zero {e : Entry} :
    st_mode e &&& S_IFDIR = 0 ↔ e ≠ .directory ∧ e ≠ .socket ∧ e ≠ .blockDevice := by
  cases e <;> simp [st_mode, S_IFDIR, S_IFREG, S_IFLNK, S_IFIFO, S_IFSOCK, S_IFBLK, S_IFCHR]

/-! ### Unlink and Rm -/

section Code

variable (sys : System) (cwd : Loc)

def Unlink (filename : Path) (exist : Bool) (fs : FileSystem) : Bool × FileSystem :=
  if exist = false ∧ fs.lstat cwd filename = none then (true, fs)
  else
    match sys.unlinkAt fs cwd filename with
    | some fs' => (true, fs')
    | none => (false, fs)

/-- The loop of `Rm` over what `readdir` gives. -/
def RmEntries (rm : Path → FileSystem → Option (Bool × FileSystem)) (path : Path) :
    List Name → Bool → FileSystem → Option (Bool × FileSystem)
  | [], ret, fs => some (ret, fs)
  | n :: ns, ret, fs =>
    if n = dot ∨ n = dotdot then RmEntries rm path ns ret fs
    else (rm (path.child n) fs).bind fun r => RmEntries rm path ns r.1 r.2

/-- The depth of the recursion is bounded by the fuel; `none` when it runs out. -/
def Rm : Nat → Path → FileSystem → Option (Bool × FileSystem)
  | 0, _, _ => none
  | fuel + 1, path, fs =>
    match (fs.lstat cwd path).bind fs.entry with
    | none => some (true, fs)
    | some st =>
      if st_mode st &&& S_IFDIR = 0 then some (Unlink sys cwd path false fs)
      else
        match sys.opendirAt fs cwd path with
        | none => some (false, fs)
        | some dir =>
          (RmEntries (Rm fuel) path dir true fs).map fun r =>
            match sys.rmdirAt r.2 cwd path with
            | some fs' => (r.1, fs')
            | none => (false, r.2)

end Code

/-! ### The loop -/

section Loop

variable {rm rm' : Path → FileSystem → Option (Bool × FileSystem)} {path : Path} {ns : List Name}
  {ret : Bool} {fs : FileSystem} {r : Bool × FileSystem}

/-- The rule for the loop: `P` speaks of the names still to come. -/
theorem RmEntries_rule {P : List Name → Bool → FileSystem → Prop}
    (hskip : ∀ n ns ret fs, n = dot ∨ n = dotdot → P (n :: ns) ret fs → P ns ret fs)
    (hstep : ∀ n ns ret fs, ¬(n = dot ∨ n = dotdot) → P (n :: ns) ret fs →
      ∃ ret' fs', rm (path.child n) fs = some (ret', fs') ∧ P ns ret' fs')
    (h : P ns ret fs) : ∃ ret' fs', RmEntries rm path ns ret fs = some (ret', fs') ∧ P [] ret' fs' := by
  induction ns generalizing ret fs with
  | nil => exact ⟨ret, fs, rfl, h⟩
  | cons n ns ih =>
    rw [RmEntries]
    by_cases hdots : n = dot ∨ n = dotdot
    · rw [if_pos hdots]
      exact ih (hskip n ns ret fs hdots h)
    · obtain ⟨ret', fs', hrm, hP⟩ := hstep n ns ret fs hdots h
      rw [if_neg hdots, hrm]
      exact ih hP

theorem RmEntries_mono (hrm : ∀ path fs r, rm path fs = some r → rm' path fs = some r)
    (h : RmEntries rm path ns ret fs = some r) : RmEntries rm' path ns ret fs = some r := by
  induction ns generalizing ret fs with
  | nil => exact h
  | cons n ns ih =>
    rw [RmEntries] at h ⊢
    by_cases hdots : n = dot ∨ n = dotdot
    · rw [if_pos hdots] at h ⊢
      exact ih h
    · rw [if_neg hdots] at h ⊢
      obtain ⟨r₁, hr₁, hrest⟩ := Option.bind_eq_some_iff.mp h
      rw [hrm _ _ _ hr₁]
      exact ih hrest

end Loop

/-! ### One call -/

section Call

variable {sys : System} {cwd l : Loc} {fuel : Nat} {path : Path} {fs fs' : FileSystem} {e : Entry}
  {ret : Bool} {n : Name}

theorem Rm_absent (h : fs.lstat cwd path = none) : Rm sys cwd (fuel + 1) path fs = some (true, fs) := by
  rw [Rm, h]
  rfl

theorem Rm_file (h : fs.lstat cwd path = some l) (he : fs.entry l = some e)
    (hmode : st_mode e &&& S_IFDIR = 0) :
    Rm sys cwd (fuel + 1) path fs =
      some (if sys.unlink l = true then (true, fs.cut l) else (false, fs)) := by
  have hdir := entry_ne_directory he (st_mode_eq_zero.mp hmode).1
  have hbind : (fs.lstat cwd path).bind fs.entry = some e := by rw [h]; exact he
  have habsent : ¬(false = false ∧ fs.lstat cwd path = none) := by rw [h]; exact fun h => nomatch h.2
  rw [Rm, hbind]
  simp only [if_pos hmode]
  rw [Unlink, if_neg habsent, System.unlinkAt, h, Option.bind_some]
  by_cases hperm : sys.unlink l = true
  · rw [if_pos ⟨hdir, hperm⟩, if_pos hperm]
  · rw [if_neg fun h => hperm h.2, if_neg hperm]

/-- What only looks like a directory stays, and so does one that cannot be opened. -/
theorem Rm_closed (h : fs.lstat cwd path = some l) (he : fs.entry l = some e)
    (hmode : st_mode e &&& S_IFDIR ≠ 0) (hopen : ¬(e = .directory ∧ sys.opendir l = true)) :
    Rm sys cwd (fuel + 1) path fs = some (false, fs) := by
  have hbind : (fs.lstat cwd path).bind fs.entry = some e := by rw [h]; exact he
  have hlink : ∀ absolute ms, e ≠ .symlink absolute ms := by
    rintro absolute ms rfl
    exact hmode (st_mode_eq_zero.mpr ⟨nofun, nofun, nofun⟩)
  have hnone : sys.opendirAt fs cwd path = none := by
    rw [System.opendirAt_of_stat (stat_of_lstat h he hlink), he,
      if_neg fun h => hopen ⟨Option.some.inj h.1, h.2⟩]
  rw [Rm, hbind]
  simp only [if_neg hmode, hnone]

theorem Rm_directory (h : fs.lstat cwd path = some l) (hdir : fs.entry l = some .directory)
    (hopen : sys.opendir l = true) :
    Rm sys cwd (fuel + 1) path fs =
      (RmEntries (Rm sys cwd fuel) path (sys.readdir fs l) true fs).map fun r =>
        match sys.rmdirAt r.2 cwd path with
        | some fs' => (r.1, fs')
        | none => (false, r.2) := by
  have hbind : (fs.lstat cwd path).bind fs.entry = some .directory := by rw [h]; exact hdir
  have hmode : ¬st_mode .directory &&& S_IFDIR = 0 := by decide
  have hsome : sys.opendirAt fs cwd path = some (sys.readdir fs l) := by
    rw [System.opendirAt_of_stat (stat_of_lstat_directory h hdir), if_pos ⟨hdir, hopen⟩]
  rw [Rm, hbind]
  simp only [if_neg hmode, hsome]

/-- What `rmdir` takes away is the place of the path. -/
theorem place_eq {fs₁ : FileSystem} {k : Loc} (hl : fs.lstat cwd path = some l)
    (hdir : fs.entry l = some .directory) (hle : fs₁ ≤ fs) (hk : fs₁.place cwd path = some k)
    (hkdir : fs₁.entry k = some .directory) : k = l := by
  have hstat := stat_mono hle (stat_of_place hk hkdir)
  rw [stat_of_lstat_directory hl hdir] at hstat
  exact (Option.some.inj hstat).symm

/-- The end of a call on a directory, after a loop that left `fs₁`. -/
theorem Rm_directory_cases {fs₁ : FileSystem} {ret₁ : Bool} (hl : fs.lstat cwd path = some l)
    (hdir : fs.entry l = some .directory) (hopen : sys.opendir l = true) (hle : fs₁ ≤ fs)
    (hloop : RmEntries (Rm sys cwd fuel) path (sys.readdir fs l) true fs = some (ret₁, fs₁))
    (hrun : Rm sys cwd (fuel + 1) path fs = some (ret, fs')) :
    (sys.rmdirAt fs₁ cwd path = none ∧ ret = false ∧ fs' = fs₁) ∨
      (fs₁.place cwd path = some l ∧ fs₁.entry l = some .directory ∧ (∀ n, fs₁.entry (l ++ [n]) = none) ∧
        sys.rmdir l = true ∧ ret = ret₁ ∧ fs' = fs₁.cut l) := by
  rw [Rm_directory hl hdir hopen, hloop, Option.map_some, Option.some_inj] at hrun
  cases hrmdir : sys.rmdirAt fs₁ cwd path with
  | none =>
    simp only [hrmdir] at hrun
    obtain ⟨rfl, rfl⟩ := Prod.mk.inj hrun
    exact .inl ⟨rfl, rfl, rfl⟩
  | some fs₂ =>
    simp only [hrmdir] at hrun
    obtain ⟨rfl, rfl⟩ := Prod.mk.inj hrun
    obtain ⟨k, hplace, hkdir, hno, hperm, hcut⟩ := System.rmdirAt_eq_some.mp hrmdir
    obtain rfl := place_eq hl hdir hle hplace hkdir
    exact .inr ⟨hplace, hkdir, hno, hperm, rfl, hcut⟩

/-- More fuel changes nothing. -/
theorem Rm_mono {r : Bool × FileSystem} (h : Rm sys cwd fuel path fs = some r) :
    Rm sys cwd (fuel + 1) path fs = some r := by
  induction fuel generalizing path fs r with
  | zero => cases h
  | succ fuel ih =>
    cases hl : fs.lstat cwd path with
    | none =>
      rw [Rm_absent hl] at h ⊢
      exact h
    | some l =>
      obtain ⟨e, he⟩ := Option.ne_none_iff_exists'.mp (entry_of_lstat hl)
      by_cases hmode : st_mode e &&& S_IFDIR = 0
      · rw [Rm_file hl he hmode] at h ⊢
        exact h
      · by_cases hopen : e = .directory ∧ sys.opendir l = true
        · obtain ⟨rfl, hopen⟩ := hopen
          rw [Rm_directory hl he hopen] at h ⊢
          obtain ⟨r₁, hloop, hr⟩ := Option.map_eq_some_iff.mp h
          rw [RmEntries_mono (fun _ _ _ hrm => ih hrm) hloop, Option.map_some, hr]
        · rw [Rm_closed hl he hmode hopen] at h ⊢
          exact h

/-- Enough fuel for the path: the tree is no deeper. -/
structure Enough (fuel : Nat) (fs : FileSystem) (cwd : Loc) (path : Path) : Prop where
  pos : 0 < fuel
  depth : ∀ l, fs.lstat cwd path = some l → fs.depth < fuel + l.length

theorem Enough.of_depth (h : fs.depth < fuel) : Enough fuel fs cwd path :=
  ⟨by omega, fun _ _ => by omega⟩

/-- In the directory `l` of the path, a name stands for its entry there. -/
theorem lstat_child_eq {fs₁ : FileSystem} {k : Loc} (hl : fs.lstat cwd path = some l)
    (hdir : fs.entry l = some .directory) (hle : fs₁ ≤ fs) (hn : n.Plain)
    (hk : fs₁.lstat cwd (path.child n) = some k) : k = l ++ [n] := by
  have hstat := stat_of_lstat_directory hl hdir
  obtain ⟨d, hd, _, hkd, _⟩ :=
    (lstat_child (stat_eq_some.mp hstat).1 hn).mp hk
  have hld : some l = some d := hstat.symm.trans (stat_mono hle hd)
  rw [hkd, Option.some.inj hld]

end Call

/-! ### What a run removes -/

/-- The calls of `Rm` take the entry away, once nothing is below it. -/
def Removable (sys : System) (l : Loc) (e : Entry) : Prop :=
  if e = .directory then sys.opendir l = true ∧ sys.rmdir l = true
  else st_mode e &&& S_IFDIR = 0 ∧ sys.unlink l = true

/-- `k` is at or below `l`, and all directories on the way can be opened. -/
structure Reaches (sys : System) (l k : Loc) : Prop where
  below : l <+: k
  opens : ∀ d, l <+: d → d <+: k → d ≠ k → sys.opendir d = true

/-- Removable, and reached from `l`. -/
def RemovableIn (sys : System) (l k : Loc) (e : Entry) : Prop := Reaches sys l k ∧ Removable sys k e

/-- Removable, and reached from `l` through its entries. -/
def RemovableUnder (sys : System) (l k : Loc) (e : Entry) : Prop := RemovableIn sys l k e ∧ k ≠ l

section Run

variable {sys : System} {cwd l : Loc} {fuel : Nat} {path : Path} {fs fs₁ : FileSystem} {e : Entry}
  {n : Name}

/-- What an entry of an opened directory reaches, the directory reaches. -/
theorem Reaches.of_child {k : Loc} (hopen : sys.opendir l = true) (h : Reaches sys (l ++ [n]) k) :
    Reaches sys l k where
  below := (List.prefix_append l [n]).trans h.below
  opens d hld hdk hne := by
    rcases List.prefix_or_prefix_of_prefix hdk h.below with hd | hd
    · rcases List.prefix_concat_iff.mp hd with rfl | hdl
      · exact h.opens _ List.prefix_rfl hdk hne
      · rw [hdl.eq_of_length (Nat.le_antisymm hdl.length_le hld.length_le)]
        exact hopen
    · exact h.opens d hd hdk hne

theorem Reaches.child {k : Loc} (h : Reaches sys l k) (hk : l ++ [n] <+: k) : Reaches sys (l ++ [n]) k :=
  ⟨hk, fun d hd => h.opens d ((List.prefix_append l [n]).trans hd)⟩

theorem Reaches.refl (sys : System) (l : Loc) : Reaches sys l l := by
  refine ⟨List.prefix_rfl, fun d hld hdl hne => absurd ?_ hne⟩
  exact hdl.eq_of_length (Nat.le_antisymm hdl.length_le hld.length_le)

/-- The directory itself stays while its entries go. -/
theorem not_removableUnder_self : ¬RemovableUnder sys l l e := fun h => h.2 rfl

/-- A call returns, and removes nothing but what is removable below its path. -/
def Specified (sys : System) (cwd : Loc) (fuel : Nat) : Prop :=
  ∀ path fs, Enough fuel fs cwd path → ∃ ret fs', Rm sys cwd fuel path fs = some (ret, fs') ∧
    (fs.lstat cwd path = none → ret = true ∧ fs' = fs) ∧
      ∀ l, fs.lstat cwd path = some l → Removals (RemovableIn sys l) fs fs'

/-- The call for the entry `n` of the directory `l`, when some other entries have gone. -/
theorem Specified.child (hspec : Specified sys cwd fuel) (henough : Enough (fuel + 1) fs cwd path)
    (hl : fs.lstat cwd path = some l) (hdir : fs.entry l = some .directory) (hle : fs₁ ≤ fs)
    (hsupport : fs₁.support = fs.support) (hn : fs.entry (l ++ [n]) ≠ none) :
    Enough fuel fs₁ cwd (path.child n) ∧
      ∃ ret fs', Rm sys cwd fuel (path.child n) fs₁ = some (ret, fs') ∧
        (fs₁.lstat cwd (path.child n) = none → ret = true ∧ fs' = fs₁) ∧
        Removals (RemovableIn sys (l ++ [n])) fs₁ fs' := by
  have hplain := fs.plain hn
  have hlen := length_le_depth hn
  rw [List.length_append, List.length_singleton] at hlen
  have hdepth := henough.depth l hl
  have hchild : Enough fuel fs₁ cwd (path.child n) := by
    constructor
    · omega
    · intro k hk
      rw [lstat_child_eq hl hdir hle hplain hk, depth_congr hsupport, List.length_append,
        List.length_singleton]
      omega
  obtain ⟨ret, fs', hrun, habsent, hremovals⟩ := hspec _ _ hchild
  refine ⟨hchild, ret, fs', hrun, habsent, ?_⟩
  cases hk : fs₁.lstat cwd (path.child n) with
  | none =>
    rw [(habsent hk).2]
    exact .refl fs₁
  | some k =>
    rw [← lstat_child_eq hl hdir hle hplain hk]
    exact hremovals k hk

/-- What holds in the loop of a call on the directory `l`, with the names `ns` still to come. -/
structure Sweeping (sys : System) (fs : FileSystem) (l : Loc) (ns : List Name) (fs₁ : FileSystem) :
    Prop where
  exist : ∀ n ∈ ns, ¬(n = dot ∨ n = dotdot) → fs.entry (l ++ [n]) ≠ none
  removals : Removals (RemovableUnder sys l) fs fs₁

/-- The rule for the loop of a call on a directory: `P` speaks of the names still to come. -/
theorem Specified.loop (hspec : Specified sys cwd fuel) (henough : Enough (fuel + 1) fs cwd path)
    (hl : fs.lstat cwd path = some l) (hdir : fs.entry l = some .directory)
    (hopen : sys.opendir l = true) {P : List Name → Bool → FileSystem → Prop} (hinit : P (sys.readdir fs l) true fs)
    (hskip : ∀ n ns ret fs₁, n = dot ∨ n = dotdot → P (n :: ns) ret fs₁ → P ns ret fs₁)
    (hstep : ∀ n ns ret fs₁ ret' fs', n.Plain → fs.entry (l ++ [n]) ≠ none →
      Removals (RemovableUnder sys l) fs fs₁ → P (n :: ns) ret fs₁ →
      Enough fuel fs₁ cwd (path.child n) → Rm sys cwd fuel (path.child n) fs₁ = some (ret', fs') →
      (fs₁.lstat cwd (path.child n) = none → ret' = true ∧ fs' = fs₁) →
      Removals (RemovableIn sys (l ++ [n])) fs₁ fs' → P ns ret' fs') :
    ∃ ret₁ fs₁, RmEntries (Rm sys cwd fuel) path (sys.readdir fs l) true fs = some (ret₁, fs₁) ∧
      Removals (RemovableUnder sys l) fs fs₁ ∧ P [] ret₁ fs₁ := by
  suffices hloop : ∃ ret₁ fs₁,
      RmEntries (Rm sys cwd fuel) path (sys.readdir fs l) true fs = some (ret₁, fs₁) ∧
        Sweeping sys fs l [] fs₁ ∧ P [] ret₁ fs₁ by
    obtain ⟨ret₁, fs₁, hrun, hsweep, hP⟩ := hloop
    exact ⟨ret₁, fs₁, hrun, hsweep.removals, hP⟩
  refine RmEntries_rule (P := fun ns ret fs₁ => Sweeping sys fs l ns fs₁ ∧ P ns ret fs₁) ?_ ?_
    ⟨⟨fun _ => System.mem_readdir, .refl fs⟩, hinit⟩
  · intro n ns ret fs₁ hdots h
    exact ⟨⟨fun m hm => h.1.exist m (List.mem_cons_of_mem n hm), h.1.removals⟩,
      hskip n ns ret fs₁ hdots h.2⟩
  · intro n ns ret fs₁ hdots h
    obtain ⟨hsweep, hP⟩ := h
    have hn := hsweep.exist n List.mem_cons_self hdots
    obtain ⟨hchild, ret', fs', hrun, habsent, hnext⟩ :=
      hspec.child henough hl hdir hsweep.removals.le hsweep.removals.support hn
    have hunder : Removals (RemovableUnder sys l) fs₁ fs' := by
      refine hnext.weaken fun k e h => ⟨⟨h.1.of_child hopen, h.2⟩, ?_⟩
      rintro rfl
      exact not_snoc_above k n h.1.below
    exact ⟨ret', fs', hrun,
      ⟨fun m hm => hsweep.exist m (List.mem_cons_of_mem n hm), hsweep.removals.trans hunder⟩,
      hstep n ns ret fs₁ ret' fs' (fs.plain hn) hn hsweep.removals hP hchild hrun habsent hnext⟩

/-- **Every call returns, and all it does is to remove entries at and below its path.** -/
theorem Rm_spec (sys : System) (cwd : Loc) (fuel : Nat) : Specified sys cwd fuel := by
  induction fuel with
  | zero =>
    intro path fs henough
    exact absurd henough.pos (by omega)
  | succ fuel ih =>
    intro path fs henough
    cases hl : fs.lstat cwd path with
    | none => exact ⟨true, fs, Rm_absent hl, fun _ => ⟨rfl, rfl⟩, fun _ h => by cases h⟩
    | some l =>
      obtain ⟨e, he⟩ := Option.ne_none_iff_exists'.mp (entry_of_lstat hl)
      by_cases hmode : st_mode e &&& S_IFDIR = 0
      · have hdir : e ≠ .directory := (st_mode_eq_zero.mp hmode).1
        have hbelow : ∀ n, fs.entry (l ++ [n]) = none := fun n =>
          none_below (entry_ne_directory he hdir) (List.cons_ne_nil n [])
        by_cases hperm : sys.unlink l = true
        · refine ⟨true, fs.cut l, by rw [Rm_file hl he hmode, if_pos hperm], (fun h => by cases h), ?_⟩
          intro k hk
          obtain rfl := Option.some.inj hk
          refine .single he ⟨.refl sys l, ?_⟩ hbelow
          rw [Removable, if_neg hdir]
          exact ⟨hmode, hperm⟩
        · exact ⟨false, fs, by rw [Rm_file hl he hmode, if_neg hperm], (fun h => by cases h),
            fun _ _ => .refl fs⟩
      · by_cases hopen : e = .directory ∧ sys.opendir l = true
        · obtain ⟨rfl, hopen⟩ := hopen
          obtain ⟨ret₁, fs₁, hloop, hremovals, _⟩ := ih.loop henough hl he hopen (P := fun _ _ _ => True)
            trivial (fun _ _ _ _ _ _ => trivial) (fun _ _ _ _ _ _ _ _ _ _ _ _ _ _ => trivial)
          have hin := hremovals.weaken fun _ _ h => h.1
          obtain ⟨ret, fs', hrun⟩ : ∃ ret fs', Rm sys cwd (fuel + 1) path fs = some (ret, fs') := by
            rw [Rm_directory hl he hopen, hloop]
            exact ⟨_, _, rfl⟩
          refine ⟨ret, fs', hrun, (fun h => by cases h), fun k hk => ?_⟩
          obtain rfl := Option.some.inj hk
          rcases Rm_directory_cases hl he hopen hremovals.le hloop hrun with
            ⟨_, _, rfl⟩ | ⟨_, hdir₁, hno, hperm, _, rfl⟩
          · exact hin
          · refine hin.trans (.single hdir₁ ⟨.refl sys l, ?_⟩ hno)
            rw [Removable, if_pos rfl]
            exact ⟨hopen, hperm⟩
        · exact ⟨false, fs, Rm_closed hl he hmode hopen, (fun h => by cases h), fun _ _ => .refl fs⟩

/-- **A path that existed is removed with true only if everything at and below it could be removed, and
the path leads there when nothing is below it any more.** -/
theorem direct_of_true {fs' : FileSystem} (henough : Enough fuel fs cwd path)
    (hl : fs.lstat cwd path = some l) (hrun : Rm sys cwd fuel path fs = some (true, fs')) :
    (fs.prune l).place cwd path = some l ∧
      ∀ k e, l <+: k → fs.entry k = some e → Removable sys k e := by
  obtain ⟨e, he⟩ := Option.ne_none_iff_exists'.mp (entry_of_lstat hl)
  cases fuel with
  | zero => cases hrun
  | succ fuel =>
    by_cases hopen : e = .directory ∧ sys.opendir l = true
    · obtain ⟨rfl, hopen⟩ := hopen
      obtain ⟨ret₁, fs₁, hloop, hremovals, _⟩ := (Rm_spec sys cwd fuel).loop henough hl he hopen
        (P := fun _ _ _ => True) trivial (fun _ _ _ _ _ _ => trivial)
        (fun _ _ _ _ _ _ _ _ _ _ _ _ _ _ => trivial)
      rcases Rm_directory_cases hl he hopen hremovals.le hloop hrun with
        ⟨_, hfalse, _⟩ | ⟨hplace, _, hno, hperm, _, _⟩
      · cases hfalse
      · refine ⟨place_mono (le_prune hremovals.le hno) hplace, ?_⟩
        rintro j e' ⟨r, rfl⟩ he'
        cases r with
        | nil =>
          rw [List.append_nil, he] at he'
          obtain rfl := Option.some.inj he'
          rw [List.append_nil, Removable, if_pos rfl]
          exact ⟨hopen, hperm⟩
        | cons n r =>
          -- it has gone, so it was removed
          by_contra hrem
          have hstays := hremovals.keeps he' fun h => hrem h.1.2
          rw [none_under (hno n) (snoc_above l n r)] at hstays
          cases hstays
    · by_cases hmode : st_mode e &&& S_IFDIR = 0
      · have hdir := (st_mode_eq_zero.mp hmode).1
        have hnodir := entry_ne_directory he hdir
        have hbelow : ∀ n, fs.entry (l ++ [n]) = none := fun n =>
          none_below hnodir (List.cons_ne_nil n [])
        rw [Rm_file hl he hmode, Option.some_inj] at hrun
        by_cases hperm : sys.unlink l = true
        · refine ⟨place_mono (le_prune (le_refl fs) hbelow) (place_of_lstat hl hnodir), ?_⟩
          rintro j e' ⟨r, rfl⟩ he'
          cases r with
          | nil =>
            rw [List.append_nil, he] at he'
            obtain rfl := Option.some.inj he'
            rw [List.append_nil, Removable, if_neg hdir]
            exact ⟨hmode, hperm⟩
          | cons n r =>
            rw [none_below hnodir (List.cons_ne_nil n r)] at he'
            cases he'
        · rw [if_neg hperm] at hrun
          cases hrun
      · rw [Rm_closed hl he hmode hopen] at hrun
        cases hrun

/-- With a path that leads to `l` whatever is below it, a name in `l` leads to its entry. -/
theorem direct_child (hdir : fs.entry l = some .directory)
    (hdirect : (fs.prune l).place cwd path = some l) (hle : fs.prune l ≤ fs₁) (hn : n.Plain) :
    (fs₁.prune (l ++ [n])).place cwd (path.child n) = some (l ++ [n]) ∧
      (fs₁.entry (l ++ [n]) ≠ none → fs₁.lstat cwd (path.child n) = some (l ++ [n])) := by
  have hpdir : (fs.prune l).entry l = some .directory := by rw [entry_prune_self, hdir]
  have hstat := stat_of_place hdirect hpdir
  have hpath := (stat_eq_some.mp hstat).1
  constructor
  · have hle' : fs.prune l ≤ fs₁.prune (l ++ [n]) := by
      refine le_prune hle fun m => entry_prune_below ?_ ?_
      · rw [List.append_assoc]
        exact List.prefix_append l _
      · intro h
        have hlen := congrArg List.length h
        rw [List.append_assoc, List.length_append, List.length_append] at hlen
        simp only [List.length_singleton] at hlen
        omega
    exact (place_child hpath hn).mpr ⟨l, stat_mono hle' hstat, hle' _ _ hpdir, rfl⟩
  · intro hne
    exact (lstat_child hpath hn).mpr ⟨l, stat_mono hle hstat, hle _ _ hpdir, rfl, hne⟩

/-- What is left of the tree has the places above and beside `l`. -/
theorem prune_le_of_removals {q : Loc → Entry → Prop} (h : Removals q fs fs₁)
    (hq : ∀ k e, q k e → l <+: k ∧ k ≠ l) : fs.prune l ≤ fs₁ := by
  intro k e he
  refine h.keeps (prune_le fs l k e he) fun hk => ?_
  obtain ⟨hpre, hne⟩ := hq k e hk
  rw [entry_prune_below hpre hne] at he
  cases he

theorem RemovableUnder.below {k : Loc} (h : RemovableUnder sys l k e) : l <+: k ∧ k ≠ l :=
  ⟨h.1.1.below, h.2⟩

/-- **Where the path leads to `l` whatever is below it and everything may be removed, everything is.** -/
theorem Rm_of_direct (henough : Enough fuel fs cwd path) (hl : fs.lstat cwd path = some l)
    (hdirect : (fs.prune l).place cwd path = some l)
    (hrem : ∀ k e, l <+: k → fs.entry k = some e → Removable sys k e) :
    Rm sys cwd fuel path fs = some (true, fs.cut l) := by
  induction fuel generalizing path fs l with
  | zero => exact absurd henough.pos (by omega)
  | succ fuel ih =>
    obtain ⟨e, he⟩ := Option.ne_none_iff_exists'.mp (entry_of_lstat hl)
    have hself := hrem l e List.prefix_rfl he
    by_cases hdir : e = .directory
    · subst hdir
      rw [Removable, if_pos rfl] at hself
      obtain ⟨hopen, hperm⟩ := hself
      -- true so far, and all that is left in the directory is still to come
      let P : List Name → Bool → FileSystem → Prop := fun ns ret fs₁ =>
        ret = true ∧ ∀ m, fs₁.entry (l ++ [m]) ≠ none → m ∈ ns
      have hskip : ∀ n ns ret fs₁, n = dot ∨ n = dotdot → P (n :: ns) ret fs₁ → P ns ret fs₁ := by
        intro n ns ret fs₁ hdots h
        refine ⟨h.1, fun m hm => (List.mem_cons.mp (h.2 m hm)).resolve_left ?_⟩
        rintro rfl
        exact (fs₁.plain hm).not_dots hdots
      obtain ⟨ret₁, fs₁, hloop, hremovals, rfl, hleft⟩ := (Rm_spec sys cwd fuel).loop henough hl he hopen
        (P := P) ⟨rfl, fun _ => System.readdir_complete⟩ hskip fun n ns ret fs₁ ret' fs' hn hex hremovals h
          hchild hrun habsent hnext => by
        have hprune := prune_le_of_removals hremovals fun _ _ => RemovableUnder.below
        obtain ⟨hdirect', hlstat⟩ := direct_child he hdirect hprune hn
        have hgone : ret' = true ∧ fs'.entry (l ++ [n]) = none := by
          by_cases hne : fs₁.entry (l ++ [n]) = none
          · have hnone : fs₁.lstat cwd (path.child n) = none := by
              cases hk : fs₁.lstat cwd (path.child n) with
              | none => rfl
              | some k =>
                obtain rfl := lstat_child_eq hl he hremovals.le hn hk
                exact absurd hne (entry_of_lstat hk)
            obtain ⟨hret, rfl⟩ := habsent hnone
            exact ⟨hret, hne⟩
          · have hremoved := ih hchild (hlstat hne) hdirect' fun k e hk he' =>
              hrem k e ((List.prefix_append l [n]).trans hk) (hremovals.le k e he')
            rw [hremoved] at hrun
            obtain ⟨rfl, rfl⟩ := Prod.mk.inj (Option.some.inj hrun)
            exact ⟨rfl, entry_cut_under List.prefix_rfl⟩
        refine ⟨hgone.1, fun m hm => ?_⟩
        refine (List.mem_cons.mp (h.2 m (ne_none_of_le hnext.le hm))).resolve_left ?_
        rintro rfl
        exact hm hgone.2
      have hprune := prune_le_of_removals hremovals fun _ _ => RemovableUnder.below
      have hno : ∀ m, fs₁.entry (l ++ [m]) = none := fun m =>
        by_contra fun hne => List.not_mem_nil (hleft m hne)
      have hdir₁ : fs₁.entry l = some .directory := hprune _ _ (by rw [entry_prune_self, he])
      have hrmdir : sys.rmdirAt fs₁ cwd path = some (fs₁.cut l) :=
        System.rmdirAt_eq_some.mpr ⟨l, place_mono hprune hdirect, hdir₁, hno, hperm, rfl⟩
      rw [Rm_directory hl he hopen, hloop, Option.map_some]
      simp only [hrmdir]
      rw [cut_eq_cut hremovals.le hprune hremovals.support]
    · rw [Removable, if_neg hdir] at hself
      rw [Rm_file hl he hself.1, if_pos hself.2]

/-- **Where the path leads to `l` whatever is below it, false means that it is still there.** -/
theorem exists_of_false {fs' : FileSystem} (henough : Enough fuel fs cwd path)
    (hl : fs.lstat cwd path = some l) (hdirect : (fs.prune l).place cwd path = some l)
    (hrun : Rm sys cwd fuel path fs = some (false, fs')) : fs'.entry l ≠ none := by
  induction fuel generalizing path fs l fs' with
  | zero => cases hrun
  | succ fuel ih =>
    have hne := entry_of_lstat hl
    obtain ⟨e, he⟩ := Option.ne_none_iff_exists'.mp hne
    by_cases hopen : e = .directory ∧ sys.opendir l = true
    · obtain ⟨rfl, hopen⟩ := hopen
      -- the last false is the one that counts, and its entry is still there
      obtain ⟨ret₁, fs₁, hloop, hremovals, hleft⟩ := (Rm_spec sys cwd fuel).loop henough hl he hopen
        (P := fun _ ret fs₁ => ret = false → ∃ m, fs₁.entry (l ++ [m]) ≠ none)
        (fun h => by cases h) (fun _ _ _ _ _ h => h) fun n ns ret fs₁ ret' fs₂ hn hex hremovals h
          hchild hrun' habsent hnext hret => by
        subst hret
        have hprune := prune_le_of_removals hremovals fun _ _ => RemovableUnder.below
        obtain ⟨hdirect', _⟩ := direct_child he hdirect hprune hn
        cases hk : fs₁.lstat cwd (path.child n) with
        | none => exact absurd (habsent hk).1 (by decide)
        | some k =>
          obtain rfl := lstat_child_eq hl he hremovals.le hn hk
          exact ⟨n, ih hchild hk hdirect' hrun'⟩
      rcases Rm_directory_cases hl he hopen hremovals.le hloop hrun with
        ⟨_, _, rfl⟩ | ⟨_, _, hno, _, rfl, _⟩
      · rw [hremovals.keeps he not_removableUnder_self]
        exact Option.some_ne_none _
      · obtain ⟨m, hm⟩ := hleft rfl
        exact absurd (hno m) hm
    · by_cases hmode : st_mode e &&& S_IFDIR = 0
      · rw [Rm_file hl he hmode, Option.some_inj] at hrun
        by_cases hperm : sys.unlink l = true
        · rw [if_pos hperm] at hrun
          cases hrun
        · rw [if_neg hperm] at hrun
          obtain ⟨-, rfl⟩ := Prod.mk.inj hrun
          exact hne
      · rw [Rm_closed hl he hmode hopen, Option.some_inj] at hrun
        obtain ⟨-, rfl⟩ := Prod.mk.inj hrun
        exact hne

theorem Rm_of_le {fuel' : Nat} {r : Bool × FileSystem} (hle : fuel ≤ fuel')
    (h : Rm sys cwd fuel path fs = some r) : Rm sys cwd fuel' path fs = some r := by
  induction hle with
  | refl => exact h
  | step _ ih => exact Rm_mono ih

/-- A run, with any fuel that is enough. -/
theorem exists_run (sys : System) (cwd : Loc) (path : Path) (fs : FileSystem) :
    ∃ ret fs', (∀ fuel, fs.depth < fuel → Rm sys cwd fuel path fs = some (ret, fs')) ∧
      (fs.lstat cwd path = none → ret = true ∧ fs' = fs) ∧
        ∀ l, fs.lstat cwd path = some l → Removals (RemovableIn sys l) fs fs' := by
  obtain ⟨ret, fs', hrun, hspec⟩ :=
    Rm_spec sys cwd (fs.depth + 1) path fs (.of_depth (Nat.lt_succ_self _))
  exact ⟨ret, fs', fun fuel hfuel => Rm_of_le hfuel hrun, hspec⟩

end Run

/-! ### What Rm is for -/

/-- The path stands for `k`, or for a place above it. -/
def Within (fs : FileSystem) (cwd : Loc) (path : Path) (k : Loc) : Prop :=
  ∃ l, fs.lstat cwd path = some l ∧ l <+: k

/-- Where no `unlink` and no `rmdir` is forbidden, `Rm` removes the path with all that lies below it and
nothing else; and whatever is forbidden, it returns false just when the path is still there.  `opens` says
which directories can be opened. -/
def Removes (opens : Loc → Bool) (cwd : Loc) (fs : FileSystem) (path : Path) : Prop :=
  ∀ sys : System, sys.opendir = opens →
    ∃ ret fs', (∀ fuel, fs.depth < fuel → Rm sys cwd fuel path fs = some (ret, fs')) ∧
      ((∀ l, sys.unlink l = true) → (∀ l, sys.rmdir l = true) → ret = true ∧
        (∀ k, Within fs cwd path k → fs'.entry k = none) ∧
          ∀ k, ¬Within fs cwd path k → fs'.entry k = fs.entry k) ∧
      (ret = false ↔ fs'.lstat cwd path ≠ none)

/-- At and below the path is no socket, no block device and no directory that cannot be opened, and its
way does not lead through what lies below it. -/
def Clear (opens : Loc → Bool) (cwd : Loc) (fs : FileSystem) (path : Path) : Prop :=
  ∀ l, fs.lstat cwd path = some l → (fs.prune l).place cwd path = some l ∧
    ∀ k, l <+: k → fs.entry k ≠ some .socket ∧ fs.entry k ≠ some .blockDevice ∧
      (fs.entry k = some .directory → opens k = true)

section Purpose

variable {sys : System} {opens : Loc → Bool} {cwd l : Loc} {path : Path} {fs fs' : FileSystem} {ret : Bool}

theorem removable_of_permitted {k : Loc} {e : Entry} (hunlink : ∀ l, sys.unlink l = true)
    (hrmdir : ∀ l, sys.rmdir l = true) (he : fs.entry k = some e)
    (hclear : fs.entry k ≠ some .socket ∧ fs.entry k ≠ some .blockDevice ∧
      (fs.entry k = some .directory → sys.opendir k = true)) : Removable sys k e := by
  rw [he] at hclear
  rw [Removable]
  split
  · rename_i hdir
    exact ⟨hclear.2.2 (congrArg some hdir), hrmdir k⟩
  · rename_i hdir
    refine ⟨st_mode_eq_zero.mpr ⟨hdir, ?_, ?_⟩, hunlink k⟩
    · exact fun h => hclear.1 (congrArg some h)
    · exact fun h => hclear.2.1 (congrArg some h)

theorem lstat_cut (hl : fs.lstat cwd path = some l) : (fs.cut l).lstat cwd path = none := by
  cases hk : (fs.cut l).lstat cwd path with
  | none => rfl
  | some k =>
    have hsame := hl.symm.trans (lstat_mono (fs.cut_le l) hk)
    obtain rfl := Option.some.inj hsame
    exact absurd (entry_cut_under List.prefix_rfl) (entry_of_lstat hk)

/-- True for a path that existed: everything is gone, and it was removable. -/
theorem eq_cut_of_true (hl : fs.lstat cwd path = some l)
    (hrun : ∀ fuel, fs.depth < fuel → Rm sys cwd fuel path fs = some (true, fs')) :
    fs' = fs.cut l ∧ (fs.prune l).place cwd path = some l ∧
      ∀ k e, l <+: k → fs.entry k = some e → Removable sys k e := by
  have hfuel := Nat.lt_succ_self fs.depth
  obtain ⟨hdirect, hrem⟩ := direct_of_true (.of_depth hfuel) hl (hrun _ hfuel)
  have hcut := Rm_of_direct (.of_depth hfuel) hl hdirect hrem
  rw [hrun _ hfuel, Option.some_inj] at hcut
  exact ⟨(Prod.mk.inj hcut).2, hdirect, hrem⟩

/-- **`Rm` removes just the trees without sockets, block devices and closed directories, on paths that do
not lead through what they remove.** -/
theorem removes_iff : Removes opens cwd fs path ↔ Clear opens cwd fs path := by
  constructor
  · intro h l hl
    obtain ⟨ret, fs', hrun, hremoves, _⟩ := h { System.permissive with opendir := opens } rfl
    obtain ⟨rfl, _⟩ := hremoves (fun _ => rfl) (fun _ => rfl)
    obtain ⟨_, hdirect, hrem⟩ := eq_cut_of_true hl hrun
    refine ⟨hdirect, fun k hk => ⟨fun he => ?_, fun he => ?_, fun he => ?_⟩⟩
    · have hsocket := hrem k _ hk he
      rw [Removable, if_neg (by decide)] at hsocket
      exact absurd hsocket.1 (by decide)
    · have hblock := hrem k _ hk he
      rw [Removable, if_neg (by decide)] at hblock
      exact absurd hblock.1 (by decide)
    · have hdirectory := hrem k _ hk he
      rw [Removable, if_pos rfl] at hdirectory
      exact hdirectory.1
  · rintro hclear sys rfl
    obtain ⟨ret, fs', hrun, habsent, hremovals⟩ := exists_run sys cwd path fs
    refine ⟨ret, fs', hrun, ?_⟩
    have hfuel := Nat.lt_succ_self fs.depth
    cases hl : fs.lstat cwd path with
    | none =>
      obtain ⟨rfl, rfl⟩ := habsent hl
      refine ⟨fun _ _ => ⟨rfl, ?_, fun _ _ => rfl⟩, by simp [hl]⟩
      rintro k ⟨l, hl', _⟩
      rw [hl] at hl'
      cases hl'
    | some l =>
      obtain ⟨hdirect, hspecial⟩ := hclear l hl
      constructor
      · intro hunlink hrmdir
        have hcut := Rm_of_direct (.of_depth hfuel) hl hdirect fun k e hk he =>
          removable_of_permitted hunlink hrmdir he (hspecial k hk)
        rw [hrun _ hfuel] at hcut
        obtain ⟨rfl, rfl⟩ := Prod.mk.inj (Option.some.inj hcut)
        refine ⟨rfl, ?_, fun k hk => entry_cut fun hpre => hk ⟨l, hl, hpre⟩⟩
        rintro k ⟨l', hl', hk⟩
        rw [hl, Option.some_inj] at hl'
        exact entry_cut_under (hl' ▸ hk)
      · constructor
        · rintro rfl
          have hne := exists_of_false (.of_depth hfuel) hl hdirect (hrun _ hfuel)
          have hle := (hremovals l hl).le
          have hprune : fs.prune l ≤ fs' := by
            intro k e he
            by_cases hk : k = l
            · rw [hk, entry_prune_self] at he
              rw [hk, ← entry_eq_of_le hle hne, he]
            · refine (hremovals l hl).keeps (prune_le fs l k e he) fun hin => ?_
              rw [entry_prune_below hin.1.below hk] at he
              cases he
          rw [lstat_of_place hle hl (place_mono hprune hdirect) hne]
          exact Option.some_ne_none l
        · intro hne
          cases ret with
          | false => rfl
          | true =>
            rw [(eq_cut_of_true hl hrun).1] at hne
            exact absurd (lstat_cut hl) hne

/-- A socket looks like a directory to `Rm`, and stays. -/
theorem not_removes_socket : ¬Removes (fun _ => true) []
    (FileSystem.root.put [] ['s'] .socket rfl (by decide) (by decide)) ['s'] := by
  intro h
  obtain ⟨ret, fs', hrun, hremoves, _⟩ := h System.permissive rfl
  obtain ⟨rfl, _⟩ := hremoves (fun _ => rfl) (fun _ => rfl)
  have hrm := hrun 2 (by decide)
  rw [Rm_closed (l := [['s']]) (e := .socket) (by decide) (by decide) (by decide) (by decide)] at hrm
  cases hrm

end Purpose

end LioNet.FSUtil
