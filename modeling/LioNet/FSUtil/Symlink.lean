import LioNet.Lib.Symlinks
import LioNet.FSUtil.OpenForWrite
import LioNet.FSUtil.Rm

/-!
# Links, canonical paths and the two halves of a name

`FSUtil::Realpath`, `FSUtil::Symlink` and `FSUtil::Basename`.

`Symlink` removes what is at the place of the link first, and a link may be made to what was just removed.
So the link leads where its target leads in the tree without the old entry (`Symlink_leads`).
-/

namespace LioNet.FSUtil

open Lib FileSystem

/-! ### The code -/

section Code

variable (sys : System) (cwd : Loc)

/-- `rpath` is the value of the variable before the call, and the second result the one after it. -/
def Realpath (path rpath : Path) (fs : FileSystem) : Bool × Path :=
  match fs.lstat cwd path with
  | none => (false, rpath)
  | some _ =>
    match fs.realpath cwd path with
    | none => (false, rpath)
    | some ptr => (true, ptr)

def Symlink (fuel : Nat) (frm dest : Path) (fs : FileSystem) : Option (Bool × FileSystem) :=
  (Rm sys cwd fuel dest fs).map fun r =>
    if r.1 = false then (false, r.2)
    else
      match sys.symlinkAt r.2 cwd frm dest with
      | some fs' => (true, fs')
      | none => (false, r.2)

end Code

def Basename (filename : Path) : Path :=
  if filename = [] then filename
  else
    match rfind filename '/' with
    | none => filename
    | some pos => filename.drop (pos + 1)

/-! ### Realpath -/

section Realpath

variable {cwd : Loc} {path rpath p : Path} {fs : FileSystem}

/-- The look with `lstat` decides nothing. -/
theorem Realpath_eq : Realpath cwd path rpath fs =
    match fs.realpath cwd path with
    | none => (false, rpath)
    | some ptr => (true, ptr) := by
  unfold Realpath
  cases hl : fs.lstat cwd path with
  | none =>
    cases hr : fs.realpath cwd path with
    | none => rfl
    | some ptr =>
      obtain ⟨l, hstat, -⟩ := Option.map_eq_some_iff.mp hr
      exact absurd hl (lstat_ne_none_of_stat hstat)
  | some l => rfl

theorem Realpath_true : Realpath cwd path rpath fs = (true, p) ↔ fs.realpath cwd path = some p := by
  rw [Realpath_eq]
  cases fs.realpath cwd path with
  | none => exact ⟨nofun, nofun⟩
  | some ptr =>
    constructor
    · intro h
      rw [(Prod.mk.inj h).2]
    · intro h
      rw [Option.some.inj h]

/-- **What `Realpath` gives is canonical**: from every working directory it names what the path names, and
`Realpath` gives it back. -/
theorem Realpath_canonical (h : Realpath cwd path rpath fs = (true, p)) (cwd' : Loc) (rpath' : Path) :
    fs.stat cwd' p = fs.stat cwd path ∧ Realpath cwd' p rpath' fs = (true, p) := by
  obtain ⟨hstat, hreal⟩ := realpath_realpath (Realpath_true.mp h) cwd'
  exact ⟨hstat, Realpath_true.mpr hreal⟩

/-- A file with a dot in its path. -/
example :
    let fs := FileSystem.root.put [] ['a'] (.regular []) rfl (by decide) (by decide)
    fs.stat [] ['/', 'a'] = fs.stat [] ['.', '/', 'a'] ∧
      Realpath [] ['/', 'a'] [] fs = (true, ['/', 'a']) := by
  intro fs
  have h : Realpath [] ['.', '/', 'a'] [] fs = (true, ['/', 'a']) := by decide +kernel
  exact Realpath_canonical h [] []

end Realpath

/-! ### Symlink -/

section Symlink

variable {sys : System} {cwd l : Loc} {frm dest : Path} {fs fs' : FileSystem} {fuel : Nat} {ret : Bool}

theorem Symlink_of_false (h : Rm sys cwd fuel dest fs = some (false, fs')) :
    Symlink sys cwd fuel frm dest fs = some (false, fs') := by
  rw [Symlink, h]
  rfl

theorem Symlink_of_true (h : Rm sys cwd fuel dest fs = some (true, fs')) :
    Symlink sys cwd fuel frm dest fs = some (match sys.symlinkAt fs' cwd frm dest with
      | some fs'' => (true, fs'')
      | none => (false, fs')) := by
  rw [Symlink, h]
  rfl

/-- Where nothing is, nothing is cut away. -/
theorem cut_of_none (h : fs.entry l = none) : fs.cut l = fs := by
  refine FileSystem.ext (funext fun k => ?_) rfl
  by_cases hk : l <+: k
  · rw [entry_cut_under hk, none_under h hk]
  · rw [entry_cut hk]

/-- The tree is as it was without `t`, and at `t` is a link that leads where the target leads there. -/
structure Linked (cwd : Loc) (fs : FileSystem) (frm dest : Path) (t : Loc) (fs' : FileSystem) : Prop where
  place : fs.place cwd dest = some t
  link : fs'.entry t = some (.symlink (decide (frm.head? = some '/')) frm.names)
  other : ∀ k, k ≠ t → fs'.entry k = (fs.cut t).entry k
  leads : ∀ l, Leads fs' (dest.start cwd) dest.names l ↔
    Leads (fs.cut t) (frm.start t.dropLast) frm.names l

/-- A link that was made in the tree that `Rm` left. -/
theorem linked_of_symlinkAt {fs₁ : FileSystem} (hrun : ∀ fuel, fs.depth < fuel →
      Rm sys cwd fuel dest fs = some (true, fs₁)) (habsent : fs.lstat cwd dest = none → fs₁ = fs)
    (h : sys.symlinkAt fs₁ cwd frm dest = some fs') (hle : fs₁ ≤ fs) :
    ∃ t, Linked cwd fs frm dest t fs' := by
  obtain ⟨-, t, ht, hno, hmade⟩ := System.symlinkAt_made h
  have hplace := place_mono hle ht
  have hcut : fs₁ = fs.cut t := by
    cases hl : fs.lstat cwd dest with
    | none =>
      obtain rfl := habsent hl
      exact (cut_of_none hno).symm
    | some l =>
      obtain ⟨hcut, hdirect, -⟩ := eq_cut_of_true hl hrun
      obtain rfl := Option.some.inj (hplace.symm.trans (place_mono (prune_le fs l) hdirect))
      exact hcut
  refine ⟨t, hplace, hmade.self, fun k hk => by rw [hmade.other k hk, hcut], fun l => ?_⟩
  obtain ⟨t', ht', hleads⟩ := System.symlinkAt_leads (l := l) h
  obtain rfl := Option.some.inj (ht.symm.trans ht')
  rw [hleads, hcut]

/-- **`Symlink` makes a link to what its target leads to without the old entry**, and changes nothing else.
When it returns false no link is made, and at most something at or below the path has gone. -/
theorem Symlink_leads (sys : System) (cwd : Loc) (frm dest : Path) (fs : FileSystem) :
    ∃ ret fs', (∀ fuel, fs.depth < fuel → Symlink sys cwd fuel frm dest fs = some (ret, fs')) ∧
      (ret = true → ∃ t, Linked cwd fs frm dest t fs') ∧
      (ret = false → fs' ≤ fs ∧ ∀ k, ¬Within fs cwd dest k → fs'.entry k = fs.entry k) := by
  obtain ⟨ret₁, fs₁, hrun, habsent, hremovals⟩ := exists_run sys cwd dest fs
  have hsmall : fs₁ ≤ fs ∧ ∀ k, ¬Within fs cwd dest k → fs₁.entry k = fs.entry k := by
    cases hl : fs.lstat cwd dest with
    | none =>
      rw [(habsent hl).2]
      exact ⟨le_refl fs, fun _ _ => rfl⟩
    | some l =>
      have hremoved := hremovals l hl
      refine ⟨hremoved.le, fun k hk => ?_⟩
      cases he : fs.entry k with
      | none => exact none_of_le hremoved.le he
      | some e => exact hremoved.keeps he fun h => hk ⟨l, hl, h.1.below⟩
  cases ret₁ with
  | false =>
    exact ⟨false, fs₁, fun fuel hf => Symlink_of_false (hrun fuel hf), (fun h => by cases h),
      fun _ => hsmall⟩
  | true =>
    cases hlink : sys.symlinkAt fs₁ cwd frm dest with
    | none =>
      refine ⟨false, fs₁, fun fuel hf => ?_, (fun h => by cases h), fun _ => hsmall⟩
      rw [Symlink_of_true (hrun fuel hf), hlink]
    | some fs' =>
      refine ⟨true, fs', fun fuel hf => ?_, fun _ => ?_, fun h => by cases h⟩
      · rw [Symlink_of_true (hrun fuel hf), hlink]
      · exact linked_of_symlinkAt hrun (fun hl => (habsent hl).2) hlink hsmall.1

/-- A link to itself takes the place of the file, and `Symlink` returns true. -/
example : (Symlink System.permissive [] 2 ['a'] ['a']
    (FileSystem.root.put [] ['a'] (.regular []) rfl (by decide) (by decide))).map
      (fun r => (r.1, r.2.stat [] ['a'])) = some (true, none) := by
  decide +kernel

end Symlink

/-! ### Dirname and Basename -/

section Halves

variable {cwd : Loc} {fs : FileSystem} {f p t : Path}

theorem Basename_append (h : '/' ∉ t) : Basename (p ++ '/' :: t) = t := by
  rw [Basename, if_neg (List.append_ne_nil_of_right_ne_nil p (List.cons_ne_nil '/' t)), rfind_append h]
  show (p ++ '/' :: t).drop (p.length + 1) = t
  rw [← List.drop_drop, List.drop_left]
  rfl

/-- The directory, a slash and the name. -/
def halves (f : Path) : Path := Dirname f ++ '/' :: Basename f

theorem halves_append (hp : p ≠ []) (h : '/' ∉ t) : halves (p ++ '/' :: t) = p ++ '/' :: t := by
  rw [halves, Dirname_append hp h, Basename_append h]

theorem halves_slash (h : '/' ∉ t) : halves ('/' :: t) = '/' :: '/' :: t := by
  have hbase := Basename_append (p := []) h
  rw [List.nil_append] at hbase
  rw [halves, Dirname_slash h, hbase]
  rfl

theorem halves_noSlash (hne : f ≠ []) (h : '/' ∉ f) : halves f = '.' :: '/' :: f := by
  rw [halves, Dirname_noSlash h, Basename, if_neg hne, rfind_noSlash h]
  rfl

/-- A dot in front of the names changes nothing. -/
theorem walk_dot {b : Nat} {cur : Loc} {ns : List Name} (hns : ns ≠ []) :
    fs.walk false b cur (dot :: ns) = fs.walk false b cur ns := by
  obtain ⟨n, ns, rfl⟩ := List.exists_cons_of_ne_nil hns
  by_cases hdir : fs.entry cur = some .directory
  · rw [walk_cons, if_pos hdir, if_pos rfl]
  · rw [walk_cons, if_neg hdir, walk_cons, if_neg hdir]

theorem stat_dot {path path' : Path} (hne : path ≠ []) (hne' : path' ≠ [])
    (hstart : path'.start cwd = path.start cwd) (hnames : path'.names = dot :: path.names) :
    fs.stat cwd path' = fs.stat cwd path := by
  rw [stat, stat, if_neg hne, if_neg hne', hstart, hnames, walk_dot Path.names_ne_nil]

theorem lstat_dot {path path' : Path} (hne : path ≠ []) (hne' : path' ≠ [])
    (hstart : path'.start cwd = path.start cwd) (hnames : path'.names = dot :: path.names) :
    fs.lstat cwd path' = fs.lstat cwd path := by
  obtain ⟨q, n, hq⟩ := (List.eq_nil_or_concat' path.names).resolve_left Path.names_ne_nil
  have hlast : path'.names.getLast? = path.names.getLast? := by
    rw [hnames, hq, ← List.cons_append, List.getLast?_concat, List.getLast?_concat]
  have hdots : EndsInDots path' ↔ EndsInDots path := by rw [EndsInDots, EndsInDots, hlast]
  by_cases h : EndsInDots path
  · rw [lstat, lstat, if_pos h, if_pos (hdots.mpr h), stat_dot hne hne' hstart hnames]
  · have h' := mt hdots.mp h
    have hplace : fs.place cwd path' = fs.place cwd path := by
      rw [place, place, ← names_eq_entryNames h, ← names_eq_entryNames h', hnames, hq,
        ← List.cons_append, List.getLast?_concat, List.getLast?_concat, List.dropLast_concat,
        List.dropLast_concat, hstart]
      by_cases hnil : q = []
      · subst hnil
        rw [walk_nil, walk_cons, walk_nil]
        by_cases hdir : fs.entry (path.start cwd) = some .directory
        · simp only [if_pos hdir, if_true]
        · simp only [if_neg hdir, Option.bind_some, Option.bind_none]
      · rw [walk_dot hnil]
    rw [lstat, lstat, if_neg h, if_neg h', hplace]

/-- **The halves of a name make it up again**: whatever the file system, the directory that `Dirname` gives
and the name that `Basename` gives lead where the file name leads. -/
theorem Dirname_Basename (fs : FileSystem) (cwd : Loc) (hf : f ≠ []) :
    fs.stat cwd (halves f) = fs.stat cwd f ∧ fs.lstat cwd (halves f) = fs.lstat cwd f := by
  have hdot : Path.names ['.'] = [dot] := by decide
  have hnil : Path.names [] = [dot] := by decide
  by_cases hmem : '/' ∈ f
  · obtain ⟨p, t, rfl, ht⟩ := Path.exists_last_slash hmem
    by_cases hp : p = []
    · subst hp
      -- a file in the root directory: there is a slash more
      rw [List.nil_append, halves_slash ht]
      have hnames : Path.names ('/' :: '/' :: t) = dot :: Path.names ('/' :: t) := by
        have happ : Path.names ([] ++ '/' :: '/' :: t) = _ := Path.names_append
        rwa [hnil] at happ
      exact ⟨stat_dot (List.cons_ne_nil _ _) (List.cons_ne_nil _ _) rfl hnames,
        lstat_dot (List.cons_ne_nil _ _) (List.cons_ne_nil _ _) rfl hnames⟩
    · rw [halves_append hp ht]
      exact ⟨rfl, rfl⟩
  · rw [halves_noSlash hf hmem]
    have hnames : Path.names ('.' :: '/' :: f) = dot :: Path.names f := by
      have happ : Path.names (['.'] ++ '/' :: f) = _ := Path.names_append
      rwa [hdot] at happ
    have hstart : Path.start cwd ('.' :: '/' :: f) = Path.start cwd f := by
      obtain ⟨c, cs, rfl⟩ := List.exists_cons_of_ne_nil hf
      have hc : c ≠ '/' := by
        rintro rfl
        exact hmem List.mem_cons_self
      have hhead : (c :: cs).head? ≠ some '/' := fun he => hc (Option.some.inj he)
      rw [Path.start, Path.start, if_neg hhead]
      exact if_neg (fun he => absurd (Option.some.inj he) (by decide))
    exact ⟨stat_dot hf (List.cons_ne_nil _ _) hstart hnames,
      lstat_dot hf (List.cons_ne_nil _ _) hstart hnames⟩

/-- A file in the root directory. -/
example : halves ['/', 'a'] = ['/', '/', 'a'] ∧
    FileSystem.root.stat [] (halves ['/', 'a']) = FileSystem.root.stat [] ['/', 'a'] ∧
      FileSystem.root.lstat [] (halves ['/', 'a']) = FileSystem.root.lstat [] ['/', 'a'] :=
  ⟨by decide, Dirname_Basename FileSystem.root [] (List.cons_ne_nil _ _)⟩

end Halves

end LioNet.FSUtil
