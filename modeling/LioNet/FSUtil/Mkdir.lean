import LioNet.Lib.PathPrefix

/-!
# Making directories

`FSUtil::Mkdir` with its loop, which overwrites one slash of the path after another to make the directories
on the way.  `mkdirLoop_eq` turns the loop over the characters into one over the parts of the path
(`mkdirParts`), and the rest is by induction on these.

What carries the proofs is `Fresh`: as soon as one directory had to be made, the loop stands in a new and
empty one, so nothing that comes later can be there already.
-/

namespace LioNet.FSUtil

open Lib FileSystem

/-! ### The code -/

/-- The string in a buffer ends at the first NUL. -/
def c_str (s : Path) : Path := s.takeWhile (· ≠ '\x00')

/-- The place of the first `c` from `i` on. -/
def strchr (s : Path) (i : Nat) (c : Char) : Option Nat :=
  (((c_str s).drop i).findIdx? (· = c)).map (· + i)

theorem strchr_bounds {s : Path} {i j : Nat} {c : Char} (h : strchr s i c = some j) :
    i ≤ j ∧ j < s.length := by
  obtain ⟨k, hk, rfl⟩ := Option.map_eq_some_iff.mp h
  have hlt := (List.findIdx?_eq_some_iff_getElem.mp hk).1
  have hlen : (c_str s).length ≤ s.length := (List.takeWhile_prefix _).length_le
  rw [List.length_drop] at hlt
  omega

section Code

variable (sys : System) (cwd : Loc)

/-- `__mkdir`; `none` when it does not return 0. -/
def mkdir (dirname : Path) (fs : FileSystem) : Option FileSystem :=
  if fs.stat cwd dirname ≠ none then some fs else sys.mkdirAt fs cwd dirname

/-- The loop of `Mkdir`, with the buffer as it is: the slash at `ptr` is overwritten and put back. -/
def mkdirLoop (path : Path) (ptr : Option Nat) (fs : FileSystem) : Bool × FileSystem :=
  match ptr with
  | none =>
    match mkdir sys cwd (c_str path) fs with
    | some fs' => (true, fs')
    | none => (false, fs)
  | some i =>
    match mkdir sys cwd (c_str (path.set i '\x00')) fs with
    | some fs' =>
      mkdirLoop ((path.set i '\x00').set i '/')
        (strchr ((path.set i '\x00').set i '/') (i + 1) '/') fs'
    | none => (false, fs)
termination_by (ptr.map fun i => path.length - i + 1).getD 0
decreasing_by
  cases h : strchr ((path.set i '\x00').set i '/') (i + 1) '/' with
  | none => simp
  | some j =>
    have hbounds := strchr_bounds h
    simp only [List.length_set] at hbounds
    simp only [Option.map_some, Option.getD_some, List.length_set]
    omega

def Mkdir (dirname : Path) (fs : FileSystem) : Bool × FileSystem :=
  if fs.lstat cwd dirname ≠ none then (true, fs)
  else mkdirLoop sys cwd dirname (strchr dirname 1 '/') fs

/-- The loop over the parts: `p` is the prefix to be made next. -/
def mkdirParts (p : Path) : List Name → FileSystem → Bool × FileSystem
  | [], fs =>
    match mkdir sys cwd p fs with
    | some fs' => (true, fs')
    | none => (false, fs)
  | t :: ts, fs =>
    match mkdir sys cwd p fs with
    | some fs' => mkdirParts (p ++ '/' :: t) ts fs'
    | none => (false, fs)

end Code

/-! ### The loop over the parts -/

section Loop

variable {sys : System} {cwd : Loc} {pre rest : Path} {t : Name} {ts : List Name} {fs : FileSystem}

theorem c_str_of_noNul (h : '\x00' ∉ rest) : c_str rest = rest := by
  rw [c_str, List.takeWhile_eq_self_iff]
  intro c hc
  rw [decide_eq_true_iff]
  rintro rfl
  exact h hc

theorem c_str_append_nul (h : '\x00' ∉ pre) : c_str (pre ++ '\x00' :: rest) = pre := by
  induction pre with
  | nil => rfl
  | cons c pre ih =>
    obtain ⟨hc, hpre⟩ := not_or.mp fun hmem => h (List.mem_cons.mpr hmem)
    have hkeep : decide (c ≠ '\x00') = true := decide_eq_true (Ne.symm hc)
    show List.takeWhile (fun x => decide (x ≠ '\x00')) (c :: (pre ++ '\x00' :: rest)) = c :: pre
    rw [List.takeWhile_cons, if_pos hkeep]
    exact congrArg (c :: ·) (ih hpre)

theorem set_length (c d : Char) : (pre ++ c :: rest).set pre.length d = pre ++ d :: rest := by
  rw [List.set_append_right _ _ (Nat.le_refl _), Nat.sub_self]
  rfl

theorem strchr_append (h : '\x00' ∉ pre ++ rest) :
    strchr (pre ++ rest) pre.length '/' = (rest.findIdx? (· = '/')).map (· + pre.length) := by
  rw [strchr, c_str_of_noNul h, List.drop_left]

/-- **The loop over the characters is the one over the parts.** -/
theorem mkdirLoop_eq (pre : Path) (hnul : '\x00' ∉ pre ++ rest) (hparts : rest.parts = t :: ts) :
    mkdirLoop sys cwd (pre ++ rest) (strchr (pre ++ rest) pre.length '/') fs =
      mkdirParts sys cwd (pre ++ t) ts fs := by
  induction rest generalizing pre t ts fs with
  | nil =>
    obtain ⟨rfl, rfl⟩ := List.cons.inj (show [([] : Name)] = t :: ts from hparts)
    rw [strchr_append hnul, mkdirLoop.eq_def, c_str_of_noNul hnul]
    rfl
  | cons c rest ih =>
    have hshift : pre ++ c :: rest = pre ++ [c] ++ rest := by rw [List.append_assoc]; rfl
    have hlen : (pre ++ [c]).length = pre.length + 1 := by
      rw [List.length_append, List.length_singleton]
    by_cases hc : c = '/'
    · subst hc
      have hfound : strchr (pre ++ '/' :: rest) pre.length '/' = some pre.length := by
        rw [strchr_append hnul, List.findIdx?_cons, if_pos (by decide), Option.map_some, Nat.zero_add]
      have hpre : '\x00' ∉ pre := fun h => hnul (List.mem_append_left _ h)
      rw [Path.parts_cons_slash] at hparts
      obtain ⟨rfl, rfl⟩ := List.cons.inj hparts
      obtain ⟨t', ts', hrest⟩ := List.exists_cons_of_ne_nil (Path.parts_ne_nil rest)
      rw [hfound, mkdirLoop.eq_def, hrest, mkdirParts, List.append_nil]
      simp only
      rw [set_length, set_length, c_str_append_nul hpre]
      cases mkdir sys cwd pre fs with
      | none => rfl
      | some fs' =>
        show mkdirLoop sys cwd (pre ++ '/' :: rest)
          (strchr (pre ++ '/' :: rest) (pre.length + 1) '/') fs' = _
        rw [hshift] at hnul ⊢
        rw [← hlen, ih _ hnul hrest, List.append_assoc]
        rfl
    · obtain ⟨t', ts', hrest⟩ := List.exists_cons_of_ne_nil (Path.parts_ne_nil rest)
      rw [Path.parts_cons hc hrest] at hparts
      obtain ⟨rfl, rfl⟩ := List.cons.inj hparts
      have hnext : strchr (pre ++ c :: rest) pre.length '/' =
          strchr (pre ++ [c] ++ rest) (pre ++ [c]).length '/' := by
        rw [strchr_append hnul, strchr_append (hshift ▸ hnul), List.findIdx?_cons,
          if_neg (by simpa using hc), Option.map_map, hlen]
        congr 1
        funext i
        exact (Nat.add_assoc i 1 pre.length).trans (by rw [Nat.add_comm 1])
      rw [hnext, hshift, ih _ (hshift ▸ hnul) hrest, List.append_assoc]
      rfl

end Loop

/-! ### One call of mkdir -/

section Call

variable {sys : System} {cwd d : Loc} {p : Path} {us : List Name} {t : Name} {fs fs' fs₀ : FileSystem}

theorem mkdir_cases (h : mkdir sys cwd p fs = some fs') :
    ((∃ l, fs.stat cwd p = some l) ∧ fs' = fs) ∨
      ∃ l, fs.place cwd p = some l ∧ fs.entry l = none ∧ System.Made fs l .directory fs' := by
  rw [mkdir] at h
  split at h
  · rename_i hstat
    exact .inl ⟨Option.ne_none_iff_exists'.mp hstat, (Option.some.inj h).symm⟩
  · exact .inr (System.mkdirAt_made h)

theorem stat_of_mkdir_none (h : mkdir sys cwd p fs = none) : fs.stat cwd p = none := by
  by_contra hstat
  rw [mkdir, if_pos hstat] at h
  cases h

theorem le_of_mkdir (h : mkdir sys cwd p fs = some fs') : fs ≤ fs' := by
  rcases mkdir_cases h with ⟨_, rfl⟩ | ⟨l, _, hno, hmade⟩
  · exact le_refl fs'
  · exact hmade.le hno

/-- What may stand between two slashes. -/
def IsPart (t : Name) : Prop := t = [] ∨ t.Plain

instance (t : Name) : Decidable (IsPart t) := inferInstanceAs (Decidable (_ ∨ _))

theorem IsPart.slash (h : IsPart t) : '/' ∉ t := by
  rcases h with rfl | ht
  · exact List.not_mem_nil
  · exact ht.slash

/-- The last part of the prefix is `t`. -/
def LastPart (p : Path) (t : Name) : Prop := p ≠ [] ∧ IsPart t ∧ ∃ us, p.parts = us ++ [t]

theorem LastPart.append {t' : Name} (hp : p ≠ []) (ht : IsPart t') : LastPart (p ++ '/' :: t') t' := by
  refine ⟨List.append_ne_nil_of_left_ne_nil hp _, ht, p.parts, ?_⟩
  rw [Path.parts_append, Path.parts_of_noSlash ht.slash]

/-- Nothing new is there, or the prefix is in a new and empty directory. -/
def Fresh (fs₀ fs : FileSystem) (cwd : Loc) (p : Path) : Prop :=
  fs = fs₀ ∨ ∃ d, fs.Parent cwd p d ∧ fs₀.entry d = none ∧ ∀ n, fs.entry (d ++ [n]) = none

/-- In a new and empty directory only the directory itself is there already. -/
theorem stat_of_fresh (hp : LastPart p t) (hd : fs.Parent cwd p d) (hno : ∀ n, fs.entry (d ++ [n]) = none)
    {l : Loc} (hl : fs.stat cwd p = some l) : l = d := by
  obtain ⟨hne, rfl | ht, us, hparts⟩ := hp
  · exact ((stat_of_last_empty hne hparts).mp hl).unique hd
  · obtain ⟨d', hd', hex⟩ := parent_of_stat ht hparts hl
    rw [hd'.unique hd, hno t] at hex
    exact absurd rfl hex

/-- A directory that was just made is what its path leads to. -/
theorem stat_of_made {l : Loc} (hno : fs.entry l = none) (hl : fs.place cwd p = some l)
    (h : System.Made fs l .directory fs') : fs'.stat cwd p = some l :=
  stat_of_place (place_mono (h.le hno) hl) h.self

theorem Fresh.step {t' : Name} (hle : fs₀ ≤ fs) (hfresh : Fresh fs₀ fs cwd p) (hp : LastPart p t)
    (ht' : IsPart t') (h : mkdir sys cwd p fs = some fs') :
    Fresh fs₀ fs' cwd (p ++ '/' :: t') := by
  rcases mkdir_cases h with ⟨⟨l, hl⟩, rfl⟩ | ⟨l, hl, hno, hmade⟩
  · refine hfresh.imp_right ?_
    rintro ⟨d, hd, hnew, hempty⟩
    obtain rfl := stat_of_fresh hp hd hempty hl
    exact ⟨l, (parent_append hp.1 ht'.slash).mpr ⟨hl, hd.2⟩, hnew, hempty⟩
  · refine .inr ⟨l, (parent_append hp.1 ht'.slash).mpr ⟨stat_of_made hno hl hmade, hmade.self⟩,
      none_of_le hle hno, fun n => ?_⟩
    rw [hmade.other _ fun h => not_snoc_above l n ⟨[], by rw [List.append_nil, h]⟩]
    exact none_under hno (List.prefix_append l [n])

/-- What the last call leaves is a directory, unless the path was there before. -/
theorem isDirectory_of_mkdir (hle : fs₀ ≤ fs) (hfresh : Fresh fs₀ fs cwd p) (hp : LastPart p t)
    (hnew : fs₀.lstat cwd p = none) (h : mkdir sys cwd p fs = some fs') : fs'.IsDirectory cwd p := by
  rcases mkdir_cases h with ⟨⟨l, hl⟩, rfl⟩ | ⟨l, hl, hno, hmade⟩
  · rcases hfresh with rfl | ⟨d, hd, _, hempty⟩
    · exact absurd hnew (lstat_ne_none_of_stat hl)
    · obtain rfl := stat_of_fresh hp hd hempty hl
      exact ⟨l, hl, hd.2⟩
  · exact ⟨l, stat_of_made hno hl hmade, hmade.self⟩

/-- Where making directories is permitted, the call makes the prefix a directory, unless something else was
there before. -/
theorem exists_mkdir (hfresh : Fresh fs₀ fs cwd p) (hp : LastPart p t)
    (hperm : ∀ l, sys.mkdir l = true) (hd : fs.Parent cwd p d)
    (hold : fs₀.lstat cwd p ≠ none → fs₀.IsDirectory cwd p) :
    ∃ fs', mkdir sys cwd p fs = some fs' ∧ fs'.IsDirectory cwd p := by
  cases hl : fs.stat cwd p with
  | some l =>
    refine ⟨fs, by rw [mkdir, if_pos (by rw [hl]; exact Option.some_ne_none l)], ?_⟩
    rcases hfresh with rfl | ⟨d', hd', _, hempty⟩
    · exact hold (lstat_ne_none_of_stat hl)
    · obtain rfl := stat_of_fresh hp hd' hempty hl
      exact ⟨l, hl, hd'.2⟩
  | none =>
    obtain ⟨hne, ht, us, hparts⟩ := hp
    rcases ht with rfl | ht
    · rw [(stat_of_last_empty hne hparts).mpr hd] at hl
      cases hl
    · have hplace := (place_of_last_plain ht hparts).mpr ⟨d, hd, rfl⟩
      have hno : fs.entry (d ++ [t]) = none := by
        rcases hfresh with rfl | ⟨d', hd', _, hempty⟩
        · by_contra hex
          obtain ⟨l, hl', _⟩ := hold (by rw [lstat_of_parent ht hparts hd hex]; exact Option.some_ne_none _)
          rw [hl] at hl'
          cases hl'
        · rw [hd.unique hd']
          exact hempty t
      obtain ⟨fs', hfs'⟩ := System.exists_mkdirAt hplace ht hno (hperm _)
      have hrun : mkdir sys cwd p fs = some fs' := by rw [mkdir, if_neg (not_not.mpr hl), hfs']
      obtain ⟨l, hl', hno', hmade⟩ := System.mkdirAt_made hfs'
      exact ⟨fs', hrun, l, stat_of_made hno' hl' hmade, hmade.self⟩

end Call

/-! ### The whole loop -/

/-- The path that the loop makes: `p`, and the parts that are still to come. -/
def joined (p : Path) (ts : List Name) : Path := ts.foldl (fun p t => p ++ '/' :: t) p

theorem prefixOf_joined {p : Path} (hp : p ≠ []) (ts : List Name) : p.PrefixOf (joined p ts) := by
  induction ts generalizing p with
  | nil => exact .refl hp
  | cons t ts ih =>
    exact (Path.prefixOf_append hp).trans (ih (List.append_ne_nil_of_left_ne_nil hp _))

/-- Only missing prefixes of the path are new, as directories. -/
def Grows (cwd : Loc) (path : Path) (fs fs' : FileSystem) : Prop :=
  fs ≤ fs' ∧ ∀ k, fs.entry k = none → fs'.entry k ≠ none →
    fs'.entry k = some .directory ∧ ∃ q : Path, q.PrefixOf path ∧ fs'.place cwd q = some k

section Run

variable {sys : System} {cwd d : Loc} {p : Path} {t : Name} {ts : List Name}
  {fs fs' fs'' fs₀ : FileSystem}

theorem Grows.refl (cwd : Loc) (path : Path) (fs : FileSystem) : Grows cwd path fs fs :=
  ⟨le_refl fs, fun _ hno hex => absurd hno hex⟩

theorem Grows.trans {path : Path} (h : Grows cwd path fs fs') (h' : Grows cwd path fs' fs'') :
    Grows cwd path fs fs'' := by
  refine ⟨h.1.trans h'.1, fun k hno hex => ?_⟩
  by_cases hk : fs'.entry k = none
  · exact h'.2 k hk hex
  · obtain ⟨hdir, q, hq, hplace⟩ := h.2 k hno hk
    exact ⟨h'.1 _ _ hdir, q, hq, place_mono h'.1 hplace⟩

theorem Grows.of_mkdir {path : Path} (hp : p.PrefixOf path) (h : mkdir sys cwd p fs = some fs') :
    Grows cwd path fs fs' := by
  rcases mkdir_cases h with ⟨_, rfl⟩ | ⟨l, hl, hno, hmade⟩
  · exact .refl cwd path fs'
  · refine ⟨hmade.le hno, fun k hk hex => ?_⟩
    have hkl : k = l := by
      by_contra hne
      exact hex ((hmade.other k hne).trans hk)
    rw [hkl]
    exact ⟨hmade.self, p, hp, place_mono (hmade.le hno) hl⟩

theorem mkdirParts_grows (hp : p ≠ []) :
    Grows cwd (joined p ts) fs (mkdirParts sys cwd p ts fs).2 := by
  induction ts generalizing p fs with
  | nil =>
    rw [mkdirParts]
    cases h : mkdir sys cwd p fs with
    | none => exact .refl _ _ _
    | some fs' => exact .of_mkdir (prefixOf_joined hp []) h
  | cons t ts ih =>
    rw [mkdirParts]
    cases h : mkdir sys cwd p fs with
    | none => exact .refl _ _ _
    | some fs' =>
      exact (Grows.of_mkdir (prefixOf_joined hp (t :: ts)) h).trans
        (ih (List.append_ne_nil_of_left_ne_nil hp _))

/-- False means that some prefix leads nowhere. -/
theorem mkdirParts_false (hp : p ≠ []) (h : (mkdirParts sys cwd p ts fs).1 = false) :
    ∃ q : Path, q.PrefixOf (joined p ts) ∧ (mkdirParts sys cwd p ts fs).2.stat cwd q = none := by
  induction ts generalizing p fs with
  | nil =>
    rw [mkdirParts] at h ⊢
    cases hm : mkdir sys cwd p fs with
    | none => exact ⟨p, prefixOf_joined hp [], stat_of_mkdir_none hm⟩
    | some fs' =>
      simp only [hm] at h
      cases h
  | cons t ts ih =>
    rw [mkdirParts] at h ⊢
    cases hm : mkdir sys cwd p fs with
    | none => exact ⟨p, prefixOf_joined hp (t :: ts), stat_of_mkdir_none hm⟩
    | some fs' =>
      simp only [hm] at h
      exact ih (List.append_ne_nil_of_left_ne_nil hp _) h

/-- True means that the path leads to a directory, if it was not there before. -/
theorem mkdirParts_true (hp : LastPart p t) (hts : ∀ t ∈ ts, IsPart t) (hle : fs₀ ≤ fs)
    (hfresh : Fresh fs₀ fs cwd p) (hnew : fs₀.lstat cwd (joined p ts) = none)
    (h : (mkdirParts sys cwd p ts fs).1 = true) :
    (mkdirParts sys cwd p ts fs).2.IsDirectory cwd (joined p ts) := by
  induction ts generalizing p t fs with
  | nil =>
    rw [mkdirParts] at h ⊢
    cases hm : mkdir sys cwd p fs with
    | none =>
      simp only [hm] at h
      cases h
    | some fs' => exact isDirectory_of_mkdir hle hfresh hp hnew hm
  | cons t' ts ih =>
    rw [mkdirParts] at h ⊢
    cases hm : mkdir sys cwd p fs with
    | none =>
      simp only [hm] at h
      cases h
    | some fs' =>
      simp only [hm] at h
      have ht' := hts t' List.mem_cons_self
      exact ih (.append hp.1 ht') (fun s hs => hts s (List.mem_cons_of_mem t' hs))
        (hle.trans (le_of_mkdir hm)) (hfresh.step hle hp ht' hm) hnew h

/-- A new directory at the end is empty. -/
theorem mkdirParts_fresh {t' : Name} (hp : LastPart p t) (hts : ∀ t ∈ ts, IsPart t) (ht' : IsPart t')
    (hle : fs₀ ≤ fs) (hfresh : Fresh fs₀ fs cwd p) (h : (mkdirParts sys cwd p ts fs).1 = true) :
    Fresh fs₀ (mkdirParts sys cwd p ts fs).2 cwd (joined p ts ++ '/' :: t') := by
  induction ts generalizing p t fs with
  | nil =>
    rw [mkdirParts] at h ⊢
    cases hm : mkdir sys cwd p fs with
    | none =>
      simp only [hm] at h
      cases h
    | some fs' => exact hfresh.step hle hp ht' hm
  | cons s ts ih =>
    rw [mkdirParts] at h ⊢
    cases hm : mkdir sys cwd p fs with
    | none =>
      simp only [hm] at h
      cases h
    | some fs' =>
      simp only [hm] at h
      have hs := hts s List.mem_cons_self
      exact ih (.append hp.1 hs) (fun r hr => hts r (List.mem_cons_of_mem s hr))
        (hle.trans (le_of_mkdir hm)) (hfresh.step hle hp hs hm) h

/-- The loop goes to its end, where making directories is permitted and nothing else is in the way. -/
theorem mkdirParts_permitted (hp : LastPart p t) (hts : ∀ t ∈ ts, IsPart t) (hle : fs₀ ≤ fs)
    (hfresh : Fresh fs₀ fs cwd p) (hperm : ∀ l, sys.mkdir l = true) (hd : fs.Parent cwd p d)
    (hold : ∀ q : Path, q.PrefixOf (joined p ts) → fs₀.lstat cwd q ≠ none → fs₀.IsDirectory cwd q) :
    (mkdirParts sys cwd p ts fs).1 = true := by
  obtain ⟨fs', hm, hdir⟩ :=
    exists_mkdir hfresh hp hperm hd (hold p (prefixOf_joined hp.1 ts))
  induction ts generalizing p t d fs fs' with
  | nil => rw [mkdirParts, hm]
  | cons t' ts ih =>
    have ht' := hts t' List.mem_cons_self
    have hp' : LastPart (p ++ '/' :: t') t' := .append hp.1 ht'
    have hfresh' := hfresh.step hle hp ht' hm
    obtain ⟨l, hl⟩ := hdir
    have hd' : fs'.Parent cwd (p ++ '/' :: t') l := (parent_append hp.1 ht'.slash).mpr hl
    obtain ⟨fs'', hm', hdir'⟩ :=
      exists_mkdir hfresh' hp' hperm hd' (hold _ (prefixOf_joined hp'.1 ts))
    rw [mkdirParts, hm]
    exact ih hp' (fun s hs => hts s (List.mem_cons_of_mem t' hs)) (hle.trans (le_of_mkdir hm)) hfresh'
      hd' hold fs'' hm' hdir'

end Run

/-! ### What Mkdir is for -/

/-- A path of plain names, with any slashes between, before and after them. -/
structure PlainPath where
  path : Path
  ne_nil : path ≠ []
  parts : ∀ n ∈ path.parts, IsPart n

theorem PlainPath.noNul (p : PlainPath) : '\x00' ∉ p.path := by
  intro h
  rcases Path.mem_parts h with hc | ⟨n, hn, hc⟩
  · exact absurd hc (by decide)
  · rcases p.parts n hn with rfl | hplain
    · exact List.not_mem_nil hc
    · exact hplain.nul hc

theorem joined_parts (pre : Path) {rest : Path} {t : Name} {ts : List Name} (h : rest.parts = t :: ts) :
    joined (pre ++ t) ts = pre ++ rest := by
  induction rest generalizing pre t ts with
  | nil =>
    obtain ⟨rfl, rfl⟩ := List.cons.inj (show [([] : Name)] = t :: ts from h)
    rfl
  | cons c rest ih =>
    obtain ⟨t', ts', hrest⟩ := List.exists_cons_of_ne_nil (Path.parts_ne_nil rest)
    have hnext := ih (pre ++ [c]) hrest
    rw [List.append_assoc, List.append_assoc] at hnext
    by_cases hc : c = '/'
    · subst hc
      rw [Path.parts_cons_slash, hrest] at h
      obtain ⟨rfl, rfl⟩ := List.cons.inj h
      rw [List.append_nil]
      exact hnext
    · rw [Path.parts_cons hc hrest] at h
      obtain ⟨rfl, rfl⟩ := List.cons.inj h
      exact hnext

/-- The loop of `Mkdir` on a plain path: its first prefix, and the parts that follow. -/
theorem PlainPath.exists_loop (p : PlainPath) :
    ∃ q t ts, LastPart q t ∧ (∀ t ∈ ts, IsPart t) ∧ joined q ts = p.path ∧
      (∀ fs : FileSystem, ∀ cwd, fs.entry (p.path.start cwd) = some .directory →
        fs.Parent cwd q (p.path.start cwd)) ∧
      ∀ sys cwd fs, mkdirLoop sys cwd p.path (strchr p.path 1 '/') fs = mkdirParts sys cwd q ts fs := by
  obtain ⟨path, hne, hparts⟩ := p
  obtain ⟨c, rest, rfl⟩ := List.exists_cons_of_ne_nil hne
  obtain ⟨t, ts, hrest⟩ := List.exists_cons_of_ne_nil (Path.parts_ne_nil rest)
  have hslash : '/' ∉ t := Path.slash_notMem (hrest ▸ List.mem_cons_self)
  have hnul := PlainPath.noNul ⟨c :: rest, hne, hparts⟩
  have hjoined : joined (c :: t) ts = c :: rest := joined_parts [c] hrest
  have hloop : ∀ sys cwd fs, mkdirLoop sys cwd (c :: rest) (strchr (c :: rest) 1 '/') fs =
      mkdirParts sys cwd (c :: t) ts fs := fun sys cwd fs => mkdirLoop_eq [c] hnul hrest
  have hparent : ∀ fs : FileSystem, ∀ cwd, fs.entry (Path.start cwd (c :: rest)) = some .directory →
      fs.Parent cwd (c :: t) (Path.start cwd (c :: rest)) := fun fs cwd hdir => parent_first hslash hdir
  by_cases hc : c = '/'
  · subst hc
    rw [Path.parts_cons_slash, hrest] at hparts
    refine ⟨'/' :: t, t, ts, ⟨List.cons_ne_nil _ _, ?_, [[]], ?_⟩, ?_, hjoined, hparent, hloop⟩
    · exact hparts t (List.mem_cons_of_mem _ List.mem_cons_self)
    · rw [Path.parts_cons_slash, Path.parts_of_noSlash hslash]
      rfl
    · exact fun s hs => hparts s (List.mem_cons_of_mem _ (List.mem_cons_of_mem _ hs))
  · rw [Path.parts_cons hc hrest] at hparts
    refine ⟨c :: t, c :: t, ts, ⟨List.cons_ne_nil _ _, ?_, [], ?_⟩, ?_, hjoined, hparent, hloop⟩
    · exact hparts _ List.mem_cons_self
    · exact Path.parts_cons hc (Path.parts_of_noSlash hslash)
    · exact fun s hs => hparts s (List.mem_cons_of_mem _ hs)

/-- `Mkdir` returns true just when the path is a directory then; where nothing else is in the way and
making directories is permitted, in an existing directory to start from, it makes every missing prefix; and
it changes nothing else. -/
structure TellsTruth (sys : System) (cwd : Loc) (fs : FileSystem) (path : Path) : Prop where
  truth : (Mkdir sys cwd path fs).1 = true ↔ (Mkdir sys cwd path fs).2.IsDirectory cwd path
  makes : (∀ l, sys.mkdir l = true) → fs.entry (path.start cwd) = some .directory →
    (∀ q : Path, q.PrefixOf path → fs.lstat cwd q ≠ none → fs.IsDirectory cwd q) →
      (Mkdir sys cwd path fs).1 = true ∧
        ∀ q : Path, q.PrefixOf path → (Mkdir sys cwd path fs).2.IsDirectory cwd q
  grows : Grows cwd path fs (Mkdir sys cwd path fs).2

theorem Mkdir_of_exists {sys : System} {cwd : Loc} {fs : FileSystem} {path : Path}
    (h : fs.lstat cwd path ≠ none) : Mkdir sys cwd path fs = (true, fs) := if_pos h

theorem Mkdir_of_new {sys : System} {cwd : Loc} {fs : FileSystem} {path : Path}
    (h : fs.lstat cwd path = none) :
    Mkdir sys cwd path fs = mkdirLoop sys cwd path (strchr path 1 '/') fs :=
  if_neg (not_not.mpr h)

theorem tellsTruth {sys : System} {cwd : Loc} {fs : FileSystem} {p : PlainPath}
    (hold : fs.lstat cwd p.path ≠ none → fs.IsDirectory cwd p.path) :
    TellsTruth sys cwd fs p.path := by
  by_cases hnew : fs.lstat cwd p.path = none
  · obtain ⟨q, t, ts, hq, hts, hjoined, hparent, hloop⟩ := p.exists_loop
    have hrun := (Mkdir_of_new hnew).trans (hloop sys cwd fs)
    rw [← hjoined] at hnew
    have htruth : (mkdirParts sys cwd q ts fs).1 = true →
        (mkdirParts sys cwd q ts fs).2.IsDirectory cwd p.path := by
      rw [← hjoined]
      exact mkdirParts_true hq hts (le_refl fs) (.inl rfl) hnew
    constructor
    · rw [hrun]
      refine ⟨htruth, fun hdir => ?_⟩
      by_contra hno
      rw [Bool.not_eq_true] at hno
      obtain ⟨r, hr, hstat⟩ := mkdirParts_false hq.1 hno
      rw [hjoined] at hr
      obtain ⟨l, hl, _⟩ := hdir.prefixOf hr
      rw [hstat] at hl
      cases hl
    · intro hperm hstart hothers
      rw [hrun]
      have htrue : (mkdirParts sys cwd q ts fs).1 = true :=
        mkdirParts_permitted hq hts (le_refl fs) (.inl rfl) hperm (hparent fs cwd hstart)
          (by rw [hjoined]; exact hothers)
      exact ⟨htrue, fun r hr => (htruth htrue).prefixOf hr⟩
    · rw [hrun, ← hjoined]
      exact mkdirParts_grows hq.1
  · have hdir := hold hnew
    constructor
    · rw [Mkdir_of_exists hnew]
      exact ⟨fun _ => hdir, fun _ => rfl⟩
    · intro _ _ _
      rw [Mkdir_of_exists hnew]
      exact ⟨rfl, fun q hq => hdir.prefixOf hq⟩
    · rw [Mkdir_of_exists hnew]
      exact .refl cwd p.path fs

/-- After a `Mkdir` that had something to make, the path leads to a new and empty directory. -/
theorem Mkdir_fresh {sys : System} {cwd : Loc} {fs : FileSystem} {p : PlainPath} {t : Name}
    (ht : IsPart t) (hnew : fs.lstat cwd p.path = none) (h : (Mkdir sys cwd p.path fs).1 = true) :
    Fresh fs (Mkdir sys cwd p.path fs).2 cwd (p.path ++ '/' :: t) := by
  obtain ⟨q, s, ts, hq, hts, hjoined, _, hloop⟩ := p.exists_loop
  rw [Mkdir_of_new hnew, hloop] at h ⊢
  rw [← hjoined]
  exact mkdirParts_fresh hq hts ht (le_refl fs) (.inl rfl) h

/-- **`Mkdir` tells the truth, unless the path is there already and no directory.** -/
theorem tellsTruth_iff (sys : System) (cwd : Loc) (fs : FileSystem) (p : PlainPath) :
    TellsTruth sys cwd fs p.path ↔ (fs.lstat cwd p.path ≠ none → fs.IsDirectory cwd p.path) := by
  constructor
  · intro h hex
    have htrue := h.truth
    rw [Mkdir_of_exists hex] at htrue
    exact htrue.mp rfl
  · exact tellsTruth

/-- Nothing is there yet, and the path repeats a slash and ends in one. -/
theorem tellsTruth_iff_nested :
    TellsTruth System.permissive [] FileSystem.root ['a', '/', '/', 'b', '/'] := by
  have hparts : ∀ n ∈ Path.parts ['a', '/', '/', 'b', '/'], IsPart n := by decide
  have hnew : FileSystem.root.lstat [] ['a', '/', '/', 'b', '/'] = none := by decide
  refine (tellsTruth_iff System.permissive [] FileSystem.root
    ⟨['a', '/', '/', 'b', '/'], List.cons_ne_nil _ _, hparts⟩).mpr fun hex => ?_
  exact absurd hnew hex

/-- On a file `Mkdir` returns true. -/
theorem not_tellsTruth_file : ¬TellsTruth System.permissive []
    (FileSystem.root.put [] ['f'] (.regular []) rfl (by decide) (by decide)) ['f'] := by
  intro h
  have htrue := h.truth
  rw [Mkdir_of_exists (by decide)] at htrue
  obtain ⟨l, hl, hdir⟩ := htrue.mp rfl
  have hplace : l = [['f']] := by
    have hfound : (FileSystem.root.put [] ['f'] (.regular []) rfl (by decide) (by decide)).stat []
        ['f'] = some [['f']] := by decide
    rw [hfound] at hl
    exact (Option.some.inj hl).symm
  rw [hplace] at hdir
  exact absurd hdir (by decide)

end LioNet.FSUtil
