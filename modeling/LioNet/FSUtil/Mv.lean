import LioNet.FSUtil.Rm

/-!
# Moving trees

`FSUtil::Mv` removes the destination and then renames.  When the second step fails, or the first stops half
way, what was there has gone already.  So nothing is lost only if there was nothing at the destination, if
nothing of it can be removed, or if all of it can and the rename goes through (`losesNothing_iff`).
-/

namespace LioNet.FSUtil

open Lib FileSystem

def Mv (sys : System) (cwd : Loc) (fuel : Nat) (frm dest : Path) (fs : FileSystem) :
    Option (Bool × FileSystem) :=
  (Rm sys cwd fuel dest fs).map fun r =>
    if r.1 = false then (false, r.2)
    else
      match sys.renameAt r.2 cwd frm dest with
      | some fs' => (true, fs')
      | none => (false, r.2)

/-- `dest` holds the subtree that `frm` held, `frm` has gone, and the rest is as it was. -/
def Moves (cwd : Loc) (fs : FileSystem) (frm dest : Path) (fs' : FileSystem) : Prop :=
  ∃ src dst, fs.place cwd frm = some src ∧ fs.entry src ≠ none ∧ fs.place cwd dest = some dst ∧
    (∀ r, fs'.entry (dst ++ r) = fs.entry (src ++ r)) ∧
    (src ≠ dst → ∀ k, src <+: k → fs'.entry k = none) ∧
    ∀ k, ¬src <+: k → ¬dst <+: k → fs'.entry k = fs.entry k

/-- `Mv` moves when it returns true, and changes nothing when it returns false. -/
def LosesNothing (sys : System) (cwd : Loc) (fs : FileSystem) (frm dest : Path) : Prop :=
  ∃ ret fs', (∀ fuel, fs.depth < fuel → Mv sys cwd fuel frm dest fs = some (ret, fs')) ∧
    (ret = true → Moves cwd fs frm dest fs') ∧ (ret = false → ∀ k, fs'.entry k = fs.entry k)

/-- What `Rm path`, for the place `l`, cannot take away: something at or below `k` is not reached or not
removable, or `rmdir` does not find the path itself. -/
def Stuck (sys : System) (cwd : Loc) (fs : FileSystem) (path : Path) (l k : Loc) : Prop :=
  (∃ r e, fs.entry (k ++ r) = some e ∧ ¬RemovableIn sys l (k ++ r) e) ∨
    (k = l ∧ fs.place cwd path ≠ some l)

/-- There is nothing at `dest`; or nothing of it can be removed; or all of it can, on a way that does not lead
through it, and `rename` succeeds without it. -/
def Safe (sys : System) (cwd : Loc) (fs : FileSystem) (frm dest : Path) : Prop :=
  fs.lstat cwd dest = none ∨ ∃ l, fs.lstat cwd dest = some l ∧
    ((∀ k, l <+: k → fs.entry k ≠ none → Stuck sys cwd fs dest l k) ∨
      (fs.prune l).place cwd dest = some l ∧
        (∀ k e, l <+: k → fs.entry k = some e → Removable sys k e) ∧
          ∃ fs', sys.renameAt (fs.cut l) cwd frm dest = some fs')

section Stuck

variable {sys : System} {cwd l : Loc} {fuel : Nat} {path : Path} {fs fs' : FileSystem} {ret : Bool}

/-- A call that changes nothing could remove nothing. -/
theorem stuck_of_unchanged (henough : Enough fuel fs cwd path) (hl : fs.lstat cwd path = some l)
    (hrun : Rm sys cwd fuel path fs = some (ret, fs)) {k : Loc} (hk : l <+: k)
    (hne : fs.entry k ≠ none) : Stuck sys cwd fs path l k := by
  induction fuel generalizing path l k ret with
  | zero => cases hrun
  | succ fuel ih =>
    obtain ⟨e, he⟩ := Option.ne_none_iff_exists'.mp (entry_of_lstat hl)
    by_cases hopen : e = .directory ∧ sys.opendir l = true
    · obtain ⟨rfl, hopen⟩ := hopen
      -- no entry that is not still to come could be removed, as long as nothing was
      let P : List Name → Bool → FileSystem → Prop := fun ns _ fs₁ => fs₁ = fs →
        ∀ n, fs.entry (l ++ [n]) ≠ none → n ∉ ns → ∀ k, l ++ [n] <+: k → fs.entry k ≠ none →
          ∃ r e, fs.entry (k ++ r) = some e ∧ ¬RemovableIn sys l (k ++ r) e
      have hinit : P (sys.readdir fs l) true fs := fun _ n hn hno => absurd (System.readdir_complete hn) hno
      have hskip : ∀ n ns ret fs₁, n = dot ∨ n = dotdot → P (n :: ns) ret fs₁ → P ns ret fs₁ := by
        intro n ns ret fs₁ hdots h hfs m hm hno
        refine h hfs m hm fun hmem => ?_
        rcases List.mem_cons.mp hmem with rfl | hmem
        · exact (fs.plain hm).not_dots hdots
        · exact hno hmem
      obtain ⟨ret₁, fs₁, hloop, hremovals, hstuck⟩ := (Rm_spec sys cwd fuel).loop henough hl he hopen
        (P := P) hinit hskip fun n ns ret fs₁ ret' fs₂ hn hex hremovals h hchild hrun' habsent hnext
          hfs m hm hno k hk hne => by
        rw [hfs] at hnext hrun'
        have hsame := hremovals.antisymm hnext
        rw [hsame] at hchild hrun'
        by_cases hmn : m = n
        · subst hmn
          have hstat := stat_of_lstat_directory hl he
          have hpath := (stat_eq_some.mp hstat).1
          have hplace := (place_child hpath hn).mpr ⟨l, hstat, he, rfl⟩
          have hlstat := (lstat_child hpath hn).mpr ⟨l, hstat, he, rfl, hm⟩
          rcases ih hchild hlstat hrun' hk hne with ⟨r, e, he', hrem⟩ | ⟨-, hno⟩
          · refine ⟨r, e, he', fun h => hrem ⟨h.1.child ?_, h.2⟩⟩
            exact hk.trans (List.prefix_append k r)
          · exact absurd hplace hno
        · exact h hsame m hm (fun hmem => (List.mem_cons.mp hmem).elim hmn hno) k hk hne
      rcases Rm_directory_cases hl he hopen hremovals.le hloop hrun with
        ⟨hrmdir, _, rfl⟩ | ⟨_, _, _, _, _, hcut⟩
      · obtain ⟨r, rfl⟩ := hk
        cases r with
        | cons n r =>
          have hpre := snoc_above l n r
          exact .inl (hstuck rfl n (ne_none_above hne hpre) List.not_mem_nil _ hpre hne)
        | nil =>
          rw [List.append_nil]
          by_cases hempty : ∀ n, fs.entry (l ++ [n]) = none
          · by_cases hplace : fs.place cwd path = some l
            · refine .inl ⟨[], .directory, by rwa [List.append_nil], ?_⟩
              rw [List.append_nil, RemovableIn, Removable, if_pos rfl]
              rintro ⟨-, -, hperm⟩
              rw [System.rmdirAt_eq_some.mpr ⟨l, hplace, he, hempty, hperm, rfl⟩] at hrmdir
              cases hrmdir
            · exact .inr ⟨rfl, hplace⟩
          · obtain ⟨n, hn⟩ := not_forall.mp hempty
            obtain ⟨r, e, he', hrem⟩ := hstuck rfl n hn List.not_mem_nil _ List.prefix_rfl hn
            rw [List.append_assoc] at he' hrem
            exact .inl ⟨_, e, he', hrem⟩
      · rw [hcut, entry_cut_under List.prefix_rfl] at he
        cases he
    · obtain ⟨e', he'⟩ := Option.ne_none_iff_exists'.mp hne
      refine .inl ⟨[], e', by rwa [List.append_nil], ?_⟩
      rw [List.append_nil]
      rintro ⟨hreach, hrem⟩
      by_cases hkl : l = k
      · subst hkl
        obtain rfl := Option.some.inj (he.symm.trans he')
        rw [Removable] at hrem
        split at hrem
        · rename_i hdir
          exact hopen ⟨hdir, hrem.1⟩
        · rw [Rm_file hl he hrem.1, if_pos hrem.2, Option.some_inj] at hrun
          rw [← (Prod.mk.inj hrun).2, entry_cut_under List.prefix_rfl] at he
          cases he
      · -- nothing is reached through what is not opened
        obtain ⟨r, rfl⟩ := hk
        have hdir := directory_of_below (fun hr => hkl (by rw [hr, List.append_nil])) hne
        exact hopen ⟨Option.some.inj (he.symm.trans hdir),
          hreach.opens l List.prefix_rfl (List.prefix_append l r) hkl⟩

/-- What `rmdir` does not find stays. -/
theorem entry_of_place_ne (henough : Enough fuel fs cwd path) (hl : fs.lstat cwd path = some l)
    (hplace : fs.place cwd path ≠ some l) (hrun : Rm sys cwd fuel path fs = some (ret, fs')) :
    fs'.entry l = some .directory := by
  have hdir : fs.entry l = some .directory := by
    by_contra hno
    exact hplace (place_of_lstat hl hno)
  cases fuel with
  | zero => cases hrun
  | succ fuel =>
    by_cases hopen : sys.opendir l = true
    · obtain ⟨ret₁, fs₁, hloop, hremovals, _⟩ := (Rm_spec sys cwd fuel).loop henough hl hdir hopen
        (P := fun _ _ _ => True) trivial (fun _ _ _ _ _ _ => trivial)
        (fun _ _ _ _ _ _ _ _ _ _ _ _ _ _ => trivial)
      rcases Rm_directory_cases hl hdir hopen hremovals.le hloop hrun with ⟨_, _, rfl⟩ | ⟨hk, _⟩
      · exact hremovals.keeps hdir not_removableUnder_self
      · exact absurd (place_mono hremovals.le hk) hplace
    · rw [Rm_closed hl hdir (by decide) fun h => hopen h.2, Option.some_inj] at hrun
      rwa [← (Prod.mk.inj hrun).2]

/-- Where everything is stuck, nothing changes. -/
theorem unchanged_of_stuck (hl : fs.lstat cwd path = some l)
    (hstuck : ∀ k, l <+: k → fs.entry k ≠ none → Stuck sys cwd fs path l k)
    (hrun : ∀ fuel, fs.depth < fuel → Rm sys cwd fuel path fs = some (ret, fs'))
    (hremovals : Removals (RemovableIn sys l) fs fs') : ret = false ∧ fs' = fs := by
  have hfuel := Nat.lt_succ_self fs.depth
  have hsame : fs' = fs := by
    refine eq_of_le_of_le (fun k e he => ?_) hremovals.le hremovals.support
    by_cases hk : l <+: k
    · have hne : fs.entry k ≠ none := by rw [he]; exact Option.some_ne_none e
      rcases hstuck k hk hne with ⟨r, e', he', hrem⟩ | ⟨rfl, hplace⟩
      · -- what is stuck below keeps what is above
        have hstays := hremovals.keeps he' hrem
        have hne' : fs'.entry k ≠ none :=
          ne_none_above (by rw [hstays]; exact Option.some_ne_none e') (List.prefix_append k r)
        rw [← entry_eq_of_le hremovals.le hne', he]
      · have hdir := entry_of_place_ne (.of_depth hfuel) hl hplace (hrun _ hfuel)
        rw [← entry_eq_of_le hremovals.le (by rw [hdir]; exact Option.some_ne_none _), he]
    · exact hremovals.keeps he fun h => hk h.1.below
  refine ⟨?_, hsame⟩
  cases ret with
  | false => rfl
  | true =>
    have hcut := (eq_cut_of_true hl hrun).1
    have hne := entry_of_lstat hl
    rw [← hsame, hcut, entry_cut_under List.prefix_rfl] at hne
    exact absurd rfl hne

end Stuck

section Purpose

variable {sys : System} {cwd : Loc} {frm dest : Path} {fs fs' : FileSystem}

/-- A successful `rename` without the tree at the destination moves, in the tree with it. -/
theorem moves_of_cut {l : Loc} (hdirect : (fs.prune l).place cwd dest = some l)
    (hrename : sys.renameAt (fs.cut l) cwd frm dest = some fs') : Moves cwd fs frm dest fs' := by
  obtain ⟨src, dst, hsrc, hex, hdst, hwhere, hmoved⟩ := System.renameAt_moved hrename
  have hl : dst = l :=
    Option.some.inj ((place_mono (cut_le_prune fs l) hdst).symm.trans hdirect)
  subst hl
  have hsrc' : ¬dst <+: src := fun h => hex (entry_cut_under h)
  have hdst' : ¬src <+: dst := by
    rcases hwhere with rfl | ⟨h, _⟩
    · exact absurd List.prefix_rfl hsrc'
    · exact h
  have hapart : ∀ k, src <+: k → ¬dst <+: k := fun k hk hk' =>
    (List.prefix_or_prefix_of_prefix hk hk').elim hdst' hsrc'
  refine ⟨src, dst, place_mono (cut_le fs dst) hsrc, ne_none_of_le (cut_le fs dst) hex,
    place_mono (prune_le fs dst) hdirect, ?_, ?_, ?_⟩
  · intro r
    rw [hmoved.new, entry_cut (hapart _ (List.prefix_append src r))]
  · intro _ k hk
    exact hmoved.old k (hapart k hk) hk
  · intro k hk hk'
    rw [hmoved.other k hk' hk, entry_cut hk']

/-- A successful `rename` to where `lstat` finds nothing moves. -/
theorem moves_of_absent (habsent : fs.lstat cwd dest = none)
    (hrename : sys.renameAt fs cwd frm dest = some fs') : Moves cwd fs frm dest fs' := by
  obtain ⟨src, dst, hsrc, hex, hdst, hwhere, hmoved⟩ := System.renameAt_moved hrename
  have hnodir : fs.entry dst ≠ some .directory := by
    intro hdir
    exact lstat_ne_none_of_stat (stat_of_place hdst hdir) habsent
  refine ⟨src, dst, hsrc, hex, hdst, hmoved.new, ?_, fun k hk hk' => hmoved.other k hk' hk⟩
  intro hne k hk
  refine hmoved.old k (fun hk' => ?_) hk
  rcases List.prefix_or_prefix_of_prefix hk hk' with hpre | hpre
  · rcases hwhere with hsame | ⟨hno, _⟩
    · exact hne hsame
    · exact hno hpre
  · obtain ⟨r, rfl⟩ := hpre
    refine hnodir (directory_of_below (fun hr => hne ?_) hex)
    rw [hr, List.append_nil]

theorem Mv_of_false {fuel : Nat} (hrun : Rm sys cwd fuel dest fs = some (false, fs')) :
    Mv sys cwd fuel frm dest fs = some (false, fs') := by
  rw [Mv, hrun]
  rfl

theorem Mv_of_true {fuel : Nat} (hrun : Rm sys cwd fuel dest fs = some (true, fs')) :
    Mv sys cwd fuel frm dest fs =
      match sys.renameAt fs' cwd frm dest with
      | some fs'' => some (true, fs'')
      | none => some (false, fs') := by
  rw [Mv, hrun, Option.map_some]
  cases sys.renameAt fs' cwd frm dest with
  | none => rfl
  | some fs'' => rfl

/-- **`Mv` loses nothing just where it has nothing to remove, can remove nothing, or can remove all of it
and then rename.** -/
theorem losesNothing_iff : LosesNothing sys cwd fs frm dest ↔ Safe sys cwd fs frm dest := by
  obtain ⟨ret, fs₁, hrun, habsent, hremovals⟩ := exists_run sys cwd dest fs
  have hfuel := Nat.lt_succ_self fs.depth
  constructor
  · intro h
    obtain ⟨ret', fs', hmv, hmoves, hsame⟩ := h
    cases hl : fs.lstat cwd dest with
    | none => exact .inl hl
    | some l =>
      refine .inr ⟨l, hl, ?_⟩
      have hmv₁ := hmv _ hfuel
      cases ret with
      | false =>
        rw [Mv_of_false (hrun _ hfuel), Option.some_inj] at hmv₁
        obtain ⟨rfl, rfl⟩ := Prod.mk.inj hmv₁
        have hfs : fs₁ = fs := FileSystem.ext (funext (hsame rfl)) (hremovals l hl).support
        rw [hfs] at hrun
        exact .inl fun k hk hne => stuck_of_unchanged (.of_depth hfuel) hl (hrun _ hfuel) hk hne
      | true =>
        obtain ⟨hcut, hdirect, hrem⟩ := eq_cut_of_true hl hrun
        rw [Mv_of_true (hrun _ hfuel), hcut] at hmv₁
        refine .inr ⟨hdirect, hrem, ?_⟩
        cases hrename : sys.renameAt (fs.cut l) cwd frm dest with
        | some fs₂ => exact ⟨fs₂, rfl⟩
        | none =>
          rw [hrename] at hmv₁
          obtain ⟨rfl, rfl⟩ := Prod.mk.inj (Option.some.inj hmv₁)
          have hgone := hsame rfl l
          rw [entry_cut_under List.prefix_rfl] at hgone
          exact absurd hgone.symm (entry_of_lstat hl)
  · rintro (hl | ⟨l, hl, hstuck | ⟨hdirect, hrem, fs', hrename⟩⟩)
    · obtain ⟨rfl, rfl⟩ := habsent hl
      cases hrename : sys.renameAt fs₁ cwd frm dest with
      | none =>
        refine ⟨false, fs₁, fun fuel hf => ?_, (fun h => by cases h), fun _ _ => rfl⟩
        rw [Mv_of_true (hrun fuel hf), hrename]
      | some fs' =>
        refine ⟨true, fs', fun fuel hf => ?_, fun _ => moves_of_absent hl hrename, fun h => by cases h⟩
        rw [Mv_of_true (hrun fuel hf), hrename]
    · obtain ⟨rfl, rfl⟩ := unchanged_of_stuck hl hstuck hrun (hremovals l hl)
      exact ⟨false, fs₁, fun fuel hf => Mv_of_false (hrun fuel hf), (fun h => by cases h), fun _ _ => rfl⟩
    · have hcut := Rm_of_direct (.of_depth hfuel) hl hdirect hrem
      rw [hrun _ hfuel] at hcut
      obtain ⟨rfl, rfl⟩ := Prod.mk.inj (Option.some.inj hcut)
      refine ⟨true, fs', fun fuel hf => ?_, fun _ => moves_of_cut hdirect hrename, fun h => by cases h⟩
      rw [Mv_of_true (hrun fuel hf), hrename]

/-- A file that is moved to itself has gone. -/
theorem not_losesNothing_self : ¬LosesNothing System.permissive []
    (FileSystem.root.put [] ['a'] (.regular []) rfl (by decide) (by decide)) ['a'] ['a'] := by
  intro h
  obtain ⟨ret, fs', hmv, _, hsame⟩ := h
  have hrun := hmv 2 (by decide)
  have hlost : (Mv System.permissive [] 2 ['a'] ['a']
      (FileSystem.root.put [] ['a'] (.regular []) rfl (by decide) (by decide))).map
        (fun r => (r.1, r.2.entry [['a']])) = some (false, none) := by decide
  rw [hrun, Option.map_some, Option.some_inj] at hlost
  obtain ⟨hret, hnone⟩ := Prod.mk.inj hlost
  rw [hsame hret] at hnone
  exact absurd hnone (by decide)

end Purpose

end LioNet.FSUtil
