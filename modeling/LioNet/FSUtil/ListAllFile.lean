import LioNet.Lib.SystemCalls

/-!
# Listing files

`FSUtil::ListAllFile` appends the path of every regular file below a directory whose name ends with the
suffix, if all the directories there can be opened.  A file below is known by the names that lead to it, and these can be read off the path again
(`parts_below`); so no path is listed twice, and what the entries of a directory contribute is disjoint.
-/

namespace LioNet.FSUtil

open Lib FileSystem

/-! ### The code -/

def DT_UNKNOWN : Nat := 0
def DT_FIFO : Nat := 1
def DT_CHR : Nat := 2
def DT_DIR : Nat := 4
def DT_BLK : Nat := 6
def DT_REG : Nat := 8
def DT_LNK : Nat := 10
def DT_SOCK : Nat := 12

/-- `d_type` for what a directory lists; the two dots are directories. -/
def d_type (fs : FileSystem) (l : Loc) (n : Name) : Nat :=
  if n = dot ∨ n = dotdot then DT_DIR
  else
    match fs.entry (l ++ [n]) with
    | some .directory => DT_DIR
    | some (.regular _) => DT_REG
    | some (.symlink _ _) => DT_LNK
    | some .fifo => DT_FIFO
    | some .socket => DT_SOCK
    | some .blockDevice => DT_BLK
    | some .charDevice => DT_CHR
    | none => DT_UNKNOWN

/-- The loop of `ListAllFile` over what `readdir` gives. -/
def ListEntries (listAllFile : Path → List Path → Option (List Path)) (typ : Name → Nat) (path : Path)
    (subfix : List Char) : List Name → List Path → Option (List Path)
  | [], files => some files
  | n :: ns, files =>
    if typ n = DT_DIR then
      if n = dot ∨ n = dotdot then ListEntries listAllFile typ path subfix ns files
      else
        (listAllFile (path.child n) files).bind fun files' =>
          ListEntries listAllFile typ path subfix ns files'
    else if typ n = DT_REG then
      if subfix = [] then ListEntries listAllFile typ path subfix ns (files ++ [path.child n])
      else if n.length < subfix.length then ListEntries listAllFile typ path subfix ns files
      else if n.drop (n.length - subfix.length) = subfix then
        ListEntries listAllFile typ path subfix ns (files ++ [path.child n])
      else ListEntries listAllFile typ path subfix ns files
    else ListEntries listAllFile typ path subfix ns files

/-- The depth of the recursion is bounded by the fuel; `none` when it runs out. -/
def ListAllFile (sys : System) (cwd : Loc) (fs : FileSystem) (subfix : List Char) :
    Nat → Path → List Path → Option (List Path)
  | 0, _, _ => none
  | fuel + 1, path, files =>
    match fs.stat cwd path with
    | none => some files
    | some l =>
      match sys.opendirAt fs cwd path with
      | none => some files
      | some dir => ListEntries (ListAllFile sys cwd fs subfix fuel) (d_type fs l) path subfix dir files

/-! ### Paths below -/

/-- The path that the names lead to from `path` on. -/
def below (path : Path) (names : List Name) : Path := names.foldl Path.child path

section Below

variable {path : Path} {ns ms : List Name} {n : Name}

theorem below_cons : below path (n :: ns) = below (path.child n) ns := rfl

theorem parts_below (h : ∀ n ∈ ns, n.Plain) : (below path ns).parts = path.parts ++ ns := by
  induction ns generalizing path with
  | nil => exact (List.append_nil _).symm
  | cons n ns ih =>
    rw [below_cons, ih fun m hm => h m (List.mem_cons_of_mem n hm),
      Path.parts_child (h n List.mem_cons_self), List.append_assoc]
    rfl

theorem below_inj (hns : ∀ n ∈ ns, n.Plain) (hms : ∀ n ∈ ms, n.Plain)
    (h : below path ns = below path ms) : ns = ms := by
  have hparts := congrArg Path.parts h
  rw [parts_below hns, parts_below hms] at hparts
  exact List.append_cancel_left hparts

/-- The names that lead to something are plain. -/
theorem plain_of_below {fs : FileSystem} {l : Loc} (h : fs.entry (l ++ ns) ≠ none) :
    ∀ n ∈ ns, n.Plain := by
  induction ns using List.reverseRecOn with
  | nil => exact fun n hn => absurd hn List.not_mem_nil
  | append_singleton ns n ih =>
    intro m hm
    rw [← List.append_assoc] at h
    rcases List.mem_append.mp hm with hm | hm
    · exact ih (ne_none_above h (List.prefix_append _ _)) m hm
    · rw [List.mem_singleton.mp hm]
      exact fs.plain h

end Below

/-! ### What is listed -/

/-- The names lead from the directory `l` to a regular file, and the last of them ends with the suffix. -/
def LeadsToFile (fs : FileSystem) (l : Loc) (subfix : List Char) (names : List Name) : Prop :=
  ∃ n c, names.getLast? = some n ∧ subfix <:+ n ∧ fs.entry (l ++ names) = some (.regular c)

/-- `s` is the path of a regular file below the entry `n` of `l`, or of this entry itself. -/
def ListedAt (fs : FileSystem) (l : Loc) (subfix : List Char) (path : Path) (n : Name) (s : Path) : Prop :=
  ∃ rest, LeadsToFile fs l subfix (n :: rest) ∧ s = below path (n :: rest)

section Listed

variable {fs : FileSystem} {l : Loc} {subfix : List Char} {path s : Path} {n m : Name} {names : List Name}

theorem LeadsToFile.plain (h : LeadsToFile fs l subfix names) : ∀ n ∈ names, n.Plain := by
  obtain ⟨n, c, _, _, hentry⟩ := h
  exact plain_of_below (by rw [hentry]; exact Option.some_ne_none _)

/-- Below an entry that is there, the names go on from it. -/
theorem leadsToFile_cons (hnames : names ≠ []) :
    LeadsToFile fs l subfix (n :: names) ↔ LeadsToFile fs (l ++ [n]) subfix names := by
  obtain ⟨m, rest, rfl⟩ := List.exists_cons_of_ne_nil hnames
  rw [LeadsToFile, LeadsToFile, List.getLast?_cons_cons, List.append_assoc]
  rfl

/-- The entries of a directory have no path in common. -/
theorem ListedAt.eq (h : ListedAt fs l subfix path n s) (h' : ListedAt fs l subfix path m s) :
    n = m := by
  obtain ⟨rest, hfile, rfl⟩ := h
  obtain ⟨rest', hfile', heq⟩ := h'
  exact (List.cons.inj (below_inj hfile.plain hfile'.plain heq)).1

theorem not_listedAt_dots (h : n = dot ∨ n = dotdot) : ¬ListedAt fs l subfix path n s := by
  rintro ⟨rest, hfile, _⟩
  exact (hfile.plain n List.mem_cons_self).not_dots h

/-- What a directory contributes. -/
theorem listedAt_directory (hdir : fs.entry (l ++ [n]) = some .directory) :
    ListedAt fs l subfix path n s ↔ ∃ m, ListedAt fs (l ++ [n]) subfix (path.child n) m s := by
  constructor
  · rintro ⟨rest, hfile, rfl⟩
    cases rest with
    | nil =>
      obtain ⟨_, c, _, _, hentry⟩ := hfile
      rw [hdir] at hentry
      cases hentry
    | cons m rest => exact ⟨m, rest, (leadsToFile_cons (List.cons_ne_nil m rest)).mp hfile, rfl⟩
  · rintro ⟨m, rest, hfile, rfl⟩
    exact ⟨m :: rest, (leadsToFile_cons (List.cons_ne_nil m rest)).mpr hfile, rfl⟩

/-- Anything else contributes its own path only, and this if it is a regular file. -/
theorem listedAt_other (hdir : fs.entry (l ++ [n]) ≠ some .directory) :
    ListedAt fs l subfix path n s ↔
      (∃ c, fs.entry (l ++ [n]) = some (.regular c)) ∧ subfix <:+ n ∧ s = path.child n := by
  constructor
  · rintro ⟨rest, hfile, rfl⟩
    cases rest with
    | nil =>
      obtain ⟨n', c, hlast, hsuffix, hentry⟩ := hfile
      obtain rfl : n = n' := Option.some.inj hlast
      exact ⟨⟨c, hentry⟩, hsuffix, rfl⟩
    | cons m rest =>
      obtain ⟨_, c, _, _, hentry⟩ := (leadsToFile_cons (List.cons_ne_nil m rest)).mp hfile
      rw [none_below hdir (List.cons_ne_nil m rest)] at hentry
      cases hentry
  · rintro ⟨⟨c, hentry⟩, hsuffix, rfl⟩
    exact ⟨[], ⟨n, c, rfl, hsuffix, hentry⟩, rfl⟩

end Listed

/-! ### The loop -/

section Loop

variable {listAllFile listAllFile' : Path → List Path → Option (List Path)} {typ : Name → Nat}
  {path : Path} {subfix : List Char} {n : Name} {ns : List Name} {files r : List Path}

/-- What the loop does with one entry. -/
def listEntry (listAllFile : Path → List Path → Option (List Path)) (typ : Name → Nat) (path : Path)
    (subfix : List Char) (n : Name) (files : List Path) : Option (List Path) :=
  if typ n = DT_DIR then
    if n = dot ∨ n = dotdot then some files else listAllFile (path.child n) files
  else if typ n = DT_REG ∧ subfix <:+ n then some (files ++ [path.child n])
  else some files

/-- The test of the name is the one for a suffix. -/
theorem suffix_iff : subfix <:+ n ↔
    subfix = [] ∨ ¬n.length < subfix.length ∧ n.drop (n.length - subfix.length) = subfix := by
  rw [List.suffix_iff_eq_drop]
  constructor
  · intro h
    refine .inr ⟨fun hlt => ?_, h.symm⟩
    have hlen := congrArg List.length h
    rw [List.length_drop] at hlen
    omega
  · rintro (rfl | ⟨_, h⟩)
    · rw [List.length_nil, Nat.sub_zero, List.drop_length]
    · exact h.symm

theorem ListEntries_cons : ListEntries listAllFile typ path subfix (n :: ns) files =
    (listEntry listAllFile typ path subfix n files).bind
      (ListEntries listAllFile typ path subfix ns) := by
  rw [ListEntries, listEntry]
  by_cases hdir : typ n = DT_DIR
  · rw [if_pos hdir, if_pos hdir]
    by_cases hdots : n = dot ∨ n = dotdot
    · rw [if_pos hdots, if_pos hdots, Option.bind_some]
    · rw [if_neg hdots, if_neg hdots]
  · rw [if_neg hdir, if_neg hdir]
    by_cases hreg : typ n = DT_REG
    · rw [if_pos hreg]
      by_cases hempty : subfix = []
      · rw [if_pos hempty, if_pos ⟨hreg, suffix_iff.mpr (.inl hempty)⟩, Option.bind_some]
      · rw [if_neg hempty]
        by_cases hlt : n.length < subfix.length
        · rw [if_pos hlt, if_neg, Option.bind_some]
          exact fun h => (suffix_iff.mp h.2).elim hempty fun h => h.1 hlt
        · rw [if_neg hlt]
          by_cases heq : n.drop (n.length - subfix.length) = subfix
          · rw [if_pos heq, if_pos ⟨hreg, suffix_iff.mpr (.inr ⟨hlt, heq⟩)⟩, Option.bind_some]
          · rw [if_neg heq, if_neg, Option.bind_some]
            exact fun h => (suffix_iff.mp h.2).elim hempty fun h => heq h.2
    · rw [if_neg hreg, if_neg fun h => hreg h.1, Option.bind_some]

theorem ListEntries_mono (h : ∀ path files r, listAllFile path files = some r →
    listAllFile' path files = some r) (hrun : ListEntries listAllFile typ path subfix ns files = some r) :
    ListEntries listAllFile' typ path subfix ns files = some r := by
  induction ns generalizing files with
  | nil => exact hrun
  | cons n ns ih =>
    rw [ListEntries_cons] at hrun ⊢
    obtain ⟨files', hentry, hrest⟩ := Option.bind_eq_some_iff.mp hrun
    have hentry' : listEntry listAllFile' typ path subfix n files = some files' := by
      rw [listEntry] at hentry ⊢
      by_cases hdir : typ n = DT_DIR ∧ ¬(n = dot ∨ n = dotdot)
      · rw [if_pos hdir.1, if_neg hdir.2] at hentry ⊢
        exact h _ _ _ hentry
      · rw [← hentry]
        split
        · rename_i htyp
          rw [if_pos (not_not.mp fun hdots => hdir ⟨htyp, hdots⟩),
            if_pos (not_not.mp fun hdots => hdir ⟨htyp, hdots⟩)]
        · rfl
    rw [hentry', Option.bind_some]
    exact ih hrest

/-- Each entry adds its own paths, and different entries add different ones. -/
theorem ListEntries_spec {own : Name → Path → Prop} (hns : ns.Nodup)
    (happart : ∀ n m s, own n s → own m s → n = m)
    (hentry : ∀ n ∈ ns, ∀ files, ∃ added, listEntry listAllFile typ path subfix n files =
      some (files ++ added) ∧ added.Nodup ∧ ∀ s, s ∈ added ↔ own n s) (files : List Path) :
    ∃ added, ListEntries listAllFile typ path subfix ns files = some (files ++ added) ∧
      added.Nodup ∧ ∀ s, s ∈ added ↔ ∃ n ∈ ns, own n s := by
  induction ns generalizing files with
  | nil =>
    refine ⟨[], by rw [ListEntries, List.append_nil], List.nodup_nil, fun s => ?_⟩
    constructor
    · exact fun h => absurd h List.not_mem_nil
    · rintro ⟨n, hn, _⟩
      exact absurd hn List.not_mem_nil
  | cons n ns ih =>
    obtain ⟨hn, hns⟩ := List.nodup_cons.mp hns
    obtain ⟨first, hfirst, hnodup, hmem⟩ := hentry n List.mem_cons_self files
    obtain ⟨others, hothers, hnodup', hmem'⟩ :=
      ih hns (fun m hm => hentry m (List.mem_cons_of_mem n hm)) (files ++ first)
    refine ⟨first ++ others, ?_, ?_, fun s => ?_⟩
    · rw [ListEntries_cons, hfirst, Option.bind_some, hothers, List.append_assoc]
    · refine List.nodup_append.mpr ⟨hnodup, hnodup', ?_⟩
      rintro s hs s' hs' rfl
      obtain ⟨m, hm, hown⟩ := (hmem' s).mp hs'
      exact hn (happart n m s ((hmem s).mp hs) hown ▸ hm)
    · rw [List.mem_append, hmem, hmem', List.exists_mem_cons_iff]

end Loop

/-! ### ListAllFile -/

section Run

variable {sys : System} {cwd l : Loc} {fs : FileSystem} {subfix : List Char} {fuel : Nat} {path : Path}
  {files r : List Path}

theorem ListAllFile_directory (hl : fs.stat cwd path = some l) (hdir : fs.entry l = some .directory)
    (hopen : sys.opendir l = true) :
    ListAllFile sys cwd fs subfix (fuel + 1) path files =
      ListEntries (ListAllFile sys cwd fs subfix fuel) (d_type fs l) path subfix (sys.readdir fs l)
        files := by
  have hsome : sys.opendirAt fs cwd path = some (sys.readdir fs l) := by
    rw [System.opendirAt_of_stat hl, if_pos ⟨hdir, hopen⟩]
  rw [ListAllFile, hl]
  simp only [hsome]

theorem ListAllFile_other
    (h : ¬∃ l, fs.stat cwd path = some l ∧ fs.entry l = some .directory ∧ sys.opendir l = true) :
    ListAllFile sys cwd fs subfix (fuel + 1) path files = some files := by
  rw [ListAllFile]
  cases hl : fs.stat cwd path with
  | none => rfl
  | some l =>
    have hnone : sys.opendirAt fs cwd path = none := by
      rw [System.opendirAt_of_stat hl, if_neg fun hdir => h ⟨l, hl, hdir⟩]
    simp only [hnone]

/-- More fuel changes nothing. -/
theorem ListAllFile_mono (h : ListAllFile sys cwd fs subfix fuel path files = some r) :
    ListAllFile sys cwd fs subfix (fuel + 1) path files = some r := by
  induction fuel generalizing path files r with
  | zero => cases h
  | succ fuel ih =>
    by_cases hdir : ∃ l, fs.stat cwd path = some l ∧ fs.entry l = some .directory ∧ sys.opendir l = true
    · obtain ⟨l, hl, hdir, hopen⟩ := hdir
      rw [ListAllFile_directory hl hdir hopen] at h ⊢
      exact ListEntries_mono (fun _ _ _ hrun => ih hrun) h
    · rw [ListAllFile_other hdir] at h ⊢
      exact h

theorem d_type_cases (fs : FileSystem) (l : Loc) {n : Name} (hn : n.Plain) :
    (d_type fs l n = DT_DIR ↔ fs.entry (l ++ [n]) = some .directory) ∧
      (d_type fs l n = DT_REG ↔ ∃ c, fs.entry (l ++ [n]) = some (.regular c)) := by
  rw [d_type, if_neg hn.not_dots]
  cases he : fs.entry (l ++ [n]) with
  | none => simp [DT_UNKNOWN, DT_DIR, DT_REG]
  | some e =>
    cases e <;> simp [DT_DIR, DT_REG, DT_LNK, DT_FIFO, DT_SOCK, DT_BLK, DT_CHR]

/-- All directories at and below `l` can be opened. -/
def Listable (sys : System) (fs : FileSystem) (l : Loc) : Prop :=
  ∀ k, l <+: k → fs.entry k = some .directory → sys.opendir k = true

/-- **A call on a directory adds the paths of the files below it, each once.** -/
theorem ListAllFile_spec (subfix : List Char) (hl : fs.stat cwd path = some l)
    (hdir : fs.entry l = some .directory) (hopen : Listable sys fs l) (hfuel : fs.depth < fuel + l.length) (files : List Path) :
    ∃ added, ListAllFile sys cwd fs subfix fuel path files = some (files ++ added) ∧ added.Nodup ∧
      ∀ s, s ∈ added ↔ ∃ n, ListedAt fs l subfix path n s := by
  induction fuel generalizing path l files with
  | zero =>
    have hlen := length_le_depth (by rw [hdir]; exact Option.some_ne_none _ : fs.entry l ≠ none)
    omega
  | succ fuel ih =>
    have hentry : ∀ n ∈ sys.readdir fs l, ∀ files, ∃ added,
        listEntry (ListAllFile sys cwd fs subfix fuel) (d_type fs l) path subfix n files =
          some (files ++ added) ∧ added.Nodup ∧ ∀ s, s ∈ added ↔ ListedAt fs l subfix path n s := by
      intro n hn files
      rw [listEntry]
      by_cases hdots : n = dot ∨ n = dotdot
      · have htyp : d_type fs l n = DT_DIR := if_pos hdots
        rw [if_pos htyp, if_pos hdots]
        refine ⟨[], by rw [List.append_nil], List.nodup_nil, fun s => ?_⟩
        exact ⟨fun h => absurd h List.not_mem_nil, fun h => absurd h (not_listedAt_dots hdots)⟩
      · have hex := System.mem_readdir hn hdots
        have hplain := fs.plain hex
        obtain ⟨hisdir, hisreg⟩ := d_type_cases fs l hplain
        by_cases hndir : fs.entry (l ++ [n]) = some .directory
        · -- a directory adds what the call for it adds
          have hchild : fs.stat cwd (path.child n) = some (l ++ [n]) :=
            stat_of_place ((place_child (stat_eq_some.mp hl).1 hplain).mpr ⟨l, hl, hdir, rfl⟩) hndir
          rw [if_pos (hisdir.mpr hndir), if_neg hdots]
          have hbelow : Listable sys fs (l ++ [n]) := fun k hk =>
            hopen k ((List.prefix_append l [n]).trans hk)
          obtain ⟨added, hrun, hnodup, hmem⟩ := ih hchild hndir hbelow (by
            rw [List.length_append, List.length_singleton]
            omega) files
          exact ⟨added, hrun, hnodup, fun s => (hmem s).trans (listedAt_directory hndir).symm⟩
        · rw [if_neg fun h => hndir (hisdir.mp h)]
          by_cases hfile : d_type fs l n = DT_REG ∧ subfix <:+ n
          · rw [if_pos hfile]
            refine ⟨[path.child n], rfl, List.nodup_singleton _, fun s => ?_⟩
            rw [List.mem_singleton, listedAt_other hndir]
            exact ⟨fun h => ⟨hisreg.mp hfile.1, hfile.2, h⟩, fun h => h.2.2⟩
          · rw [if_neg hfile]
            refine ⟨[], by rw [List.append_nil], List.nodup_nil, fun s => ?_⟩
            rw [listedAt_other hndir]
            exact ⟨fun h => absurd h List.not_mem_nil,
              fun h => absurd ⟨hisreg.mpr h.1, h.2.1⟩ hfile⟩
    rw [ListAllFile_directory hl hdir (hopen l List.prefix_rfl hdir)]
    obtain ⟨added, hrun, hnodup, hmem⟩ :=
      ListEntries_spec System.nodup_readdir
        (fun n m s (h : ListedAt fs l subfix path n s) h' => h.eq h') hentry files
    refine ⟨added, hrun, hnodup, fun s => (hmem s).trans ?_⟩
    constructor
    · rintro ⟨n, _, hs⟩
      exact ⟨n, hs⟩
    · rintro ⟨n, hs⟩
      refine ⟨n, System.readdir_complete ?_, hs⟩
      obtain ⟨rest, ⟨_, c, _, _, he⟩, _⟩ := hs
      exact ne_none_above (by rw [he]; exact Option.some_ne_none _) (snoc_above l n rest)

theorem ListAllFile_of_le {fuel' : Nat} (hle : fuel ≤ fuel')
    (h : ListAllFile sys cwd fs subfix fuel path files = some r) :
    ListAllFile sys cwd fs subfix fuel' path files = some r := by
  induction hle with
  | refl => exact h
  | step _ ih => exact ListAllFile_mono ih

/-- **`ListAllFile` appends just the paths of the regular files below the path whose names end with the
suffix, each once**, where it can open the directories. -/
theorem ListAllFile_complete (sys : System) (cwd : Loc) (fs : FileSystem) (path : Path)
    (subfix : List Char) (files : List Path)
    (hopen : ∀ l, fs.stat cwd path = some l → Listable sys fs l) :
    ∃ added, (∀ fuel, fs.depth < fuel →
        ListAllFile sys cwd fs subfix fuel path files = some (files ++ added)) ∧ added.Nodup ∧
      ∀ s, s ∈ added ↔ ∃ l names, fs.stat cwd path = some l ∧ LeadsToFile fs l subfix names ∧
        s = below path names := by
  have hfuel := Nat.lt_succ_self fs.depth
  by_cases hdir : fs.IsDirectory cwd path
  · obtain ⟨l, hl, hdir⟩ := hdir
    obtain ⟨added, hrun, hnodup, hmem⟩ :=
      ListAllFile_spec subfix hl hdir (hopen l hl) (by omega : fs.depth < fs.depth + 1 + l.length) files
    refine ⟨added, fun fuel hf => ListAllFile_of_le hf hrun, hnodup, fun s => (hmem s).trans ?_⟩
    constructor
    · rintro ⟨n, rest, hfile, hs⟩
      exact ⟨l, n :: rest, hl, hfile, hs⟩
    · rintro ⟨l', names, hl', hfile, hs⟩
      obtain rfl := Option.some.inj (hl.symm.trans hl')
      cases names with
      | nil =>
        obtain ⟨n, _, hlast, _⟩ := hfile
        cases hlast
      | cons n rest => exact ⟨n, rest, hfile, hs⟩
  · refine ⟨[], fun fuel hf => ?_, List.nodup_nil, fun s => ?_⟩
    · rw [List.append_nil]
      have hrun : ListAllFile sys cwd fs subfix 1 path files = some files :=
        ListAllFile_other fun ⟨l, hl, h, _⟩ => hdir ⟨l, hl, h⟩
      exact ListAllFile_of_le (by omega) hrun
    · constructor
      · exact fun h => absurd h List.not_mem_nil
      · rintro ⟨l, names, hl, ⟨n, c, hlast, _, he⟩, _⟩
        refine absurd ⟨l, hl, directory_of_below ?_ (by rw [he]; exact Option.some_ne_none _)⟩ hdir
        rintro rfl
        cases hlast

/-- A file in a directory. -/
theorem ListAllFile_complete_below :
    let fs := (FileSystem.root.put [] ['d'] .directory rfl (by decide) (by decide)).put [['d']] ['f']
      (.regular []) (by decide) (by decide) (by decide)
    ∃ added, (∀ fuel, fs.depth < fuel →
        ListAllFile System.permissive [] fs [] fuel ['d'] [] = some added) ∧ ['d', '/', 'f'] ∈ added := by
  intro fs
  obtain ⟨added, hrun, -, hmem⟩ :=
    ListAllFile_complete System.permissive [] fs ['d'] [] [] fun _ _ _ _ _ => rfl
  refine ⟨added, hrun, (hmem _).mpr ⟨[['d']], [['f']], by decide, ?_, rfl⟩⟩
  exact ⟨['f'], [], rfl, List.nil_suffix, by decide⟩

end Run

end LioNet.FSUtil
