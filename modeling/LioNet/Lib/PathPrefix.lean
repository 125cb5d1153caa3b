import LioNet.Lib.SystemCalls

/-!
# The prefixes of a path

A prefix of a path is what stands before one of its slashes, or all of it.  `Parent` is the directory that
the names before the last one lead to: it is where a call on the path looks for the last name, and for
`path/t` it is the directory that `path` leads to (`parent_append`).
-/

namespace LioNet.Lib

namespace Path

variable {path q rest : Path} {n : Name} {c : Char}

/-- `q` is the path up to a slash, or all of it. -/
def PrefixOf (q path : Path) : Prop := q ≠ [] ∧ (q = path ∨ ∃ r, path = q ++ '/' :: r)

theorem PrefixOf.trans (h : q.PrefixOf path) (h' : path.PrefixOf rest) : q.PrefixOf rest := by
  obtain ⟨hq, rfl | ⟨r, rfl⟩⟩ := h
  · exact h'
  · rcases h'.2 with rfl | ⟨r', rfl⟩
    · exact ⟨hq, .inr ⟨r, rfl⟩⟩
    · exact ⟨hq, .inr ⟨r ++ '/' :: r', by rw [List.append_assoc]; rfl⟩⟩

theorem PrefixOf.length_le (h : q.PrefixOf path) : q.length ≤ path.length := by
  obtain ⟨_, rfl | ⟨r, rfl⟩⟩ := h
  · exact Nat.le_refl _
  · rw [List.length_append]
    omega

theorem PrefixOf.refl (h : path ≠ []) : path.PrefixOf path := ⟨h, .inl rfl⟩

theorem prefixOf_append (h : path ≠ []) : path.PrefixOf (path ++ '/' :: rest) := ⟨h, .inr ⟨rest, rfl⟩⟩

/-- A path has a last slash, or none. -/
theorem exists_last (path : Path) :
    ∃ t, '/' ∉ t ∧ (path = t ∨ ∃ p : Path, path = p ++ '/' :: t) := by
  induction path with
  | nil => exact ⟨[], List.not_mem_nil, .inl rfl⟩
  | cons c path ih =>
    obtain ⟨t, ht, rfl | ⟨p, rfl⟩⟩ := ih
    · by_cases hc : c = '/'
      · exact ⟨path, ht, .inr ⟨[], by rw [hc]; rfl⟩⟩
      · refine ⟨c :: path, ?_, .inl rfl⟩
        rw [List.mem_cons, not_or]
        exact ⟨Ne.symm hc, ht⟩
    · exact ⟨t, ht, .inr ⟨c :: p, rfl⟩⟩

/-- The proper prefixes end before the last slash. -/
theorem prefixOf_of_ne {p t : Path} (ht : '/' ∉ t) (hq : q.PrefixOf (p ++ '/' :: t))
    (hne : q ≠ p ++ '/' :: t) : q.PrefixOf p := by
  obtain ⟨hq, heq | ⟨r, hr⟩⟩ := hq
  · exact absurd heq hne
  · rcases List.append_eq_append_iff.mp hr with ⟨s, rfl, hs⟩ | ⟨s, rfl, hs⟩
    · cases s with
      | nil => exact ⟨hq, .inl (List.append_nil p)⟩
      | cons c s =>
        obtain ⟨_, rfl⟩ := List.cons.inj hs
        exact absurd (List.mem_append_right s List.mem_cons_self) ht
    · cases s with
      | nil => exact ⟨hq, .inl (List.append_nil q).symm⟩
      | cons c s =>
        obtain ⟨rfl, _⟩ := List.cons.inj hs
        exact ⟨hq, .inr ⟨s, rfl⟩⟩

theorem eq_of_prefixOf_noSlash {t : Path} (ht : '/' ∉ t) (hq : q.PrefixOf t) : q = t := by
  obtain ⟨_, heq | ⟨r, rfl⟩⟩ := hq
  · exact heq
  · exact absurd (List.mem_append_right q List.mem_cons_self) ht

theorem parts_cons_slash : parts ('/' :: path) = [] :: path.parts := List.splitOn_append_cons_self [] path

/-- A first character that is no slash belongs to the first part. -/
theorem parts_cons (hc : c ≠ '/') {t : Name} {ts : List Name} (h : path.parts = t :: ts) :
    parts (c :: path) = (c :: t) :: ts := by
  rw [parts, List.splitOn_cons_eq_if_modifyHead, if_neg (by simpa using hc), ← parts, h]
  rfl

/-- Every character is a slash or in one of the parts. -/
theorem mem_parts (h : c ∈ path) : c = '/' ∨ ∃ n ∈ path.parts, c ∈ n := by
  induction path with
  | nil => cases h
  | cons d path ih =>
    by_cases hd : d = '/'
    · subst hd
      rw [parts_cons_slash]
      rcases List.mem_cons.mp h with rfl | h
      · exact .inl rfl
      · exact (ih h).imp_right fun ⟨n, hn, hc⟩ => ⟨n, List.mem_cons_of_mem _ hn, hc⟩
    · obtain ⟨t, ts, hts⟩ := List.exists_cons_of_ne_nil (parts_ne_nil path)
      rw [parts_cons hd hts]
      rcases List.mem_cons.mp h with rfl | h
      · exact .inr ⟨c :: t, List.mem_cons_self, List.mem_cons_self⟩
      · rcases ih h with hc | ⟨n, hn, hc⟩
        · exact .inl hc
        · rw [hts] at hn
          rcases List.mem_cons.mp hn with rfl | hn
          · exact .inr ⟨d :: n, List.mem_cons_self, List.mem_cons_of_mem d hc⟩
          · exact .inr ⟨n, List.mem_cons_of_mem _ hn, hc⟩

/-- No slash is in a part. -/
theorem slash_notMem (h : n ∈ path.parts) : '/' ∉ n := by
  induction path generalizing n with
  | nil =>
    obtain rfl : n = [] := List.mem_singleton.mp h
    exact List.not_mem_nil
  | cons d path ih =>
    by_cases hd : d = '/'
    · subst hd
      rw [parts_cons_slash] at h
      rcases List.mem_cons.mp h with rfl | h
      · exact List.not_mem_nil
      · exact ih h
    · obtain ⟨t, ts, hts⟩ := List.exists_cons_of_ne_nil (parts_ne_nil path)
      rw [parts_cons hd hts] at h
      rcases List.mem_cons.mp h with rfl | h
      · rw [List.mem_cons, not_or]
        exact ⟨Ne.symm hd, ih (hts ▸ List.mem_cons_self)⟩
      · exact ih (hts ▸ List.mem_cons_of_mem t h)

end Path

namespace FileSystem

variable {fs fs' : FileSystem} {cwd l d : Loc} {path q : Path} {us : List Name} {t : Name}

/-- The directory that the names before the last one lead to. -/
def Parent (fs : FileSystem) (cwd : Loc) (path : Path) (d : Loc) : Prop :=
  (∃ b, Walks fs false maxSymlinks (path.start cwd) (path.parts.dropLast.map Path.orDot) d b) ∧
    fs.entry d = some .directory

theorem Parent.unique (h : fs.Parent cwd path l) (h' : fs.Parent cwd path d) : l = d := by
  obtain ⟨⟨b, hw⟩, -⟩ := h
  obtain ⟨⟨b', hw'⟩, -⟩ := h'
  exact (hw.unique hw').1

theorem Parent.of_extends (hle : Extends fs fs') (h : fs.Parent cwd path l) :
    fs'.Parent cwd path l := by
  obtain ⟨⟨b, hw⟩, hdir⟩ := h
  exact ⟨⟨b, hw.of_extends hle⟩, hle.directory hdir⟩

/-- With a slash at the end, the path leads to the parent itself. -/
theorem stat_of_last_empty (hpath : path ≠ []) (hparts : path.parts = us ++ [[]]) :
    fs.stat cwd path = some l ↔ fs.Parent cwd path l := by
  have hnames : path.names = us.map Path.orDot ++ [dot] := by
    rw [Path.names, hparts, List.map_append]
    rfl
  rw [stat_eq_some, hnames, Parent, hparts, List.dropLast_concat]
  constructor
  · rintro ⟨-, b, hw⟩
    obtain ⟨k, b₁, hk, hlast⟩ := hw.split (List.cons_ne_nil dot [])
    have hdir := hlast.directory (List.cons_ne_nil dot [])
    obtain ⟨rfl, -⟩ := hlast.unique (.dot hdir (.nil _ _))
    exact ⟨⟨b₁, hk⟩, hdir⟩
  · rintro ⟨⟨b, hw⟩, hdir⟩
    exact ⟨hpath, b, hw.append (.dot hdir (.nil _ _))⟩

theorem place_of_last_plain (ht : t.Plain) (hparts : path.parts = us ++ [t]) :
    fs.place cwd path = some l ↔ ∃ d, fs.Parent cwd path d ∧ l = d ++ [t] := by
  have hne : ¬t.isEmpty = true := fun h => ht.ne_nil (List.isEmpty_iff.mp h)
  have hentry : path.entryNames = us.map Path.orDot ++ [t] := by
    rw [Path.entryNames, hparts, List.rdropWhile_concat_neg _ _ _ hne, List.map_append,
      List.map_singleton, Path.orDot_of_plain ht]
  rw [place_eq_some, hentry]
  constructor
  · rintro ⟨q, n, d, b, hq, -, hw, hdir, rfl⟩
    obtain ⟨rfl, hn⟩ := List.append_inj' hq rfl
    obtain rfl : t = n := List.singleton_inj.mp hn
    refine ⟨d, ⟨⟨b, ?_⟩, hdir⟩, rfl⟩
    rw [hparts, List.dropLast_concat]
    exact hw
  · rintro ⟨d, ⟨⟨b, hw⟩, hdir⟩, rfl⟩
    rw [hparts, List.dropLast_concat] at hw
    exact ⟨_, t, d, b, rfl, ⟨ht.ne_dot, ht.ne_dotdot⟩, hw, hdir, rfl⟩

theorem not_endsInDots_of_last_plain (ht : t.Plain) (hparts : path.parts = us ++ [t]) :
    ¬EndsInDots path := by
  rw [EndsInDots, Path.names, hparts, List.map_append, List.map_singleton, List.getLast?_concat,
    Path.orDot_of_plain ht, Option.some_inj, Option.some_inj]
  exact ht.not_dots

theorem parent_of_lstat (ht : t.Plain) (hparts : path.parts = us ++ [t])
    (h : fs.lstat cwd path ≠ none) : ∃ d, fs.Parent cwd path d ∧ fs.entry (d ++ [t]) ≠ none := by
  obtain ⟨k, hk⟩ := Option.ne_none_iff_exists'.mp h
  rw [lstat, if_neg (not_endsInDots_of_last_plain ht hparts), Option.filter_eq_some_iff,
    Option.isSome_iff_ne_none, place_of_last_plain ht hparts] at hk
  obtain ⟨⟨d, hd, rfl⟩, hne⟩ := hk
  exact ⟨d, hd, hne⟩

/-- What a path with a plain last name leads to is in the parent, or a link there leads to it. -/
theorem parent_of_stat (ht : t.Plain) (hparts : path.parts = us ++ [t])
    (h : fs.stat cwd path = some l) : ∃ d, fs.Parent cwd path d ∧ fs.entry (d ++ [t]) ≠ none :=
  parent_of_lstat ht hparts (lstat_ne_none_of_stat h)

theorem lstat_of_parent (ht : t.Plain) (hparts : path.parts = us ++ [t])
    (h : fs.Parent cwd path d) (hne : fs.entry (d ++ [t]) ≠ none) :
    fs.lstat cwd path = some (d ++ [t]) := by
  rw [lstat, if_neg (not_endsInDots_of_last_plain ht hparts), Option.filter_eq_some_iff,
    Option.isSome_iff_ne_none, place_of_last_plain ht hparts]
  exact ⟨⟨d, h, rfl⟩, hne⟩

theorem parent_append (hpath : path ≠ []) (ht : '/' ∉ t) :
    fs.Parent cwd (path ++ '/' :: t) d ↔ fs.stat cwd path = some d ∧ fs.entry d = some .directory := by
  rw [Parent, Path.start_append hpath, Path.parts_append, Path.parts_of_noSlash ht,
    List.dropLast_concat, stat_eq_some]
  constructor
  · rintro ⟨hw, hdir⟩
    exact ⟨⟨hpath, hw⟩, hdir⟩
  · rintro ⟨⟨-, hw⟩, hdir⟩
    exact ⟨hw, hdir⟩

/-- The first part is looked up in the directory where the path starts. -/
theorem parent_first {c : Char} (ht : '/' ∉ t)
    (hdir : fs.entry (Path.start cwd (c :: t)) = some .directory) :
    fs.Parent cwd (c :: t) (Path.start cwd (c :: t)) := by
  refine ⟨⟨maxSymlinks, ?_⟩, hdir⟩
  by_cases hc : c = '/'
  · rw [hc, Path.parts_cons_slash, Path.parts_of_noSlash ht]
    rw [hc] at hdir
    exact .dot hdir (.nil _ _)
  · rw [Path.parts_cons hc (Path.parts_of_noSlash ht)]
    exact .nil _ _

/-- What a path leads through is a directory. -/
theorem directory_above {r : Path} (hq : q ≠ []) (h : fs.stat cwd (q ++ '/' :: r) = some l) :
    fs.IsDirectory cwd q := by
  obtain ⟨-, b, hw⟩ := stat_eq_some.mp h
  rw [Path.start_append hq, Path.names_append] at hw
  obtain ⟨d, b₁, hd, hrest⟩ := hw.split Path.names_ne_nil
  exact ⟨d, stat_eq_some.mpr ⟨hq, b₁, hd⟩, hrest.directory Path.names_ne_nil⟩

theorem IsDirectory.prefixOf (h : fs.IsDirectory cwd path) (hq : q.PrefixOf path) :
    fs.IsDirectory cwd q := by
  obtain ⟨hne, rfl | ⟨r, rfl⟩⟩ := hq
  · exact h
  · obtain ⟨l, hl, _⟩ := h
    exact directory_above hne hl

end FileSystem

end LioNet.Lib
