import LioNet.Lib.SystemCalls

/-!
# Symbolic links and canonical paths

A lookup without the bound on the number of links is `Leads`.  `symlink` makes a link where nothing was; the
link leads where its target led before it was made, since a lookup of the target that came back to the link
would come back to it for ever (`leads_of_made`).

`realpath` writes down the place that a path leads to.  The names of a place are looked up without a link and
without a dot, so its path is its own canonical path from every working directory (`realpath_realpath`).
-/

namespace LioNet.Lib

namespace FileSystem

variable {fs fs' : FileSystem} {b b' : Nat} {cur d l k : Loc} {n : Name} {ns ms : List Name}

/-! ### Lookups without a bound -/

/-- The names lead from `cur` to `l`, through any number of links. -/
def Leads (fs : FileSystem) (cur : Loc) (ns : List Name) (l : Loc) : Prop :=
  ∃ b b', Walks fs false b cur ns l b'

/-- A lookup with some links more to spare. -/
theorem Walks.more (h : Walks fs false b cur ns l b') (m : Nat) :
    Walks fs false (b + m) cur ns l (b' + m) := by
  induction h with
  | nil => exact .nil _ _
  | dot hcur _ ih => exact .dot hcur ih
  | dotdot hcur _ ih => exact .dotdot hcur ih
  | missing _ _ _ _ hc => cases hc
  | link he _ ih =>
    rw [Nat.succ_add]
    exact .link he ih
  | down he hlink _ ih => exact .down he hlink ih

namespace Leads

theorem of_walks (h : Walks fs false b cur ns l b') : Leads fs cur ns l := ⟨b, b', h⟩

theorem unique (h : Leads fs cur ns l) (h' : Leads fs cur ns k) : l = k := by
  obtain ⟨b₁, _, h₁⟩ := h
  obtain ⟨b₂, _, h₂⟩ := h'
  have h₃ := h₂.more b₁
  rw [Nat.add_comm] at h₃
  exact ((h₁.more b₂).unique h₃).1

theorem mono (hle : fs ≤ fs') (h : Leads fs cur ns l) : Leads fs' cur ns l := by
  obtain ⟨b, b', h⟩ := h
  exact ⟨b, b', h.mono hle⟩

theorem append (h : Leads fs cur ns d) (h' : Leads fs d ms l) : Leads fs cur (ns ++ ms) l := by
  obtain ⟨b₁, b₁', h₁⟩ := h
  obtain ⟨b₂, b₂', h₂⟩ := h'
  have h₃ := h₂.more b₁'
  rw [Nat.add_comm] at h₃
  exact ⟨_, _, (h₁.more b₂).append h₃⟩

/-- What follows leads from where the first names led. -/
theorem append_iff (hms : ms ≠ []) (h : Leads fs cur ns d) :
    Leads fs cur (ns ++ ms) l ↔ Leads fs d ms l := by
  constructor
  · rintro ⟨b, b', hw⟩
    obtain ⟨d', b₁, h₁, h₂⟩ := hw.split hms
    obtain rfl := h.unique (of_walks h₁)
    exact of_walks h₂
  · exact h.append

/-- A link leads where its target does. -/
theorem link_iff {absolute : Bool} (he : fs.entry (d ++ [n]) = some (.symlink absolute ms)) :
    Leads fs d [n] l ↔ Leads fs (if absolute then [] else d) ms l := by
  constructor
  · rintro ⟨b, b', hw⟩
    have hn := plain_of_entry he
    cases hw with
    | dot => exact absurd rfl hn.ne_dot
    | dotdot => exact absurd rfl hn.ne_dotdot
    | missing _ _ _ _ hc => cases hc
    | link he' hw =>
      rw [he, Option.some_inj] at he'
      cases he'
      rw [List.append_nil] at hw
      exact of_walks hw
    | down he' hlink =>
      rw [he, Option.some_inj] at he'
      exact absurd he'.symm (hlink absolute ms)
  · rintro ⟨b, b', hw⟩
    rw [← List.append_nil ms] at hw
    exact of_walks (.link he hw)

end Leads

/-! ### A new link -/

section Made

variable {absolute : Bool} {t : Loc}

/-- With the new link a lookup is as it was, or it comes to the link and goes on from its target. -/
theorem Walks.detour (hmade : System.Made fs t (.symlink absolute ms) fs')
    (h : Walks fs' false b cur ns l b') : Walks fs false b cur ns l b' ∨
      ∃ b₁, b₁ < b ∧ ∃ rest,
        Walks fs' false b₁ (if absolute then [] else t.dropLast) (ms ++ rest) l b' := by
  have hdir : ∀ {j}, fs'.entry j = some .directory → fs.entry j = some .directory := by
    intro j hj
    rw [← hmade.other j]
    · exact hj
    · rintro rfl
      rw [hmade.self] at hj
      cases hj
  induction h with
  | nil => exact .inl (.nil _ _)
  | dot hcur _ ih => exact ih.imp_left (.dot (hdir hcur))
  | dotdot hcur _ ih => exact ih.imp_left (.dotdot (hdir hcur))
  | missing _ _ _ _ hc => cases hc
  | @link b b' cur l n ns ms' absolute' he hw ih =>
    by_cases ht : cur ++ [n] = t
    · subst ht
      rw [hmade.self, Option.some_inj] at he
      cases he
      rw [List.dropLast_concat]
      exact .inr ⟨b, Nat.lt_succ_self b, ns, hw⟩
    · rcases ih with ih | ⟨b₁, hb₁, rest, hw'⟩
      · rw [hmade.other _ ht] at he
        exact .inl (.link he ih)
      · exact .inr ⟨b₁, Nat.lt_succ_of_lt hb₁, rest, hw'⟩
  | @down b b' cur l n ns e he hlink _ ih =>
    refine ih.imp_left fun ih => .down ?_ hlink ih
    rw [← hmade.other]
    · exact he
    · rintro rfl
      rw [hmade.self, Option.some_inj] at he
      exact hlink absolute ms he.symm

/-- A lookup that begins with the target of the link does without the link in this part. -/
theorem Walks.of_made (hmade : System.Made fs t (.symlink absolute ms) fs') (rest : List Name)
    (h : Walks fs' false b (if absolute then [] else t.dropLast) (ms ++ rest) l b') :
    ∃ l' b₁, Walks fs false b (if absolute then [] else t.dropLast) ms l' b₁ := by
  induction b using Nat.strong_induction_on generalizing rest l b' with
  | _ b ih =>
    obtain ⟨l₁, b₁, h₁⟩ : ∃ l₁ b₁,
        Walks fs' false b (if absolute then [] else t.dropLast) ms l₁ b₁ := by
      by_cases hrest : rest = []
      · rw [hrest, List.append_nil] at h
        exact ⟨l, b', h⟩
      · obtain ⟨l₁, b₁, h₁, -⟩ := h.split hrest
        exact ⟨l₁, b₁, h₁⟩
    rcases h₁.detour hmade with h₁ | ⟨b₂, hb₂, rest', h₂⟩
    · exact ⟨l₁, b₁, h₁⟩
    · -- fewer links are left, and the lookup begins with the target again
      obtain ⟨l', b₃, h₃⟩ := ih b₂ hb₂ rest' h₂
      have h₄ := h₃.more (b - b₂)
      rw [Nat.add_sub_cancel' (Nat.le_of_lt hb₂)] at h₄
      exact ⟨l', _, h₄⟩

/-- **The target of a new link leads where it led before.** -/
theorem leads_of_made (hno : fs.entry t = none) (hmade : System.Made fs t (.symlink absolute ms) fs') :
    Leads fs' (if absolute then [] else t.dropLast) ms l ↔
      Leads fs (if absolute then [] else t.dropLast) ms l := by
  constructor
  · intro h
    obtain ⟨b, b', hw⟩ := h
    have happ := hw
    rw [← List.append_nil ms] at happ
    obtain ⟨l', b₁, h'⟩ := happ.of_made hmade
    obtain rfl := (Leads.of_walks hw).unique (.of_walks (h'.mono (hmade.le hno)))
    exact .of_walks h'
  · exact Leads.mono (hmade.le hno)

end Made

/-! ### Where a lookup ends -/

/-- What is there, and not a link. -/
def Solid (fs : FileSystem) (l : Loc) : Prop :=
  ∃ e, fs.entry l = some e ∧ ∀ absolute ms, e ≠ .symlink absolute ms

theorem solid_of_directory (h : fs.entry l = some .directory) : fs.Solid l :=
  ⟨.directory, h, fun _ _ => Entry.noConfusion⟩

/-- **A lookup ends at something that is no link.** -/
theorem Walks.solid (h : Walks fs false b cur ns l b') (hcur : fs.Solid cur) : fs.Solid l := by
  induction h with
  | nil => exact hcur
  | dot _ _ ih => exact ih hcur
  | @dotdot _ _ cur _ _ hdir _ ih =>
    refine ih ?_
    rcases List.eq_nil_or_concat' cur with rfl | ⟨d, n, rfl⟩
    · exact hcur
    · rw [List.dropLast_concat]
      exact solid_of_directory (directory_of_entry hdir)
  | missing _ _ _ _ hc => cases hc
  | @link _ _ cur _ n _ _ absolute he _ ih =>
    refine ih ?_
    cases absolute with
    | false => exact hcur
    | true =>
      have hne : fs.entry (cur ++ [n]) ≠ none := by
        rw [he]
        exact Option.some_ne_none _
      have hsnoc := List.append_ne_nil_of_right_ne_nil cur (List.cons_ne_nil n [])
      exact solid_of_directory (directory_of_below (l := []) hsnoc hne)
  | down he hlink _ ih => exact ih ⟨_, he, hlink⟩

theorem solid_of_stat {cwd : Loc} {path : Path} (h : fs.stat cwd path = some l) : fs.Solid l := by
  obtain ⟨-, b, hw⟩ := stat_eq_some.mp h
  exact hw.solid (solid_of_directory (hw.directory Path.names_ne_nil))

/-- The names of a place are looked up one by one. -/
theorem Walks.straight {r : List Name} (h : fs.Solid (cur ++ r)) (b : Nat) :
    Walks fs false b cur r (cur ++ r) b := by
  induction r generalizing cur with
  | nil =>
    rw [List.append_nil]
    exact .nil b cur
  | cons n r ih =>
    have hsnoc : cur ++ n :: r = cur ++ [n] ++ r := by
      rw [List.append_assoc]
      rfl
    rw [hsnoc] at h ⊢
    obtain ⟨e, he, hlink⟩ : fs.Solid (cur ++ [n]) := by
      by_cases hr : r = []
      · rwa [hr, List.append_nil] at h
      · obtain ⟨e, he, -⟩ := h
        exact solid_of_directory (directory_of_below hr (by rw [he]; exact Option.some_ne_none e))
    exact .down he hlink (ih h)

end FileSystem

/-! ### Canonical paths -/

namespace Path

/-- A path with a slash, cut at the last one. -/
theorem exists_last_slash {path : Path} (h : '/' ∈ path) : ∃ p t, path = p ++ '/' :: t ∧ '/' ∉ t := by
  obtain ⟨t, p, heq, ht⟩ := List.eq_append_cons_of_mem (List.mem_reverse.mpr h)
  refine ⟨p.reverse, t.reverse, ?_, fun hmem => ht (List.mem_reverse.mp hmem)⟩
  have hrev := congrArg List.reverse heq
  rwa [List.reverse_reverse, List.reverse_append, List.reverse_cons, List.append_assoc] at hrev

/-- Without a slash at the end the names looked up are the ones of the entry. -/
theorem names_of_slashed {path : Path} (hne : path ≠ []) (h : path.slashed = false) :
    path.names = path.entryNames := by
  obtain ⟨q, t, ht, hparts⟩ : ∃ q t, ¬List.isEmpty t = true ∧ path.parts = q ++ [t] := by
    by_cases hmem : '/' ∈ path
    · obtain ⟨p, t, rfl, hnoSlash⟩ := exists_last_slash hmem
      refine ⟨p.parts, t, fun he => ?_, ?_⟩
      · obtain rfl := List.isEmpty_iff.mp he
        rw [slashed, List.getLast?_concat] at h
        exact absurd h (by decide)
      · rw [parts_append, parts_of_noSlash hnoSlash]
    · exact ⟨[], path, fun he => hne (List.isEmpty_iff.mp he), parts_of_noSlash hmem⟩
  rw [names, entryNames, hparts, List.rdropWhile_concat_neg _ _ _ ht]

/-- The names with a slash before each. -/
def joined : Loc → Path
  | [] => []
  | n :: ns => '/' :: (n ++ joined ns)

/-- The path that is written for a place. -/
def ofLoc (l : Loc) : Path := if l = [] then ['/'] else joined l

theorem parts_slash (rest : Path) : Path.parts ('/' :: rest) = [] :: rest.parts := by
  have h : Path.parts ([] ++ '/' :: rest) = _ := parts_append
  rwa [parts_of_noSlash List.not_mem_nil] at h

theorem parts_joined {l : Loc} (h : ∀ n ∈ l, Name.Plain n) : (joined l).parts = [] :: l := by
  induction l with
  | nil => exact parts_of_noSlash List.not_mem_nil
  | cons n ns ih =>
    have hn := (h n List.mem_cons_self).slash
    have hns := ih fun m hm => h m (List.mem_cons_of_mem n hm)
    rw [joined, parts_slash]
    congr 1
    cases ns with
    | nil =>
      rw [joined, List.append_nil]
      exact parts_of_noSlash hn
    | cons m ns =>
      rw [joined, parts_slash] at hns
      rw [joined, parts_append, parts_of_noSlash hn, (List.cons.inj hns).2]
      rfl

theorem names_ofLoc {l : Loc} (h : ∀ n ∈ l, Name.Plain n) (hl : l ≠ []) :
    (ofLoc l).names = dot :: l := by
  rw [ofLoc, if_neg hl, names, parts_joined h, List.map_cons]
  congr 1
  have hid : l.map orDot = l.map id := List.map_congr_left fun n hn => orDot_of_plain (h n hn)
  rw [hid, List.map_id]

theorem start_ofLoc (cwd l : Loc) : start cwd (ofLoc l) = [] := by
  unfold ofLoc
  cases l with
  | nil => rfl
  | cons n ns => rfl

theorem ofLoc_ne_nil (l : Loc) : ofLoc l ≠ [] := by
  unfold ofLoc
  cases l with
  | nil => exact List.cons_ne_nil _ _
  | cons n ns => exact List.cons_ne_nil _ _

end Path

namespace FileSystem

variable {fs : FileSystem} {cwd l : Loc} {path : Path}

theorem plain_of_solid (h : fs.Solid l) : ∀ n ∈ l, Name.Plain n := by
  intro n hn
  obtain ⟨q, r, rfl⟩ := List.append_of_mem hn
  obtain ⟨e, he, -⟩ := h
  have hsnoc : q ++ n :: r = q ++ [n] ++ r := by
    rw [List.append_assoc]
    rfl
  rw [hsnoc] at he
  exact fs.plain (ne_none_above (by rw [he]; exact Option.some_ne_none e) (List.prefix_append _ r))

/-- Where something is found, the root is a directory. -/
theorem root_of_stat (h : fs.stat cwd path = some l) : fs.entry [] = some .directory := by
  obtain ⟨-, b, hw⟩ := stat_eq_some.mp h
  have hdir := hw.directory Path.names_ne_nil
  by_cases hstart : path.start cwd = []
  · rwa [hstart] at hdir
  · exact directory_of_below (l := []) hstart (by rw [List.nil_append, hdir]; exact Option.some_ne_none _)

/-- The path of a place leads to it, from wherever it is looked up. -/
theorem stat_ofLoc (hroot : fs.entry [] = some .directory) (h : fs.Solid l) (cwd : Loc) :
    fs.stat cwd (Path.ofLoc l) = some l := by
  rw [stat_eq_some, Path.start_ofLoc]
  refine ⟨Path.ofLoc_ne_nil l, maxSymlinks, ?_⟩
  by_cases hl : l = []
  · subst hl
    exact .dot hroot (.dot hroot (.nil _ _))
  · rw [Path.names_ofLoc (plain_of_solid h) hl]
    have hstraight : Walks fs false maxSymlinks [] l ([] ++ l) maxSymlinks := Walks.straight h _
    exact .dot hroot hstraight

/-- `realpath`. -/
def realpath (fs : FileSystem) (cwd : Loc) (path : Path) : Option Path :=
  (fs.stat cwd path).map Path.ofLoc

/-- **The canonical path names the same place, is canonical itself, and depends on no directory.** -/
theorem realpath_realpath {rpath : Path} (h : fs.realpath cwd path = some rpath) (cwd' : Loc) :
    fs.stat cwd' rpath = fs.stat cwd path ∧ fs.realpath cwd' rpath = some rpath := by
  obtain ⟨l, hl, rfl⟩ := Option.map_eq_some_iff.mp h
  have hstat := stat_ofLoc (root_of_stat hl) (solid_of_stat hl) cwd'
  refine ⟨hstat.trans hl.symm, ?_⟩
  rw [realpath, hstat]
  rfl

end FileSystem

namespace System

variable (sys : System) (fs : FileSystem) (cwd : Loc)

/-- `symlink`: the name of the link may not end in a slash. -/
def symlinkAt (target linkpath : Path) : Option FileSystem :=
  if target = [] ∨ linkpath.slashed = true then none
  else
    (fs.place cwd linkpath).bind fun l =>
      if fs.entry l = none ∧ sys.create l = true then
        putAt fs l (.symlink (decide (target.head? = some '/')) target.names)
      else none

theorem symlinkAt_made {sys : System} {fs fs' : FileSystem} {cwd : Loc} {target linkpath : Path}
    (h : sys.symlinkAt fs cwd target linkpath = some fs') :
    linkpath.slashed = false ∧ ∃ l, fs.place cwd linkpath = some l ∧ fs.entry l = none ∧
      Made fs l (.symlink (decide (target.head? = some '/')) target.names) fs' := by
  rw [symlinkAt] at h
  obtain ⟨hno, h⟩ := Option.ite_none_left_eq_some.mp h
  obtain ⟨l, hl, h⟩ := Option.bind_eq_some_iff.mp h
  obtain ⟨⟨hfree, -⟩, hput⟩ := Option.ite_none_right_eq_some.mp h
  exact ⟨Bool.eq_false_iff.mpr (not_or.mp hno).2, l, hl, hfree, putAt_made hput⟩

/-- **A new link leads where its target led**, from the directory of the link or from the root. -/
theorem symlinkAt_leads {sys : System} {fs fs' : FileSystem} {cwd l : Loc} {target linkpath : Path}
    (h : sys.symlinkAt fs cwd target linkpath = some fs') :
    ∃ t, fs.place cwd linkpath = some t ∧
      (FileSystem.Leads fs' (linkpath.start cwd) linkpath.names l ↔
        FileSystem.Leads fs (target.start t.dropLast) target.names l) := by
  obtain ⟨hslash, t, ht, hno, hmade⟩ := symlinkAt_made h
  obtain ⟨q, n, d, b, hq, hn, hw, hdir, rfl⟩ := FileSystem.place_eq_some.mp ht
  refine ⟨_, ht, ?_⟩
  have hne : linkpath ≠ [] := by
    rintro rfl
    rw [Path.entryNames_nil] at hq
    exact absurd hq.symm (List.append_ne_nil_of_right_ne_nil q (List.cons_ne_nil n []))
  have hnames : linkpath.names = q ++ [n] := (Path.names_of_slashed hne hslash).trans hq
  have hstart : target.start (d ++ [n]).dropLast =
      if decide (target.head? = some '/') then [] else (d ++ [n]).dropLast := by
    rw [Path.start]
    simp only [decide_eq_true_eq]
  have hq' : FileSystem.Leads fs' (linkpath.start cwd) q d :=
    .of_walks (hw.mono (hmade.le hno))
  rw [hnames, hq'.append_iff (List.cons_ne_nil n []), FileSystem.Leads.link_iff hmade.self, hstart,
    ← FileSystem.leads_of_made hno hmade, List.dropLast_concat]

end System

end LioNet.Lib
