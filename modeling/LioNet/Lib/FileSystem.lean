import Mathlib.Data.List.Basic
import Mathlib.Data.List.Infix
import Mathlib.Data.List.Dedup
import Mathlib.Order.Basic
import Mathlib.Logic.Function.Basic
import Mathlib.Logic.Relation

/-!
# File systems

A file system is a finite tree.  A place in it is the list of the names that lead to it from the root,
through directories only, and `entry` says what is there.  The structure carries what makes it a tree:
everything lies in a directory, and every name is a proper one.

`fs ≤ fs'` says that `fs'` has every entry of `fs`; removals go down in this order and creations go up.
`cut` takes away a place with all that lies below it, `prune` only what lies below, `put` sets one
entry, and `move` moves a subtree to a new place.  `Removals p` are removals of single entries, one after
the other, each of them allowed by `p`.
-/

namespace LioNet.Lib

abbrev Name := List Char

/-- A place: the names from the root. -/
abbrev Loc := List Name

def dot : Name := ['.']

def dotdot : Name := ['.', '.']

/-- A name that a directory may list. -/
structure Name.Plain (n : Name) : Prop where
  ne_nil : n ≠ []
  slash : '/' ∉ n
  nul : '\x00' ∉ n
  ne_dot : n ≠ dot
  ne_dotdot : n ≠ dotdot

theorem Name.Plain.not_dots {n : Name} (h : n.Plain) : ¬(n = dot ∨ n = dotdot) :=
  not_or.mpr ⟨h.ne_dot, h.ne_dotdot⟩

instance (n : Name) : Decidable n.Plain :=
  decidable_of_iff (n ≠ [] ∧ '/' ∉ n ∧ '\x00' ∉ n ∧ n ≠ dot ∧ n ≠ dotdot)
    ⟨fun h => ⟨h.1, h.2.1, h.2.2.1, h.2.2.2.1, h.2.2.2.2⟩,
      fun h => ⟨h.ne_nil, h.slash, h.nul, h.ne_dot, h.ne_dotdot⟩⟩

/-- A place with a name more lies above those with still more. -/
theorem snoc_above (l : Loc) (n : Name) (r : List Name) : l ++ [n] <+: l ++ n :: r :=
  ⟨r, by rw [List.append_assoc]; rfl⟩

theorem not_snoc_above (l : Loc) (n : Name) : ¬l ++ [n] <+: l := by
  intro h
  have hlen := h.length_le
  rw [List.length_append, List.length_singleton] at hlen
  omega

/-- What a place holds.  The target of a symbolic link is a path, from the root or from the directory
of the link. -/
inductive Entry
  | directory
  | regular (content : List Char)
  | symlink (absolute : Bool) (names : List Name)
  | fifo
  | socket
  | blockDevice
  | charDevice
  deriving DecidableEq, Repr

@[ext] structure FileSystem where
  entry : Loc → Option Entry
  /-- the places that may hold something -/
  support : List Loc
  finite : ∀ {l}, entry l ≠ none → l ∈ support
  closed : ∀ {l n}, entry (l ++ [n]) ≠ none → entry l = some .directory
  plain : ∀ {l n}, entry (l ++ [n]) ≠ none → n.Plain

namespace FileSystem

variable {fs fs' : FileSystem} {l k : Loc} {n : Name}

theorem entry_ne_directory {e : Entry} (he : fs.entry l = some e) (h : e ≠ .directory) :
    fs.entry l ≠ some .directory := by
  rw [he]
  exact fun hdir => h (Option.some.inj hdir)

/-- Whatever lies below a place makes it a directory. -/
theorem directory_of_below {r : List Name} (hr : r ≠ []) (h : fs.entry (l ++ r) ≠ none) :
    fs.entry l = some .directory := by
  induction r using List.reverseRecOn with
  | nil => exact absurd rfl hr
  | append_singleton r n ih =>
    rw [← List.append_assoc] at h
    have hdir := fs.closed h
    by_cases hr' : r = []
    · rwa [hr', List.append_nil] at hdir
    · exact ih hr' (by rw [hdir]; exact Option.some_ne_none _)

/-- Nothing lies below a place that is no directory. -/
theorem none_below {r : List Name} (h : fs.entry l ≠ some .directory) (hr : r ≠ []) :
    fs.entry (l ++ r) = none := by
  by_contra hne
  exact h (directory_of_below hr hne)

/-- Nothing lies at or below a place that holds nothing. -/
theorem none_under (h : fs.entry l = none) (hk : l <+: k) : fs.entry k = none := by
  obtain ⟨r, rfl⟩ := hk
  by_cases hr : r = []
  · rwa [hr, List.append_nil]
  · exact none_below (by rw [h]; exact (Option.some_ne_none _).symm) hr

theorem ne_none_above (h : fs.entry k ≠ none) (hl : l <+: k) : fs.entry l ≠ none :=
  fun hn => h (none_under hn hl)

/-! ### The order -/

instance : Preorder FileSystem where
  le fs fs' := ∀ l e, fs.entry l = some e → fs'.entry l = some e
  le_refl _ _ _ h := h
  le_trans _ _ _ h h' l e he := h' l e (h l e he)

theorem entry_of_le (h : fs ≤ fs') {e : Entry} (he : fs.entry l = some e) :
    fs'.entry l = some e := h l e he

theorem ne_none_of_le (h : fs ≤ fs') (he : fs.entry l ≠ none) : fs'.entry l ≠ none := by
  obtain ⟨e, he⟩ := Option.ne_none_iff_exists'.mp he
  rw [entry_of_le h he]
  exact Option.some_ne_none e

theorem none_of_le (h : fs ≤ fs') (hn : fs'.entry l = none) : fs.entry l = none := by
  by_contra hne
  exact ne_none_of_le h hne hn

theorem eq_of_le_of_le (h : fs ≤ fs') (h' : fs' ≤ fs) (hs : fs'.support = fs.support) : fs' = fs := by
  refine FileSystem.ext (funext fun l => ?_) hs
  cases hl : fs.entry l with
  | none => exact none_of_le h' hl
  | some e => exact h l e hl

/-- What a larger file system has and a smaller one has too is the same. -/
theorem entry_eq_of_le (h : fs ≤ fs') (he : fs.entry l ≠ none) : fs'.entry l = fs.entry l := by
  obtain ⟨e, he⟩ := Option.ne_none_iff_exists'.mp he
  rw [he, entry_of_le h he]

/-! ### The entries of a directory -/

/-- The names in a directory. -/
def children (fs : FileSystem) (l : Loc) : List Name :=
  (fs.support.filterMap fun k =>
    if fs.entry k ≠ none ∧ k.dropLast = l then k.getLast? else none).dedup

theorem mem_children : n ∈ fs.children l ↔ fs.entry (l ++ [n]) ≠ none := by
  rw [children, List.mem_dedup, List.mem_filterMap]
  constructor
  · rintro ⟨k, -, hk⟩
    split at hk
    · rename_i h
      obtain ⟨ys, rfl⟩ := List.getLast?_eq_some_iff.mp hk
      rw [List.dropLast_concat] at h
      exact h.2 ▸ h.1
    · cases hk
  · intro h
    refine ⟨l ++ [n], fs.finite h, ?_⟩
    rw [if_pos ⟨h, List.dropLast_concat⟩, List.getLast?_concat]

theorem children_eq_nil : fs.children l = [] ↔ ∀ n, fs.entry (l ++ [n]) = none := by
  rw [List.eq_nil_iff_forall_not_mem]
  exact forall_congr' fun n => by rw [mem_children, not_not]

theorem nodup_children (fs : FileSystem) (l : Loc) : (fs.children l).Nodup := List.nodup_dedup _

/-- An upper bound for the length of a place. -/
def depth (fs : FileSystem) : Nat := (fs.support.map List.length).foldr max 0

theorem depth_congr (h : fs'.support = fs.support) : fs'.depth = fs.depth := by
  rw [depth, depth, h]

theorem length_le_depth (h : fs.entry l ≠ none) : l.length ≤ fs.depth := by
  have hmem : l.length ∈ fs.support.map List.length := List.mem_map_of_mem (fs.finite h)
  rw [depth]
  generalize fs.support.map List.length = ms at hmem ⊢
  induction ms with
  | nil => cases hmem
  | cons m ms ih =>
    rcases List.mem_cons.mp hmem with rfl | hmem
    · exact Nat.le_max_left _ _
    · exact Nat.le_trans (ih hmem) (Nat.le_max_right _ _)

/-! ### Removals -/

/-- Only the places that meet `p` are kept; with a place, `p` has the places above it. -/
def keep (fs : FileSystem) (p : Loc → Bool) (hp : ∀ l n, p (l ++ [n]) = true → p l = true) :
    FileSystem where
  entry l := if p l then fs.entry l else none
  support := fs.support
  finite {l} h := by
    split at h
    · exact fs.finite h
    · exact absurd rfl h
  closed {l n} h := by
    split at h
    · rename_i hpn
      rw [if_pos (hp l n hpn)]
      exact fs.closed h
    · exact absurd rfl h
  plain {l n} h := by
    split at h
    · exact fs.plain h
    · exact absurd rfl h

theorem keep_le (p : Loc → Bool) (hp : ∀ l n, p (l ++ [n]) = true → p l = true) :
    fs.keep p hp ≤ fs := by
  intro l e h
  change (if p l then fs.entry l else none) = some e at h
  split at h
  · exact h
  · cases h

/-- `l` and all that lies below it is taken away. -/
def cut (fs : FileSystem) (l : Loc) : FileSystem :=
  fs.keep (fun k => decide ¬l <+: k) fun k n h => by
    rw [decide_eq_true_iff] at h ⊢
    exact fun hk => h (hk.trans (List.prefix_append k [n]))

/-- What lies below `l` is taken away. -/
def prune (fs : FileSystem) (l : Loc) : FileSystem :=
  fs.keep (fun k => decide (l <+: k → k = l)) fun k n h => by
    rw [decide_eq_true_iff] at h ⊢
    intro hk
    have hkn := h (hk.trans (List.prefix_append k [n]))
    exact absurd (hkn ▸ hk) (not_snoc_above k n)

@[simp] theorem support_cut (fs : FileSystem) (l : Loc) : (fs.cut l).support = fs.support := rfl

theorem cut_le (fs : FileSystem) (l : Loc) : fs.cut l ≤ fs := keep_le _ _

theorem prune_le (fs : FileSystem) (l : Loc) : fs.prune l ≤ fs := keep_le _ _

theorem entry_cut_under (h : l <+: k) : (fs.cut l).entry k = none := by
  have hp : ¬decide (¬l <+: k) = true := by simpa using h
  exact if_neg hp

theorem entry_cut (h : ¬l <+: k) : (fs.cut l).entry k = fs.entry k :=
  if_pos (decide_eq_true h)

theorem entry_prune_self (fs : FileSystem) (l : Loc) : (fs.prune l).entry l = fs.entry l :=
  if_pos (decide_eq_true fun _ => rfl)

theorem entry_prune (h : ¬l <+: k) : (fs.prune l).entry k = fs.entry k :=
  if_pos (decide_eq_true fun hk => absurd hk h)

theorem entry_prune_below (h : l <+: k) (hne : k ≠ l) : (fs.prune l).entry k = none := by
  have hp : ¬decide (l <+: k → k = l) = true := by
    rw [decide_eq_true_iff]
    exact fun himp => hne (himp h)
  exact if_neg hp

/-- A smaller file system with nothing below `l` is contained in the pruned one. -/
theorem le_prune (h : fs ≤ fs') (hbelow : ∀ n, fs.entry (l ++ [n]) = none) : fs ≤ fs'.prune l := by
  intro k e hk
  by_cases hl : l <+: k
  · obtain ⟨r, rfl⟩ := hl
    cases r with
    | nil =>
      rw [List.append_nil] at hk ⊢
      rw [entry_prune_self]
      exact h l e hk
    | cons n r =>
      rw [none_under (hbelow n) (snoc_above l n r)] at hk
      cases hk
  · rw [entry_prune hl]
    exact h k e hk

theorem cut_le_prune (fs : FileSystem) (l : Loc) : fs.cut l ≤ fs.prune l :=
  le_prune (fs.cut_le l) fun n => entry_cut_under (List.prefix_append l [n])

/-- Taking `l` away makes up for whatever went below it before. -/
theorem cut_eq_cut (h : fs' ≤ fs) (h' : fs.prune l ≤ fs') (hs : fs'.support = fs.support) :
    fs'.cut l = fs.cut l := by
  refine FileSystem.ext (funext fun k => ?_) hs
  by_cases hk : l <+: k
  · rw [entry_cut_under hk, entry_cut_under hk]
  · rw [entry_cut hk, entry_cut hk]
    cases he : fs.entry k with
    | none => exact none_of_le h he
    | some e => exact h' k e ((entry_prune hk).trans he)

/-- One entry with nothing below it, that `p` lets go, is taken away. -/
def Removal (p : Loc → Entry → Prop) (fs fs' : FileSystem) : Prop :=
  ∃ l e, fs.entry l = some e ∧ p l e ∧ (∀ n, fs.entry (l ++ [n]) = none) ∧ fs' = fs.cut l

/-- Removals, one after the other. -/
def Removals (p : Loc → Entry → Prop) : FileSystem → FileSystem → Prop :=
  Relation.ReflTransGen (Removal p)

namespace Removals

variable {p q : Loc → Entry → Prop} {fs'' : FileSystem} {e : Entry}

theorem refl (fs : FileSystem) : Removals p fs fs := Relation.ReflTransGen.refl

theorem single (he : fs.entry l = some e) (hp : p l e) (hno : ∀ n, fs.entry (l ++ [n]) = none) :
    Removals p fs (fs.cut l) :=
  Relation.ReflTransGen.single ⟨l, e, he, hp, hno, rfl⟩

theorem trans (h : Removals p fs fs') (h' : Removals p fs' fs'') : Removals p fs fs'' :=
  Relation.ReflTransGen.trans h h'

theorem weaken (hpq : ∀ l e, p l e → q l e) (h : Removals p fs fs') : Removals q fs fs' := by
  induction h with
  | refl => exact refl fs
  | tail _ hstep ih =>
    obtain ⟨l, e, he, hp, hno, rfl⟩ := hstep
    exact ih.trans (single he (hpq l e hp) hno)

theorem le (h : Removals p fs fs') : fs' ≤ fs := by
  induction h with
  | refl => exact le_refl fs
  | tail _ hstep ih =>
    obtain ⟨l, _, _, _, _, rfl⟩ := hstep
    exact (cut_le _ l).trans ih

theorem support (h : Removals p fs fs') : fs'.support = fs.support := by
  induction h with
  | refl => rfl
  | tail _ hstep ih =>
    obtain ⟨l, _, _, _, _, rfl⟩ := hstep
    rw [support_cut, ih]

/-- What `p` does not let go stays. -/
theorem keeps (h : Removals p fs fs') (he : fs.entry k = some e) (hp : ¬p k e) :
    fs'.entry k = some e := by
  induction h with
  | refl => exact he
  | tail _ hstep ih =>
    obtain ⟨l, e', he', hp', hno, rfl⟩ := hstep
    rw [entry_cut]
    · exact ih
    · rintro ⟨r, rfl⟩
      cases r with
      | nil =>
        rw [List.append_nil] at ih hp
        rw [he'] at ih
        exact hp (Option.some.inj ih ▸ hp')
      | cons n r =>
        rw [none_under (hno n) (snoc_above l n r)] at ih
        cases ih

theorem antisymm (h : Removals p fs fs') (h' : Removals q fs' fs) : fs' = fs :=
  eq_of_le_of_le h'.le h.le h.support

end Removals

/-! ### Creations -/

/-- Nothing but the root. -/
def root : FileSystem where
  entry l := if l = [] then some .directory else none
  support := [[]]
  finite {l} h := by
    split at h
    · rename_i hl
      exact List.mem_singleton.mpr hl
    · exact absurd rfl h
  closed {l n} h := by
    rw [if_neg (List.append_ne_nil_of_right_ne_nil l (List.cons_ne_nil n []))] at h
    exact absurd rfl h
  plain {l n} h := by
    rw [if_neg (List.append_ne_nil_of_right_ne_nil l (List.cons_ne_nil n []))] at h
    exact absurd rfl h

theorem root_entry : root.entry [] = some .directory := rfl

theorem root_entry_ne (n : Name) : root.entry ([] ++ [n]) ≠ some .directory := nofun

/-- The entry `e` is put into a directory, where no directory was. -/
def put (fs : FileSystem) (l : Loc) (n : Name) (e : Entry) (hdir : fs.entry l = some .directory)
    (hn : n.Plain) (hno : fs.entry (l ++ [n]) ≠ some .directory) : FileSystem where
  entry := Function.update fs.entry (l ++ [n]) (some e)
  support := (l ++ [n]) :: fs.support
  finite {k} h := by
    by_cases hk : k = l ++ [n]
    · exact hk ▸ List.mem_cons_self
    · rw [Function.update_of_ne hk] at h
      exact List.mem_cons_of_mem _ (fs.finite h)
  closed {k m} h := by
    have hk : fs.entry k = some .directory := by
      by_cases hkm : k ++ [m] = l ++ [n]
      · rw [(List.append_inj' hkm rfl).1]
        exact hdir
      · rw [Function.update_of_ne hkm] at h
        exact fs.closed h
    have hne : k ≠ l ++ [n] := fun e => hno (e ▸ hk)
    rw [Function.update_of_ne hne]
    exact hk
  plain {k m} h := by
    by_cases hkm : k ++ [m] = l ++ [n]
    · obtain rfl : m = n := List.singleton_inj.mp (List.append_inj' hkm rfl).2
      exact hn
    · rw [Function.update_of_ne hkm] at h
      exact fs.plain h

section Put

variable {e : Entry} {hdir : fs.entry l = some .directory} {hn : n.Plain}
  {hno : fs.entry (l ++ [n]) ≠ some .directory}

theorem entry_put_self : (fs.put l n e hdir hn hno).entry (l ++ [n]) = some e :=
  Function.update_self ..

theorem entry_put (h : k ≠ l ++ [n]) : (fs.put l n e hdir hn hno).entry k = fs.entry k :=
  Function.update_of_ne h ..

end Put

/-- The subtree at `src` is moved into a directory, where nothing was. -/
def move (fs : FileSystem) (src dst : Loc) (n : Name) (hdir : fs.entry dst = some .directory)
    (hn : n.Plain) (hsrc : ¬src <+: dst ++ [n]) : FileSystem where
  entry k :=
    if dst ++ [n] <+: k then fs.entry (src ++ k.drop (dst.length + 1))
    else if src <+: k then none
    else fs.entry k
  support := fs.support ++ fs.support.map fun k => dst ++ [n] ++ k.drop src.length
  finite {k} h := by
    rw [List.mem_append, List.mem_map]
    split at h
    · rename_i hk
      obtain ⟨r, rfl⟩ := hk
      rw [List.append_assoc, ← List.length_singleton (a := n), ← List.length_append,
        ← List.append_assoc, List.drop_left] at h
      exact .inr ⟨src ++ r, fs.finite h, by rw [List.drop_left]⟩
    · split at h
      · exact absurd rfl h
      · exact .inl (fs.finite h)
  closed {k m} h := by
    split at h
    · rename_i hk
      obtain ⟨r, hr⟩ := hk
      rcases List.eq_nil_or_concat' r with rfl | ⟨r, m', rfl⟩
      · -- the new place itself, in its directory
        rw [List.append_nil] at hr
        obtain rfl := (List.append_inj' hr rfl).1
        have hold : ¬src <+: dst := fun hp => hsrc (hp.trans (List.prefix_append dst [n]))
        rw [if_neg (not_snoc_above dst n), if_neg hold]
        exact hdir
      · have hkr : dst ++ [n] ++ r = k := by
          rw [← List.append_assoc] at hr
          exact (List.append_inj' hr rfl).1
        subst hkr
        have hlen : dst.length + 1 = (dst ++ [n]).length := by
          rw [List.length_append, List.length_singleton]
        rw [if_pos (List.prefix_append _ r), hlen, List.drop_left]
        rw [hlen, List.append_assoc (dst ++ [n]), List.drop_left, ← List.append_assoc] at h
        exact fs.closed h
    · rename_i hk
      split at h
      · exact absurd rfl h
      · rename_i hs
        have hk' : ¬dst ++ [n] <+: k := fun hp => hk (hp.trans (List.prefix_append k [m]))
        have hs' : ¬src <+: k := fun hp => hs (hp.trans (List.prefix_append k [m]))
        rw [if_neg hk', if_neg hs']
        exact fs.closed h
  plain {k m} h := by
    split at h
    · rename_i hk
      obtain ⟨r, hr⟩ := hk
      rcases List.eq_nil_or_concat' r with rfl | ⟨r, m', rfl⟩
      · rw [List.append_nil] at hr
        obtain rfl : n = m := List.singleton_inj.mp (List.append_inj' hr rfl).2
        exact hn
      · rw [← List.append_assoc] at hr
        obtain ⟨rfl, hm⟩ := List.append_inj' hr rfl
        have hlen : dst.length + 1 = (dst ++ [n]).length := by
          rw [List.length_append, List.length_singleton]
        rw [hlen, List.append_assoc (dst ++ [n]), List.drop_left, ← List.append_assoc] at h
        exact fs.plain h
    · split at h
      · exact absurd rfl h
      · exact fs.plain h

section Move

variable {src dst : Loc} (hdir : fs.entry dst = some .directory) (hn : n.Plain)
  (hsrc : ¬src <+: dst ++ [n])

theorem entry_move_new (r : List Name) :
    (fs.move src dst n hdir hn hsrc).entry (dst ++ [n] ++ r) = fs.entry (src ++ r) := by
  have hlen : dst.length + 1 = (dst ++ [n]).length := by
    rw [List.length_append, List.length_singleton]
  have h : (fs.move src dst n hdir hn hsrc).entry (dst ++ [n] ++ r) =
      fs.entry (src ++ (dst ++ [n] ++ r).drop (dst.length + 1)) :=
    if_pos (List.prefix_append _ r)
  rw [h, hlen, List.drop_left]

theorem entry_move_old (hk : ¬dst ++ [n] <+: k) (h : src <+: k) :
    (fs.move src dst n hdir hn hsrc).entry k = none :=
  (if_neg hk).trans (if_pos h)

theorem entry_move_other (hk : ¬dst ++ [n] <+: k) (h : ¬src <+: k) :
    (fs.move src dst n hdir hn hsrc).entry k = fs.entry k :=
  (if_neg hk).trans (if_neg h)

end Move

end FileSystem

end LioNet.Lib
