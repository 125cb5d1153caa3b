import LioNet.Lib.FileSystem

/-!
# Path lookup

How the kernel goes along a list of names, from the root or the working directory.  The names may be `.`
and `..`, and symbolic links are followed, at most `maxSymlinks` of them in one lookup.

`Walks` is the same relation with one rule for each kind of step.  A lookup that succeeds in a file system
succeeds in every larger one and finds the same place (`Walks.of_extends`), and a lookup of names in a row is one
lookup after the other (`Walks.append`, `Walks.split`).
-/

namespace LioNet.Lib

/-- The number of symbolic links after which a lookup gives up. -/
def maxSymlinks : Nat := 40

namespace FileSystem

/-! ### The lookup -/

/-- One lookup between two symbolic links, with `b` links left: the place found, and the links left.
With `creat` the last name may be missing. -/
def walkWith (fs : FileSystem) (creat : Bool) (b : Nat)
    (follow : Loc → List Name → Option (Loc × Nat)) : Loc → List Name → Option (Loc × Nat)
  | cur, [] => some (cur, b)
  | cur, n :: ns =>
    if fs.entry cur = some .directory then
      if n = dot then fs.walkWith creat b follow cur ns
      else if n = dotdot then fs.walkWith creat b follow cur.dropLast ns
      else
        match fs.entry (cur ++ [n]) with
        | none => if creat = true ∧ ns = [] then some (cur ++ [n], b) else none
        | some (.symlink absolute names) => follow (if absolute then [] else cur) (names ++ ns)
        | some _ => fs.walkWith creat b follow (cur ++ [n]) ns
    else none

def walk (fs : FileSystem) (creat : Bool) : Nat → Loc → List Name → Option (Loc × Nat)
  | 0 => fs.walkWith creat 0 fun _ _ => none
  | b + 1 => fs.walkWith creat (b + 1) (fs.walk creat b)

/-- What happens at a symbolic link. -/
def follow (fs : FileSystem) (creat : Bool) : Nat → Loc → List Name → Option (Loc × Nat)
  | 0 => fun _ _ => none
  | b + 1 => fs.walk creat b

section Walk

variable {fs fs' : FileSystem} {creat : Bool} {b : Nat} {cur : Loc} {n : Name} {ns : List Name}

theorem walk_eq (fs : FileSystem) (creat : Bool) (b : Nat) :
    fs.walk creat b = fs.walkWith creat b (fs.follow creat b) := by
  cases b <;> rfl

theorem walk_nil : fs.walk creat b cur [] = some (cur, b) := by
  rw [walk_eq, walkWith]

theorem walk_cons : fs.walk creat b cur (n :: ns) =
    if fs.entry cur = some .directory then
      if n = dot then fs.walk creat b cur ns
      else if n = dotdot then fs.walk creat b cur.dropLast ns
      else
        match fs.entry (cur ++ [n]) with
        | none => if creat = true ∧ ns = [] then some (cur ++ [n], b) else none
        | some (.symlink absolute names) =>
          fs.follow creat b (if absolute then [] else cur) (names ++ ns)
        | some _ => fs.walk creat b (cur ++ [n]) ns
    else none := by
  rw [walk_eq, walkWith]

/-- The rule of induction for lookups: along the names, and at a link with one link less. -/
theorem walk_induction {motive : Nat → Loc → List Name → Prop}
    (step : ∀ b, (∀ b', b = b' + 1 → ∀ cur ns, motive b' cur ns) → ∀ cur ns,
      (∀ cur' n ns', ns = n :: ns' → motive b cur' ns') → motive b cur ns)
    (b : Nat) (cur : Loc) (ns : List Name) : motive b cur ns := by
  induction b generalizing cur ns with
  | zero =>
    induction ns generalizing cur with
    | nil => exact step 0 (fun _ h => by omega) cur [] fun _ _ _ h => by cases h
    | cons n ns ih =>
      refine step 0 (fun _ h => by omega) cur (n :: ns) fun cur' m ns' h => ?_
      obtain ⟨rfl, rfl⟩ := List.cons.inj h
      exact ih cur'
  | succ b ihb =>
    have hb : ∀ b', b + 1 = b' + 1 → ∀ cur ns, motive b' cur ns := by
      intro b' h
      obtain rfl := Nat.succ.inj h
      exact ihb
    induction ns generalizing cur with
    | nil => exact step (b + 1) hb cur [] fun _ _ _ h => by cases h
    | cons n ns ih =>
      refine step (b + 1) hb cur (n :: ns) fun cur' m ns' h => ?_
      obtain ⟨rfl, rfl⟩ := List.cons.inj h
      exact ih cur'

/-- The lookups that succeed, step by step. -/
inductive Walks (fs : FileSystem) (creat : Bool) : Nat → Loc → List Name → Loc → Nat → Prop
  | nil (b : Nat) (cur : Loc) : Walks fs creat b cur [] cur b
  | dot {b b' : Nat} {cur l : Loc} {ns : List Name} : fs.entry cur = some .directory →
      Walks fs creat b cur ns l b' → Walks fs creat b cur (dot :: ns) l b'
  | dotdot {b b' : Nat} {cur l : Loc} {ns : List Name} : fs.entry cur = some .directory →
      Walks fs creat b cur.dropLast ns l b' → Walks fs creat b cur (dotdot :: ns) l b'
  | missing {b : Nat} {cur : Loc} {n : Name} : fs.entry cur = some .directory → n ≠ Lib.dot →
      n ≠ Lib.dotdot → fs.entry (cur ++ [n]) = none → creat = true →
      Walks fs creat b cur [n] (cur ++ [n]) b
  | link {b b' : Nat} {cur l : Loc} {n : Name} {ns ms : List Name} {absolute : Bool} :
      fs.entry (cur ++ [n]) = some (.symlink absolute ms) →
      Walks fs creat b (if absolute then [] else cur) (ms ++ ns) l b' →
      Walks fs creat (b + 1) cur (n :: ns) l b'
  | down {b b' : Nat} {cur l : Loc} {n : Name} {ns : List Name} {e : Entry} :
      fs.entry (cur ++ [n]) = some e → (∀ absolute ms, e ≠ .symlink absolute ms) →
      Walks fs creat b (cur ++ [n]) ns l b' → Walks fs creat b cur (n :: ns) l b'

theorem plain_of_entry {e : Entry} (h : fs.entry (cur ++ [n]) = some e) : n.Plain :=
  fs.plain (by rw [h]; exact Option.some_ne_none e)

theorem directory_of_entry {e : Entry} (h : fs.entry (cur ++ [n]) = some e) :
    fs.entry cur = some .directory :=
  fs.closed (by rw [h]; exact Option.some_ne_none e)

theorem Walks.of_walk (b : Nat) (cur : Loc) (ns : List Name) {l : Loc} {b' : Nat}
    (h : fs.walk creat b cur ns = some (l, b')) : Walks fs creat b cur ns l b' := by
  induction b, cur, ns using walk_induction with
  | step b hlink cur ns hnext =>
    cases ns with
    | nil =>
      rw [walk_nil] at h
      cases h
      exact .nil _ _
    | cons n ns =>
      rw [walk_cons] at h
      by_cases hcur : fs.entry cur = some .directory
      · rw [if_pos hcur] at h
        by_cases hdot : n = Lib.dot
        · subst hdot
          exact .dot hcur (hnext cur _ ns rfl h)
        · rw [if_neg hdot] at h
          by_cases hdotdot : n = Lib.dotdot
          · subst hdotdot
            exact .dotdot hcur (hnext cur.dropLast _ ns rfl h)
          · rw [if_neg hdotdot] at h
            cases he : fs.entry (cur ++ [n]) with
            | none =>
              rw [he] at h
              by_cases hc : creat = true ∧ ns = []
              · obtain ⟨hc, rfl⟩ := hc
                simp only [hc, and_self, if_true] at h
                cases h
                exact .missing hcur hdot hdotdot he hc
              · simp only [hc, if_false] at h
                cases h
            | some e =>
              rw [he] at h
              cases e with
              | symlink absolute ms =>
                cases b with
                | zero => cases h
                | succ b => exact .link he (hlink b rfl _ _ h)
              | directory | regular | fifo | socket | blockDevice | charDevice =>
                exact .down he (fun _ _ => Entry.noConfusion) (hnext (cur ++ [n]) n ns rfl h)
      · rw [if_neg hcur] at h
        cases h

theorem Walks.walk {l : Loc} {b' : Nat} (h : Walks fs creat b cur ns l b') :
    fs.walk creat b cur ns = some (l, b') := by
  induction h with
  | nil => exact walk_nil
  | dot hcur _ ih => rw [walk_cons, if_pos hcur, if_pos rfl, ih]
  | dotdot hcur _ ih => rw [walk_cons, if_pos hcur, if_neg (by decide), if_pos rfl, ih]
  | missing hcur hdot hdotdot he hc =>
    rw [walk_cons, if_pos hcur, if_neg hdot, if_neg hdotdot, he]
    exact if_pos ⟨hc, rfl⟩
  | link he _ ih =>
    have hn := plain_of_entry he
    rw [walk_cons, if_pos (directory_of_entry he), if_neg hn.ne_dot, if_neg hn.ne_dotdot, he]
    exact ih
  | @down _ _ _ _ _ _ e he hlink _ ih =>
    have hn := plain_of_entry he
    rw [walk_cons, if_pos (directory_of_entry he), if_neg hn.ne_dot, if_neg hn.ne_dotdot, he]
    cases e with
    | symlink absolute ms => exact absurd rfl (hlink absolute ms)
    | directory | regular | fifo | socket | blockDevice | charDevice => exact ih

theorem walk_eq_some {l : Loc} {b' : Nat} :
    fs.walk creat b cur ns = some (l, b') ↔ Walks fs creat b cur ns l b' :=
  ⟨Walks.of_walk b cur ns, Walks.walk⟩

/-- `fs'` has every entry of `fs`, up to what is in the files. -/
def Extends (fs fs' : FileSystem) : Prop :=
  ∀ l e, fs.entry l = some e → fs'.entry l = some e ∨
    ∃ c c', e = .regular c ∧ fs'.entry l = some (.regular c')

theorem Extends.directory {l : Loc} (h : Extends fs fs') (he : fs.entry l = some .directory) :
    fs'.entry l = some .directory := by
  rcases h l _ he with he' | ⟨c, c', hc, _⟩
  · exact he'
  · cases hc

theorem Extends.symlink {l : Loc} {absolute : Bool} {ms : List Name} (h : Extends fs fs')
    (he : fs.entry l = some (.symlink absolute ms)) : fs'.entry l = some (.symlink absolute ms) := by
  rcases h l _ he with he' | ⟨c, c', hc, _⟩
  · exact he'
  · cases hc

namespace Walks

variable {l k : Loc} {b₁ b₂ : Nat} {ms : List Name}

theorem unique (h : Walks fs creat b cur ns l b₁) (h' : Walks fs creat b cur ns k b₂) :
    l = k ∧ b₁ = b₂ := by
  have heq := h.walk.symm.trans h'.walk
  exact ⟨congrArg Prod.fst (Option.some.inj heq), congrArg Prod.snd (Option.some.inj heq)⟩

/-- **A lookup survives when the file system grows**, whatever is written into the files. -/
theorem of_extends (hle : Extends fs fs') (h : Walks fs false b cur ns l b₁) :
    Walks fs' false b cur ns l b₁ := by
  induction h with
  | nil b cur => exact .nil b cur
  | dot hcur _ ih => exact .dot (hle.directory hcur) ih
  | dotdot hcur _ ih => exact .dotdot (hle.directory hcur) ih
  | missing _ _ _ _ hc => cases hc
  | link he _ ih => exact .link (hle.symlink he) ih
  | down he hlink _ ih =>
    rcases hle _ _ he with he' | ⟨c, c', rfl, he'⟩
    · exact .down he' hlink ih
    · exact .down he' (fun _ _ => Entry.noConfusion) ih

theorem mono (hle : fs ≤ fs') (h : Walks fs false b cur ns l b₁) : Walks fs' false b cur ns l b₁ :=
  h.of_extends fun l e he => .inl (hle l e he)

/-- Once there is a file where a lookup ended, the lookup leads to it. -/
theorem of_file (hle : Extends fs fs') {c : List Char} (hfile : fs'.entry l = some (.regular c))
    (h : Walks fs creat b cur ns l b₁) : Walks fs' false b cur ns l b₁ := by
  induction h with
  | nil b cur => exact .nil b cur
  | dot hcur _ ih => exact .dot (hle.directory hcur) (ih hfile)
  | dotdot hcur _ ih => exact .dotdot (hle.directory hcur) (ih hfile)
  | missing => exact .down hfile (fun _ _ => Entry.noConfusion) (.nil _ _)
  | link he _ ih => exact .link (hle.symlink he) (ih hfile)
  | down he hlink _ ih =>
    rcases hle _ _ he with he' | ⟨c, c', rfl, he'⟩
    · exact .down he' hlink (ih hfile)
    · exact .down he' (fun _ _ => Entry.noConfusion) (ih hfile)

/-- A lookup goes on where the lookup of its first names ended. -/
theorem append (h : Walks fs false b cur ns l b₁) (h' : Walks fs creat b₁ l ms k b₂) :
    Walks fs creat b cur (ns ++ ms) k b₂ := by
  induction h with
  | nil => exact h'
  | dot hcur _ ih => exact .dot hcur (ih h')
  | dotdot hcur _ ih => exact .dotdot hcur (ih h')
  | missing _ _ _ _ hc => cases hc
  | @link _ _ _ _ _ ns ms' _ he _ ih =>
    have hnext := ih h'
    rw [List.append_assoc] at hnext
    exact .link he hnext
  | down he hlink _ ih => exact .down he hlink (ih h')

/-- A lookup that needs nothing to be made succeeds when something may be. -/
theorem of_false (h : Walks fs false b cur ns l b₁) : Walks fs creat b cur ns l b₁ := by
  have hend : Walks fs creat b₁ l [] l b₁ := .nil b₁ l
  have hall := h.append hend
  rwa [List.append_nil] at hall

/-- A lookup that ends at what is there needs nothing to be made. -/
theorem of_ne_none (hne : fs.entry l ≠ none) (h : Walks fs creat b cur ns l b₁) :
    Walks fs false b cur ns l b₁ := by
  induction h with
  | nil b cur => exact .nil b cur
  | dot hcur _ ih => exact .dot hcur (ih hne)
  | dotdot hcur _ ih => exact .dotdot hcur (ih hne)
  | missing _ _ _ hno => exact absurd hno hne
  | link he _ ih => exact .link he (ih hne)
  | down he hlink _ ih => exact .down he hlink (ih hne)

/-- A lookup is one of its first names and one of the others. -/
theorem split (hms : ms ≠ []) (h : Walks fs creat b cur (ns ++ ms) k b₂) :
    ∃ l b₁, Walks fs false b cur ns l b₁ ∧ Walks fs creat b₁ l ms k b₂ := by
  generalize hnames : ns ++ ms = names at h
  induction h generalizing ns with
  | nil b cur => exact absurd (List.append_eq_nil_iff.mp hnames).2 hms
  | dot hcur h ih =>
    cases ns with
    | nil =>
      obtain rfl : ms = _ := hnames
      exact ⟨_, _, .nil _ _, .dot hcur h⟩
    | cons m ns =>
      obtain ⟨rfl, htail⟩ := List.cons.inj hnames
      obtain ⟨l, b₁, h₁, h₂⟩ := ih htail
      exact ⟨l, b₁, .dot hcur h₁, h₂⟩
  | dotdot hcur h ih =>
    cases ns with
    | nil =>
      obtain rfl : ms = _ := hnames
      exact ⟨_, _, .nil _ _, .dotdot hcur h⟩
    | cons m ns =>
      obtain ⟨rfl, htail⟩ := List.cons.inj hnames
      obtain ⟨l, b₁, h₁, h₂⟩ := ih htail
      exact ⟨l, b₁, .dotdot hcur h₁, h₂⟩
  | missing hcur hdot hdotdot he hc =>
    cases ns with
    | nil =>
      obtain rfl : ms = _ := hnames
      exact ⟨_, _, .nil _ _, .missing hcur hdot hdotdot he hc⟩
    | cons m ns => exact absurd (List.append_eq_nil_iff.mp (List.cons.inj hnames).2).2 hms
  | @link _ _ _ _ _ _ ms' _ he h ih =>
    cases ns with
    | nil =>
      obtain rfl : ms = _ := hnames
      exact ⟨_, _, .nil _ _, .link he h⟩
    | cons m ns =>
      obtain ⟨rfl, rfl⟩ := List.cons.inj hnames
      obtain ⟨l, b₁, h₁, h₂⟩ := ih (List.append_assoc ms' ns ms)
      exact ⟨l, b₁, .link he h₁, h₂⟩
  | down he hlink h ih =>
    cases ns with
    | nil =>
      obtain rfl : ms = _ := hnames
      exact ⟨_, _, .nil _ _, .down he hlink h⟩
    | cons m ns =>
      obtain ⟨rfl, htail⟩ := List.cons.inj hnames
      obtain ⟨l, b₁, h₁, h₂⟩ := ih htail
      exact ⟨l, b₁, .down he hlink h₁, h₂⟩

/-- What a lookup goes on from is a directory. -/
theorem directory (h : Walks fs creat b cur ns l b₁) (hns : ns ≠ []) :
    fs.entry cur = some .directory := by
  cases h with
  | nil => exact absurd rfl hns
  | dot hcur => exact hcur
  | dotdot hcur => exact hcur
  | missing hcur => exact hcur
  | link he => exact directory_of_entry he
  | down he => exact directory_of_entry he

/-- A lookup from what is there ends at what is there, or at a missing name of a directory. -/
theorem ne_none_or_missing (h : Walks fs creat b cur ns l b₁) (hcur : fs.entry cur ≠ none) :
    fs.entry l ≠ none ∨ creat = true ∧ ∃ d n, l = d ++ [n] ∧ fs.entry d = some .directory := by
  induction h with
  | nil => exact .inl hcur
  | dot _ _ ih => exact ih hcur
  | dotdot _ _ ih => exact ih (ne_none_above hcur (List.dropLast_prefix _))
  | missing hdir _ _ _ hc => exact .inr ⟨hc, _, _, rfl, hdir⟩
  | @link _ _ cur _ _ _ _ absolute he _ ih =>
    refine ih ?_
    have hdir : fs.entry cur ≠ none := by
      rw [directory_of_entry he]
      exact Option.some_ne_none _
    cases absolute with
    | true => exact ne_none_above hdir List.nil_prefix
    | false => exact hdir
  | down he _ _ ih => exact ih (by rw [he]; exact Option.some_ne_none _)

end Walks

end Walk

end FileSystem

end LioNet.Lib
