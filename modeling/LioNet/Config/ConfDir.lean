import LioNet.Config.Load

/-!
# Loading a directory of configuration files

`Config::LoadFromConfDir` of `config.cc`.  A file is read again when its modification time, in whole
seconds, differs from the one recorded for it; the time is recorded before the file is read, whether
or not it parses, and a file that was never recorded has the time 0.

Between the calls somebody edits the files of the directory.  `passed` notes the content of a file
that was last given to `LoadFromYaml`.  `YAML::LoadFile` is the parameter `parse`, with `none` where
it throws.  `FSUtil::ListAllFile` gives the files of the directory in some order, which is part of the
label.
-/

namespace LioNet.Config.ConfDir

open LioNet.Lib LioNet.Yaml

structure File where
  content : String
  mtime : Nat
  deriving DecidableEq, Repr

variable {τ : Type} {V : τ → Type}

structure State (V : τ → Type) where
  dir : List String
  disk : String → Option File
  /-- when the last edit was made -/
  now : Nat
  /-- `s_file2modifytime` -/
  file2modifytime : String → Nat
  datas : Registry V
  passed : String → Option String

/-- An empty directory, and nothing loaded. -/
def State.init (datas : Registry V) : State V where
  dir := []
  disk := fun _ => none
  now := 0
  file2modifytime := fun _ => 0
  datas := datas
  passed := fun _ => none

inductive Label
  /-- the file `f` is written, or made, at time `t` -/
  | edit (f : String) (content : String) (t : Nat)
  /-- `LoadFromConfDir(dir, force)`, with the files as `ListAllFile` lists them -/
  | load (files : List String) (force : Bool)
  deriving DecidableEq, Repr

section Step

variable [DecidableEq τ] [∀ t, BEq (V t)] (fromStr : (t : τ) → String → Option (V t))
  (emit : Node → String) (parse : String → Option Node)

/-- One turn of the loop over `files`. -/
def State.loadFile (s : State V) (force : Bool) (f : String) : State V :=
  match s.disk f with
  | some file =>
    if !force && s.file2modifytime f == file.mtime then s
    else
      let s' := { s with file2modifytime := Function.update s.file2modifytime f file.mtime }
      match parse file.content with
      | some root =>
        { s' with
          datas := s.datas.loadFromYaml fromStr emit root
          passed := Function.update s.passed f (some file.content) }
      | none => s'
  | none => s

def State.loadFromConfDir (s : State V) (files : List String) (force : Bool) : State V :=
  files.foldl (fun s f => s.loadFile fromStr emit parse force f) s

/-- The clock of the file system does not go back. -/
def State.edit (s : State V) (f content : String) (t : Nat) : Option (State V) :=
  if s.now ≤ t then
    some { s with
      dir := if f ∈ s.dir then s.dir else f :: s.dir
      disk := Function.update s.disk f (some ⟨content, t⟩)
      now := t }
  else none

def step (s : State V) : Label → Option (State V)
  | .edit f content t => s.edit f content t
  | .load files force =>
    if files.isPerm s.dir then some (s.loadFromConfDir fromStr emit parse files force) else none

end Step

theorem edit_cases {s s' : State V} {f content : String} {t : Nat}
    (h : s.edit f content t = some s') :
    s.now ≤ t ∧ s' = { s with
      dir := if f ∈ s.dir then s.dir else f :: s.dir
      disk := Function.update s.disk f (some ⟨content, t⟩)
      now := t } := by
  unfold State.edit at h
  split at h
  · rename_i ht
    exact ⟨ht, (Option.some.inj h).symm⟩
  · cases h

/-! ### What the program has seen -/

/-- The content last passed to `LoadFromYaml` is the current one, for every file that parses. -/
def Current (parse : String → Option Node) (s : State V) : Prop :=
  ∀ f file, s.disk f = some file → (parse file.content).isSome → s.passed f = some file.content

/-- A file whose modification time is the recorded one still has the content that was passed. -/
def TimesTell (parse : String → Option Node) (s : State V) : Prop :=
  ∀ f file, s.disk f = some file → s.file2modifytime f = file.mtime →
    (parse file.content).isSome → s.passed f = some file.content

section Run

variable [DecidableEq τ] [∀ t, BEq (V t)] {fromStr : (t : τ) → String → Option (V t)}
  {emit : Node → String} {parse : String → Option Node} {s s' : State V} {datas : Registry V}

/-- Every file is in the directory. -/
def Listed (s : State V) : Prop := ∀ f file, s.disk f = some file → f ∈ s.dir

/-- Some turns of the loop, seen from the file `g`: it is read when it is in the list, its time
differs and it parses, and the recorded time is its own afterwards. -/
structure Turns (parse : String → Option Node) (s s' : State V) (files : List String) : Prop where
  disk : s'.disk = s.disk
  dir : s'.dir = s.dir
  now : s'.now = s.now
  time : ∀ g file, s.disk g = some file →
    s'.file2modifytime g = if g ∈ files then file.mtime else s.file2modifytime g
  passed : ∀ g file, s.disk g = some file →
    s'.passed g = if g ∈ files ∧ s.file2modifytime g ≠ file.mtime ∧ (parse file.content).isSome then
      some file.content else s.passed g

omit [DecidableEq τ] [∀ t, BEq (V t)] in
/-- One turn is known by what it does to its own file. -/
theorem Turns.single {parse : String → Option Node} {s s' : State V} {f : String} {file : File}
    (hf : s.disk f = some file) (hdisk : s'.disk = s.disk) (hdir : s'.dir = s.dir)
    (hnow : s'.now = s.now)
    (hother : ∀ g, g ≠ f → s'.file2modifytime g = s.file2modifytime g ∧ s'.passed g = s.passed g)
    (htime : s'.file2modifytime f = file.mtime)
    (hpassed : s'.passed f =
      if s.file2modifytime f ≠ file.mtime ∧ (parse file.content).isSome then some file.content
      else s.passed f) : Turns parse s s' [f] := by
  refine ⟨hdisk, hdir, hnow, fun g file' hg => ?_, fun g file' hg => ?_⟩
  · by_cases e : g = f
    · subst e
      obtain rfl := Option.some.inj (hf.symm.trans hg)
      rw [htime, if_pos (List.mem_singleton_self g)]
    · rw [(hother g e).1, if_neg fun hm => e (List.mem_singleton.mp hm)]
  · by_cases e : g = f
    · subst e
      obtain rfl := Option.some.inj (hf.symm.trans hg)
      rw [hpassed]
      simp only [List.mem_singleton, true_and]
    · rw [(hother g e).2, if_neg fun hm => e (List.mem_singleton.mp hm.1)]

theorem turns_loadFile (fromStr : (t : τ) → String → Option (V t))
    (emit : Node → String) (parse : String → Option Node) (s : State V) (f : String) :
    Turns parse s (s.loadFile fromStr emit parse false f) [f] := by
  unfold State.loadFile
  cases hf : s.disk f with
  | none =>
    have hne : ∀ g file, s.disk g = some file → g ≠ f := by
      intro g file hg e
      rw [e, hf] at hg
      cases hg
    refine ⟨rfl, rfl, rfl, fun g file hg => ?_, fun g file hg => ?_⟩
    · simp [hne g file hg]
    · simp [hne g file hg]
  | some file =>
    dsimp only
    split
    · rename_i ht
      have ht' : s.file2modifytime f = file.mtime := by simpa using ht
      refine .single hf rfl rfl rfl (fun _ _ => ⟨rfl, rfl⟩) ht' ?_
      rw [if_neg fun hc => hc.1 ht']
    · rename_i ht
      have ht' : s.file2modifytime f ≠ file.mtime := by simpa using ht
      split
      · rename_i root hroot
        refine .single hf rfl rfl rfl (fun g hg => by simp [hg]) (by simp) ?_
        simp [ht', hroot]
      · rename_i hroot
        refine .single hf rfl rfl rfl (fun g hg => by simp [hg]) (by simp) ?_
        simp [hroot]

/-- **The whole loop.**  A file that comes twice is not read twice: its time is recorded. -/
theorem turns_loadFromConfDir (fromStr : (t : τ) → String → Option (V t))
    (emit : Node → String) (parse : String → Option Node) (s : State V) (files : List String) :
    Turns parse s (s.loadFromConfDir fromStr emit parse files false) files := by
  induction files generalizing s with
  | nil => exact ⟨rfl, rfl, rfl, fun _ _ _ => by simp [State.loadFromConfDir],
      fun _ _ _ => by simp [State.loadFromConfDir]⟩
  | cons f files ih =>
    have hfirst := turns_loadFile fromStr emit parse s f
    have hrest := ih (s.loadFile fromStr emit parse false f)
    refine ⟨hrest.disk.trans hfirst.disk, hrest.dir.trans hfirst.dir, hrest.now.trans hfirst.now,
      fun g file hg => ?_, fun g file hg => ?_⟩
    · have hg' : (s.loadFile fromStr emit parse false f).disk g = some file := by
        rw [hfirst.disk]
        exact hg
      show ((s.loadFile fromStr emit parse false f).loadFromConfDir fromStr emit parse files
        false).file2modifytime g = _
      rw [hrest.time g file hg', hfirst.time g file hg]
      by_cases h1 : g ∈ files <;> by_cases h2 : g = f <;> simp [h1, h2]
    · have hg' : (s.loadFile fromStr emit parse false f).disk g = some file := by
        rw [hfirst.disk]
        exact hg
      show ((s.loadFile fromStr emit parse false f).loadFromConfDir fromStr emit parse files
        false).passed g = _
      rw [hrest.passed g file hg', hfirst.passed g file hg, hfirst.time g file hg]
      by_cases h1 : g ∈ files <;> by_cases h2 : g = f <;> simp [h1, h2]

/-- The loop writes no file. -/
theorem loadFromConfDir_disk (fromStr : (t : τ) → String → Option (V t))
    (emit : Node → String) (parse : String → Option Node) (s : State V) (files : List String)
    (force : Bool) :
    (s.loadFromConfDir fromStr emit parse files force).disk = s.disk ∧
      (s.loadFromConfDir fromStr emit parse files force).dir = s.dir := by
  induction files generalizing s with
  | nil => exact ⟨rfl, rfl⟩
  | cons f files ih =>
    have hone : (s.loadFile fromStr emit parse force f).disk = s.disk ∧
        (s.loadFile fromStr emit parse force f).dir = s.dir := by
      unfold State.loadFile
      split
      · split
        · exact ⟨rfl, rfl⟩
        · dsimp only
          split <;> exact ⟨rfl, rfl⟩
      · exact ⟨rfl, rfl⟩
    have hrest := ih (s.loadFile fromStr emit parse force f)
    exact ⟨hrest.1.trans hone.1, hrest.2.trans hone.2⟩

theorem load_cases {files : List String} {force : Bool}
    (h : step fromStr emit parse s (.load files force) = some s') :
    files.Perm s.dir ∧ s' = s.loadFromConfDir fromStr emit parse files force := by
  simp only [step] at h
  split at h
  · rename_i hp
    exact ⟨List.isPerm_iff.mp hp, (Option.some.inj h).symm⟩
  · cases h

theorem Listed.step {l : Label} (h : Listed s) (hs : ConfDir.step fromStr emit parse s l = some s') :
    Listed s' := by
  cases l with
  | edit f content t =>
    obtain ⟨-, hs'⟩ := edit_cases hs
    subst hs'
    intro g file hg
    show g ∈ (if f ∈ s.dir then s.dir else f :: s.dir)
    by_cases e : g = f
    · subst e
      split
      · assumption
      · exact List.mem_cons_self
    · have hg' : s.disk g = some file := by simpa [e] using hg
      split
      · exact h g file hg'
      · exact List.mem_cons_of_mem f (h g file hg')
  | load files force =>
    obtain ⟨-, hs'⟩ := load_cases hs
    subst hs'
    obtain ⟨hdisk, hdir⟩ := loadFromConfDir_disk fromStr emit parse s files force
    intro g file hg
    rw [hdisk] at hg
    rw [hdir]
    exact h g file hg

theorem Listed.reach {P : State V → Label → Prop}
    (h : Reach (ConfDir.step fromStr emit parse) P (State.init datas) s) : Listed s :=
  h.invariant (I := Listed) (fun _ _ hg => by cases hg) fun hI _ hs => hI.step hs

/-- A call that is not forced brings the program up to date with the files whose times differ. -/
theorem current_of_listed (hI : Listed s) {files : List String}
    (hs : step fromStr emit parse s (.load files false) = some s') :
    Current parse s' ↔ TimesTell parse s := by
  obtain ⟨hperm, hs'⟩ := load_cases hs
  subst hs'
  have hturns := turns_loadFromConfDir fromStr emit parse s files
  have hmem : ∀ f file, s.disk f = some file → f ∈ files :=
    fun f file hf => hperm.mem_iff.mpr (hI f file hf)
  constructor
  · intro hcur f file hf ht hp
    have hseen := hcur f file (by rw [hturns.disk]; exact hf) hp
    rw [hturns.passed f file hf, if_neg fun hc => hc.2.1 ht] at hseen
    exact hseen
  · intro htell f file hf hp
    rw [hturns.disk] at hf
    rw [hturns.passed f file hf]
    by_cases ht : s.file2modifytime f = file.mtime
    · rw [if_neg fun hc => hc.2.1 ht]
      exact htell f file hf ht hp
    · rw [if_pos ⟨hmem f file hf, ht, hp⟩]

/-- **After a call, the program has seen every file as it is, exactly when the times told** which files
had changed. -/
theorem current_iff (h : Reach (step fromStr emit parse) (fun _ _ => True) (State.init datas) s)
    {files : List String} (hs : step fromStr emit parse s (.load files false) = some s') :
    Current parse s' ↔ TimesTell parse s :=
  current_of_listed (Listed.reach h) hs

/-- An edit gives its file another time than the recorded one, and no call is forced. -/
def FreshTimes (s : State V) : Label → Prop
  | .edit f _ t => t ≠ s.file2modifytime f
  | .load _ force => force = false

/-- **The times tell** as long as each edit changes the time that is recorded for its file. -/
theorem timesTell_of_fresh
    (h : Reach (step fromStr emit parse) FreshTimes (State.init datas) s) : TimesTell parse s := by
  refine h.invariant' (I := TimesTell parse) (fun f file hf => by cases hf) ?_
  intro s l s' hr hI hl hs
  cases l with
  | edit f content t =>
    obtain ⟨-, hs'⟩ := edit_cases hs
    subst hs'
    intro g file hg ht hp
    by_cases e : g = f
    · subst e
      have hfile : file = ⟨content, t⟩ := by simpa [eq_comm] using hg
      rw [hfile] at ht
      exact absurd ht.symm hl
    · have hg' : s.disk g = some file := by simpa [e] using hg
      exact hI g file hg' ht hp
  | load files force =>
    have hforce : force = false := hl
    subst hforce
    have hcur := (current_of_listed (Listed.reach hr) hs).mpr hI
    exact fun f file hf _ hp => hcur f file hf hp

end Run

/-! ### Two edits -/

/-- A document of one scalar. -/
def scalarDoc (content : String) : Option Node := some (.scalar content)

/-- A file is edited in the second 5, loaded, edited in the second `t`, and loaded. -/
def editedAt (t : Nat) : List Label :=
  [.edit "a.yml" "1" 5, .load ["a.yml"] false, .edit "a.yml" "2" t]

theorem current_iff_next_second :
    ∃ s s' : State strings,
      runs (step asString (fun _ => "~") scalarDoc) (State.init Registry.empty) (editedAt 6) = some s ∧
        step asString (fun _ => "~") scalarDoc s (.load ["a.yml"] false) = some s' ∧
          (Current scalarDoc s' ↔ TimesTell scalarDoc s) := by
  obtain ⟨s, hr, hc⟩ := exists_of_runs (step asString (fun _ => "~") scalarDoc)
    (State.init (Registry.empty (V := strings))) (editedAt 6) (fun s => s.dir == ["a.yml"])
    (by decide +kernel)
  have hperm : (["a.yml"] : List String).isPerm s.dir = true := by
    rw [eq_of_beq hc]
    decide
  have hs : step asString (fun _ => "~") scalarDoc s (.load ["a.yml"] false) =
      some (s.loadFromConfDir asString (fun _ => "~") scalarDoc ["a.yml"] false) := by
    simp only [step, hperm, if_true]
  have hreach := Reach.of_runs (p := fun _ => True) .refl (fun _ _ => trivial) hr
  exact ⟨s, _, hr, hs, current_iff hreach hs⟩

/-- The second edit falls in the second of the first, and is missed. -/
theorem same_second_missed :
    ¬∀ (s s' : State strings) (files : List String),
      Reach (step asString (fun _ => "~") scalarDoc) (fun _ _ => True) (State.init Registry.empty) s →
        step asString (fun _ => "~") scalarDoc s (.load files false) = some s' →
          Current scalarDoc s' := by
  intro h
  obtain ⟨s, hr, hc⟩ := exists_of_runs (step asString (fun _ => "~") scalarDoc)
    (State.init (Registry.empty (V := strings))) (editedAt 5)
    (fun s => s.dir == ["a.yml"] && (s.disk "a.yml" == some ⟨"2", 5⟩ &&
      (s.file2modifytime "a.yml" == 5 && s.passed "a.yml" == some "1"))) (by decide +kernel)
  simp only [Bool.and_eq_true, beq_iff_eq] at hc
  obtain ⟨hdir, hdisk, htime, hpassed⟩ := hc
  have hperm : (["a.yml"] : List String).isPerm s.dir = true := by
    rw [hdir]
    decide
  have hs : step asString (fun _ => "~") scalarDoc s (.load ["a.yml"] false) =
      some (s.loadFromConfDir asString (fun _ => "~") scalarDoc ["a.yml"] false) := by
    simp only [step, hperm, if_true]
  have hreach := Reach.of_runs (p := fun _ => True) .refl (fun _ _ => trivial) hr
  have hturns := turns_loadFromConfDir asString (fun _ => "~") scalarDoc s ["a.yml"]
  have hseen := h s _ ["a.yml"] hreach hs "a.yml" ⟨"2", 5⟩ (by rw [hturns.disk]; exact hdisk) rfl
  rw [hturns.passed _ _ hdisk, if_neg fun hc => hc.2.1 htime, hpassed] at hseen
  exact absurd hseen (by decide)

end LioNet.Config.ConfDir
