import LioNet.Lib.KeyedLog
import LioNet.Lib.Transition

/-!
# The help list

`Env::addHelp` and `Env::removeHelp` of `env.cc`, on the vector `m_helps`.  The loop of `removeHelp` moves
its iterator twice in each round: once in the header, and once in the body, by `erase` or by `++it`.  So
it looks at every second entry only (`sweep`), and from a vector of odd length it steps over the end.

An iterator is an index, and `none` stands for a dereference outside the vector.
-/

namespace LioNet.Env

open LioNet.Lib

/-! ### The code -/

abbrev Helps := List (String × String)

/-- The loop of `removeHelp`, with its iterator. -/
def removeLoop (key : String) (it : Nat) (helps : Helps) : Option Helps :=
  if it = helps.length then some helps
  else if h : it < helps.length then
    if helps[it].1 = key then removeLoop key (it + 1) (helps.eraseIdx it)
    else removeLoop key (it + 1 + 1) helps
  else none
termination_by helps.length - it
decreasing_by
  · rw [List.length_eraseIdx_of_lt h]
    omega
  · omega

def removeHelp (helps : Helps) (key : String) : Option Helps := removeLoop key 0 helps

def addHelp (helps : Helps) (key desc : String) : Option Helps :=
  (removeHelp helps key).map (· ++ [(key, desc)])

inductive HelpCall
  | addHelp (key desc : String)
  | removeHelp (key : String)
  deriving DecidableEq, Repr

def HelpCall.key : HelpCall → String
  | .addHelp key _ | .removeHelp key => key

/-- The description that a call adds. -/
def HelpCall.desc : HelpCall → Option String
  | .addHelp _ desc => some desc
  | .removeHelp _ => none

def help (helps : Helps) : HelpCall → Option Helps
  | .addHelp key desc => addHelp helps key desc
  | .removeHelp key => removeHelp helps key

@[simp] theorem help_addHelp (helps : Helps) (key desc : String) :
    help helps (.addHelp key desc) = (removeHelp helps key).map (· ++ [(key, desc)]) := rfl

@[simp] theorem help_removeHelp (helps : Helps) (key : String) :
    help helps (.removeHelp key) = removeHelp helps key := rfl

/-! ### What the loop does -/

/-- The entries in pairs: the first is looked at, the second is not. -/
def sweep (key : String) : Helps → Option Helps
  | [] => some []
  | [_] => none
  | entry :: next :: helps =>
    (sweep key helps).map fun rest => if entry.1 = key then next :: rest else entry :: next :: rest

/-- The entries that the loop does not look at. -/
def skipped : Helps → Helps
  | _ :: next :: helps => next :: skipped helps
  | _ => []

theorem removeLoop_end (key : String) (helps : Helps) :
    removeLoop key helps.length helps = some helps := by
  rw [removeLoop, if_pos rfl]

theorem removeLoop_past {key : String} {it : Nat} {helps : Helps} (h : helps.length < it) :
    removeLoop key it helps = none := by
  rw [removeLoop, if_neg (by omega), dif_neg (by omega)]

/-- One round: the iterator moves on by one behind an erased entry, else by two. -/
theorem removeLoop_entry (key : String) (done : Helps) (entry : String × String) (helps : Helps) :
    removeLoop key done.length (done ++ entry :: helps) =
      if entry.1 = key then removeLoop key (done.length + 1) (done ++ helps)
      else removeLoop key (done.length + 1 + 1) (done ++ entry :: helps) := by
  have hlt : done.length < (done ++ entry :: helps).length := by simp
  have hget : (done ++ entry :: helps)[done.length] = entry := by simp
  have herase : (done ++ entry :: helps).eraseIdx done.length = done ++ helps := by
    rw [List.eraseIdx_append_of_length_le (Nat.le_refl _), Nat.sub_self, List.eraseIdx_cons_zero]
  rw [removeLoop, if_neg (Nat.ne_of_lt hlt), dif_pos hlt, hget, herase]

/-- **The loop sweeps the rest of the vector.** -/
theorem removeLoop_eq (key : String) (done helps : Helps) :
    removeLoop key done.length (done ++ helps) = (sweep key helps).map (done ++ ·) := by
  induction helps using sweep.induct generalizing done with
  | case1 =>
    rw [List.append_nil, removeLoop_end, sweep, Option.map_some, List.append_nil]
  | case2 entry =>
    rw [removeLoop_entry, removeLoop_past (by simp), removeLoop_past (by simp), ite_self]
    rfl
  | case3 entry next helps ih =>
    rw [removeLoop_entry, sweep, Option.map_map]
    by_cases hkey : entry.1 = key
    · have hrest := ih (done ++ [next])
      rw [List.length_append, List.append_assoc] at hrest
      rw [if_pos hkey, show done ++ next :: helps = done ++ ([next] ++ helps) from rfl]
      refine hrest.trans (Option.map_congr fun rest _ => ?_)
      simp [hkey]
    · have hrest := ih (done ++ [entry, next])
      rw [List.length_append, List.append_assoc] at hrest
      rw [if_neg hkey, show done ++ entry :: next :: helps = done ++ ([entry, next] ++ helps) from rfl]
      refine hrest.trans (Option.map_congr fun rest _ => ?_)
      simp [hkey]

theorem removeHelp_eq (helps : Helps) (key : String) : removeHelp helps key = sweep key helps := by
  have h := removeLoop_eq key [] helps
  simpa [removeHelp] using h

/-- **`removeHelp` stays within the vector exactly when its length is even.** -/
theorem removeHelp_isSome (helps : Helps) (key : String) :
    (removeHelp helps key).isSome = true ↔ helps.length % 2 = 0 := by
  rw [removeHelp_eq]
  induction helps using sweep.induct with
  | case1 => exact iff_of_true rfl rfl
  | case2 entry => simp [sweep]
  | case3 entry next helps ih =>
    rw [sweep, Option.isSome_map, ih, List.length_cons, List.length_cons]
    omega

theorem cons_eq_without {key : String} {next : String × String} {rest helps : Helps} :
    next :: rest = without key (next :: helps) ↔ next.1 ≠ key ∧ rest = without key helps := by
  constructor
  · intro h
    have hne : next.1 ≠ key := (mem_without.mp (h ▸ List.mem_cons_self : next ∈ _)).2
    rw [without, List.filter_cons_of_pos (by simpa using hne)] at h
    exact ⟨hne, (List.cons.inj h).2⟩
  · rintro ⟨hne, rfl⟩
    rw [without, without, List.filter_cons_of_pos (by simpa using hne)]

theorem sweep_eq_without {key : String} {helps : Helps} :
    sweep key helps = some (without key helps) ↔
      helps.length % 2 = 0 ∧ ∀ entry ∈ skipped helps, entry.1 ≠ key := by
  induction helps using sweep.induct with
  | case1 => exact iff_of_true rfl ⟨rfl, fun _ h => absurd h List.not_mem_nil⟩
  | case2 entry => exact iff_of_false nofun fun h => by cases h.1
  | case3 entry next helps ih =>
    -- the round's two entries, then the rest
    have hround : sweep key (entry :: next :: helps) = some (without key (entry :: next :: helps)) ↔
        ∃ rest, sweep key helps = some rest ∧ next :: rest = without key (next :: helps) := by
      rw [sweep, Option.map_eq_some_iff]
      refine exists_congr fun rest => and_congr_right fun _ => ?_
      by_cases hkey : entry.1 = key
      · rw [if_pos hkey, without, List.filter_cons_of_neg (by simpa using hkey), without]
      · rw [if_neg hkey, cons_eq_without]
        exact and_iff_right hkey
    rw [hround, skipped, List.forall_mem_cons, List.length_cons, List.length_cons]
    constructor
    · rintro ⟨rest, hrest, hnext⟩
      obtain ⟨hne, rfl⟩ := cons_eq_without.mp hnext
      obtain ⟨heven, hskip⟩ := ih.mp hrest
      exact ⟨by omega, hne, hskip⟩
    · rintro ⟨heven, hne, hskip⟩
      exact ⟨_, ih.mpr ⟨by omega, hskip⟩, cons_eq_without.mpr ⟨hne, rfl⟩⟩

/-- **`removeHelp` removes exactly the entries with its key when the vector has an even length and none
of the entries that the loop skips has the key**, and only then. -/
theorem removeHelp_exact_iff (helps : Helps) (key : String) :
    removeHelp helps key = some (helps.filter (·.1 ≠ key)) ↔
      helps.length % 2 = 0 ∧ ∀ entry ∈ skipped helps, entry.1 ≠ key := by
  rw [removeHelp_eq]
  exact sweep_eq_without

/-! ### Sequences of calls -/

/-- From the empty list on, each `removeHelp` stays within the vector and removes exactly the entries
with its key, and at the end there is one entry for each key with the latest description, in the order of
the latest additions. -/
structure KeepsHelps (calls : List HelpCall) : Prop where
  removes : ∀ earlier c later, calls = earlier ++ c :: later → ∃ helps,
    runs help [] earlier = some helps ∧
      removeHelp helps c.key = some (helps.filter (·.1 ≠ c.key))
  latest : ∃ helps, runs help [] calls = some helps ∧ Latest HelpCall.key HelpCall.desc calls helps

/-- A call whose `removeHelp` is exact records its key and description. -/
theorem help_eq_record {helps : Helps} {c : HelpCall}
    (h : removeHelp helps c.key = some (helps.filter (·.1 ≠ c.key))) :
    help helps c = some (record HelpCall.key HelpCall.desc helps c) := by
  cases c with
  | addHelp key desc =>
    rw [HelpCall.key] at h
    rw [help_addHelp, h]
    rfl
  | removeHelp key =>
    rw [HelpCall.key] at h
    rw [help_removeHelp, h, record, HelpCall.desc, Option.map_none, Option.toList_none, List.append_nil]
    rfl

theorem runs_snoc (earlier : List HelpCall) (c : HelpCall) :
    runs help [] (earlier ++ [c]) = (runs help [] earlier).bind fun helps => help helps c := by
  rw [runs_append]
  refine Option.bind_congr fun helps _ => ?_
  rw [runs]
  exact Option.bind_fun_some (help helps c)

/-- **When every `removeHelp` of a run is exact, the run is the ordered map.** -/
theorem runs_eq_record {calls : List HelpCall}
    (h : ∀ earlier c later, calls = earlier ++ c :: later → ∃ helps,
      runs help [] earlier = some helps ∧ removeHelp helps c.key = some (helps.filter (·.1 ≠ c.key))) :
    runs help [] calls = some (calls.foldl (record HelpCall.key HelpCall.desc) []) := by
  induction calls using List.reverseRecOn with
  | nil => rfl
  | append_singleton calls c ih =>
    have hcalls := ih fun earlier a later he => h earlier a (later ++ [c]) (by rw [he]; simp)
    obtain ⟨helps, hrun, hexact⟩ := h calls c [] rfl
    obtain rfl := Option.some.inj (hcalls.symm.trans hrun)
    rw [runs_snoc, hcalls, Option.bind_some, help_eq_record hexact, List.foldl_append]
    rfl

/-- A list with one entry is of odd length, so the next call leaves the vector. -/
theorem help_singleton (entry : String × String) (c : HelpCall) : help [entry] c = none := by
  have hnone : ∀ key, removeHelp [entry] key = none := by
    intro key
    rw [← Option.not_isSome_iff_eq_none, removeHelp_isSome]
    exact Nat.one_ne_zero
  cases c with
  | addHelp key desc => rw [help_addHelp, hnone, Option.map_none]
  | removeHelp key => exact hnone key

theorem removeHelp_nil (key : String) : removeHelp [] key = some [] := removeHelp_eq ..

theorem help_nil_of_desc {c : HelpCall} (h : c.desc = none) : help [] c = some [] := by
  cases c with
  | addHelp key desc => cases h
  | removeHelp key => exact removeHelp_nil key

theorem runs_removals {calls : List HelpCall} (h : ∀ c ∈ calls, c.desc = none) :
    runs help [] calls = some [] := by
  induction calls with
  | nil => rfl
  | cons c calls ih =>
    obtain ⟨hc, hrest⟩ := List.forall_mem_cons.mp h
    rw [runs, help_nil_of_desc hc, Option.bind_some, ih hrest]

/-- A run that stays within its vectors adds at most with its last call. -/
theorem desc_of_runs {calls : List HelpCall} {helps : Helps} (h : runs help [] calls = some helps) :
    ∀ c ∈ calls.dropLast, c.desc = none := by
  induction calls with
  | nil => exact fun c hc => absurd hc List.not_mem_nil
  | cons c calls ih =>
    cases calls with
    | nil => exact fun c hc => absurd hc List.not_mem_nil
    | cons next calls =>
      rw [List.dropLast_cons_cons, List.forall_mem_cons]
      rw [runs] at h
      cases c with
      | addHelp key desc =>
        rw [help_addHelp, removeHelp_nil, Option.map_some, Option.bind_some, runs, List.nil_append,
          help_singleton] at h
        cases h
      | removeHelp key =>
        rw [help_nil_of_desc rfl, Option.bind_some] at h
        exact ⟨rfl, ih h⟩

/-- **The help list is the ordered map exactly when no call follows an `addHelp`.** -/
theorem keepsHelps_iff (calls : List HelpCall) :
    KeepsHelps calls ↔ ∀ c ∈ calls.dropLast, c.desc = none := by
  constructor
  · intro h
    obtain ⟨helps, hrun, -⟩ := h.latest
    exact desc_of_runs hrun
  · intro h
    have hremoves : ∀ earlier c later, calls = earlier ++ c :: later → ∃ helps,
        runs help [] earlier = some helps ∧
          removeHelp helps c.key = some (helps.filter (·.1 ≠ c.key)) := by
      rintro earlier c later rfl
      refine ⟨[], runs_removals fun a ha => h a ?_, removeHelp_nil c.key⟩
      rw [List.dropLast_append_of_ne_nil (List.cons_ne_nil c later)]
      exact List.mem_append_left _ ha
    exact ⟨hremoves, _, runs_eq_record hremoves, latest_record calls⟩

/-- The second of two additions finds a vector of length one. -/
theorem not_keepsHelps_second :
    ¬KeepsHelps [.addHelp "s" "start with the terminal", .addHelp "d" "run as daemon"] := by
  intro h
  obtain ⟨helps, hrun, -⟩ := h.latest
  rw [runs, help_addHelp, removeHelp_nil, Option.map_some, Option.bind_some, runs, List.nil_append,
    help_singleton] at hrun
  cases hrun

end LioNet.Env
