import LioNet.Log.Logger
import LioNet.Lib.Transition

/-!
# The formatter an appender uses

One logger and the appenders that are made for it.  An appender is due to format with its own
formatter if the user gave it one last, and with the formatter of its logger otherwise.

`addAppender` gives the formatter of the logger to an appender without one through
`LogAppender::setFormatter`, which marks it as the appender's own.  So a later
`Logger::setFormatter` passes over this appender, and an appender whose formatter is withdrawn has
none until the logger gets a new one.  The results say in which steps this does not show.
-/

namespace LioNet.Log.Ownership

open LioNet.Lib

structure State where
  logger : Logger
  /-- the last formatter the user gave the appender, `none` if there was none or it was withdrawn -/
  own : AppenderId → Option LogFormatter

def State.init (name : String) : State where
  logger := .new name
  own := fun _ => none

inductive Label
  /-- an appender is made -/
  | make (sink : Sink)
  | addAppender (a : AppenderId)
  | delAppender (a : AppenderId)
  | clearAppenders
  | setFormatter (val : Option LogFormatter)
  | setPattern (val : String)
  /-- the user calls `LogAppender::setFormatter` -/
  | setOwn (a : AppenderId) (formatter : Option LogFormatter)
  deriving DecidableEq, Repr

/-- `LogAppender::setFormatter` on the appender `a`. -/
def State.setOwn (s : State) (a : AppenderId) (formatter : Option LogFormatter) : State where
  logger := { s.logger with
    objects := Function.update s.logger.objects a ((s.logger.objects a).setFormatter formatter) }
  own := Function.update s.own a formatter

def step (s : State) : Label → Option State
  | .make sink => some { logger := s.logger.make { sink := sink },
                         own := Function.update s.own s.logger.made none }
  | .addAppender a =>
    if a < s.logger.made then some { s with logger := s.logger.addAppender a } else none
  | .delAppender a => some { s with logger := s.logger.delAppender a }
  | .clearAppenders => some { s with logger := s.logger.clearAppenders }
  | .setFormatter val => some { s with logger := s.logger.setFormatter val }
  | .setPattern val => some { s with logger := s.logger.setPattern val }
  | .setOwn a formatter => if a < s.logger.made then some (s.setOwn a formatter) else none

/-! ### The property -/

/-- Every event that passes the level of the appender is formatted with `f`. -/
def FormatsWith (ap : LogAppender) (f : LogFormatter) : Prop :=
  ∀ level : Level, ap.level.toNat ≤ level.toNat → ap.log level = some [(ap.sink, f)]

/-- The formatter the appender is due to use. -/
def State.due (s : State) (a : AppenderId) : Option LogFormatter :=
  (s.own a).or s.logger.formatter

/-- Every attached appender formats with the formatter it is due to use. -/
def Effective (s : State) : Prop :=
  ∀ a ∈ s.logger.appenders, ∃ f, s.due a = some f ∧ FormatsWith (s.logger.objects a) f

/-- The logger's new formatter reaches the attached appenders that have none of their own. -/
def Reaches (s : State) (val : Option LogFormatter) : Prop :=
  ∀ a ∈ s.logger.appenders, s.own a = none → val.isSome ∧
    ((s.logger.objects a).hasFormatter = false ∨ (s.logger.objects a).formatter = val)

/-- The steps in which the mark that `addAppender` leaves does not show. -/
def Fine (s : State) : Label → Prop
  | .addAppender a => s.own a = none → s.logger.formatter.isSome ∧
    ((s.logger.objects a).formatter = none ∨
      (s.logger.objects a).formatter = s.logger.formatter)
  | .setFormatter val => Reaches s val
  | .setPattern val => (LogFormatter.mk val).isError = false → Reaches s (some ⟨val⟩)
  | .setOwn a formatter => formatter = none → a ∉ s.logger.appenders
  | .make _ | .delAppender _ | .clearAppenders => True

instance (s : State) (val : Option LogFormatter) : Decidable (Reaches s val) :=
  inferInstanceAs (Decidable (∀ a ∈ s.logger.appenders, s.own a = none → val.isSome ∧
    ((s.logger.objects a).hasFormatter = false ∨ (s.logger.objects a).formatter = val)))

instance (s : State) : (l : Label) → Decidable (Fine s l)
  | .addAppender a => inferInstanceAs (Decidable (s.own a = none → s.logger.formatter.isSome ∧
    ((s.logger.objects a).formatter = none ∨
      (s.logger.objects a).formatter = s.logger.formatter)))
  | .setFormatter val => inferInstanceAs (Decidable (Reaches s val))
  | .setPattern val =>
    inferInstanceAs (Decidable ((LogFormatter.mk val).isError = false → Reaches s (some ⟨val⟩)))
  | .setOwn a formatter =>
    inferInstanceAs (Decidable (formatter = none → a ∉ s.logger.appenders))
  | .make _ | .delAppender _ | .clearAppenders => inferInstanceAs (Decidable True)

theorem formatsWith_iff {ap : LogAppender} {f : LogFormatter} :
    FormatsWith ap f ↔ ap.formatter = some f := by
  constructor
  · intro h
    have hlog := h ap.level (Nat.le_refl _)
    rw [LogAppender.log, if_pos (Nat.le_refl _)] at hlog
    obtain ⟨g, hg, he⟩ := Option.map_eq_some_iff.mp hlog
    cases he
    exact hg
  · intro h level hl
    rw [LogAppender.log, if_pos hl, h]
    rfl

/-- An appender formats as it is due. -/
def State.Good (s : State) (a : AppenderId) : Prop :=
  (s.due a).isSome ∧ (s.logger.objects a).formatter = s.due a

theorem effective_iff {s : State} : Effective s ↔ ∀ a ∈ s.logger.appenders, s.Good a := by
  constructor
  · intro h a ha
    obtain ⟨f, hf, hw⟩ := h a ha
    refine ⟨?_, ?_⟩
    · rw [hf]
      rfl
    · rw [hf]
      exact formatsWith_iff.mp hw
  · intro h a ha
    obtain ⟨hsome, he⟩ := h a ha
    obtain ⟨f, hf⟩ := Option.isSome_iff_exists.mp hsome
    refine ⟨f, hf, ?_⟩
    rw [formatsWith_iff, he]
    exact hf

/-! ### What always holds -/

/-- An appender uses the formatter that the user gave it last. -/
def Keeps (own : Option LogFormatter) (ap : LogAppender) : Prop :=
  ∀ f, own = some f → ap.formatter = some f ∧ ap.hasFormatter = true

theorem keeps_follow {own : Option LogFormatter} {ap : LogAppender} (h : Keeps own ap)
    (val : Option LogFormatter) : Keeps own (Logger.follow val ap) := by
  intro f hf
  have hhas := (h f hf).2
  rw [Logger.follow, if_pos hhas]
  exact h f hf

theorem keeps_adopt {own : Option LogFormatter} {ap : LogAppender} (h : Keeps own ap)
    (val : Option LogFormatter) : Keeps own (Logger.adopt val ap) := by
  intro f hf
  have hfmt := (h f hf).1
  rw [Logger.adopt, hfmt]
  exact h f hf

theorem keeps_setFormatter (formatter : Option LogFormatter) (ap : LogAppender) :
    Keeps formatter (ap.setFormatter formatter) := by
  intro f hf
  subst hf
  exact ⟨rfl, rfl⟩

theorem keeps_update {own : AppenderId → Option LogFormatter} {objects : AppenderId → LogAppender}
    (h : ∀ b, Keeps (own b) (objects b)) {a : AppenderId} {o : Option LogFormatter}
    {ap : LogAppender} (ha : Keeps o ap) (b : AppenderId) :
    Keeps (Function.update own a o b) (Function.update objects a ap b) := by
  by_cases e : b = a
  · subst e
    rw [Function.update_self, Function.update_self]
    exact ha
  · rw [Function.update_of_ne e, Function.update_of_ne e]
    exact h b

/-- Attached appenders were made, and every appender keeps its own formatter. -/
structure Inv (s : State) : Prop where
  made : ∀ a ∈ s.logger.appenders, a < s.logger.made
  own : ∀ a, Keeps (s.own a) (s.logger.objects a)

variable {s s' : State}

theorem Inv.setFormatter (h : Inv s) (val : Option LogFormatter) :
    Inv { s with logger := s.logger.setFormatter val } := by
  refine ⟨h.made, fun a => ?_⟩
  show Keeps (s.own a) (if a ∈ s.logger.appenders then Logger.follow val (s.logger.objects a)
    else s.logger.objects a)
  split
  · exact keeps_follow (h.own a) val
  · exact h.own a

theorem Inv.step {l : Label} (h : Inv s) (hs : Ownership.step s l = some s') : Inv s' := by
  cases l with
  | make sink =>
    cases hs
    constructor
    · intro b hb
      exact Nat.lt_succ_of_lt (h.made b hb)
    · intro b
      have hnew : Keeps none { sink := sink } := fun f hf => by cases hf
      exact keeps_update h.own hnew b
  | addAppender a =>
    simp only [Ownership.step] at hs
    split at hs
    · rename_i ha
      cases hs
      constructor
      · intro b hb
        rcases List.mem_append.mp hb with hb | hb
        · exact h.made b hb
        · rw [List.mem_singleton.mp hb]
          exact ha
      · intro b
        have hk := keeps_update (a := a) h.own (keeps_adopt (h.own a) s.logger.formatter) b
        rw [Function.update_eq_self] at hk
        exact hk
    · cases hs
  | delAppender a =>
    cases hs
    exact ⟨fun b hb => h.made b (List.mem_of_mem_erase hb), h.own⟩
  | clearAppenders =>
    cases hs
    exact ⟨fun b hb => absurd hb List.not_mem_nil, h.own⟩
  | setFormatter val =>
    cases hs
    exact h.setFormatter val
  | setPattern val =>
    cases hs
    rw [Logger.setPattern]
    split
    · exact h
    · exact h.setFormatter _
  | setOwn a formatter =>
    simp only [Ownership.step] at hs
    split at hs
    · cases hs
      exact ⟨h.made, keeps_update h.own (keeps_setFormatter formatter _)⟩
    · cases hs

theorem Inv.reach {P : State → Label → Prop} {name : String}
    (h : Reach Ownership.step P (State.init name) s) : Inv s := by
  refine h.invariant (I := Inv) ⟨fun a ha => ?_, fun a f hf => ?_⟩ fun hI _ hs => hI.step hs
  · cases ha
  · cases hf

/-! ### One step -/

/-- A step that moves neither the attached appenders nor the formatters. -/
theorem effective_of_same (h : Effective s)
    (hmem : ∀ a ∈ s'.logger.appenders, a ∈ s.logger.appenders)
    (hfmt : s'.logger.formatter = s.logger.formatter)
    (hsame : ∀ a ∈ s'.logger.appenders, s'.own a = s.own a ∧
      s'.logger.objects a = s.logger.objects a) : Effective s' := by
  rw [effective_iff] at h ⊢
  intro a ha
  obtain ⟨hown, hobj⟩ := hsame a ha
  have hgood := h a (hmem a ha)
  have hdue : s'.due a = s.due a := by rw [State.due, hown, hfmt, State.due]
  rw [State.Good, hdue, hobj]
  exact hgood

theorem effective_setFormatter (hI : Inv s) (h : Effective s) (val : Option LogFormatter) :
    Effective { s with logger := s.logger.setFormatter val } ↔ Reaches s val := by
  rw [effective_iff] at h ⊢
  have hobj : ∀ a ∈ s.logger.appenders, (s.logger.setFormatter val).objects a =
      Logger.follow val (s.logger.objects a) := fun a ha => if_pos ha
  refine forall_congr' fun a => forall_congr' fun ha => ?_
  have hgood := h a ha
  show ((s.own a).or val).isSome ∧ ((s.logger.setFormatter val).objects a).formatter =
    (s.own a).or val ↔ _
  rw [hobj a ha]
  cases ho : s.own a with
  | some f =>
    have hfmt := (keeps_follow (hI.own a) val f ho).1
    rw [hfmt]
    simp
  | none =>
    rw [Logger.follow]
    cases hh : (s.logger.objects a).hasFormatter with
    | true => simp
    | false => simp

theorem effective_addAppender (hI : Inv s) (h : Effective s) (a : AppenderId) :
    Effective { s with logger := s.logger.addAppender a } ↔
      (s.own a = none → s.logger.formatter.isSome ∧ ((s.logger.objects a).formatter = none ∨
        (s.logger.objects a).formatter = s.logger.formatter)) := by
  rw [effective_iff] at h ⊢
  have hself : (s.logger.addAppender a).objects a =
      Logger.adopt s.logger.formatter (s.logger.objects a) := Function.update_self _ _ _
  have hother : ∀ b, b ≠ a → (s.logger.addAppender a).objects b = s.logger.objects b :=
    fun b hb => Function.update_of_ne hb _ _
  have hone : State.Good { s with logger := s.logger.addAppender a } a ↔
      (s.own a = none → s.logger.formatter.isSome ∧ ((s.logger.objects a).formatter = none ∨
        (s.logger.objects a).formatter = s.logger.formatter)) := by
    show ((s.own a).or s.logger.formatter).isSome ∧ ((s.logger.addAppender a).objects a).formatter =
      (s.own a).or s.logger.formatter ↔ _
    rw [hself]
    cases ho : s.own a with
    | some f =>
      have hfmt := (keeps_adopt (hI.own a) s.logger.formatter f ho).1
      rw [hfmt]
      simp
    | none =>
      rw [Logger.adopt]
      cases hf : (s.logger.objects a).formatter with
      | none => simp [LogAppender.setFormatter]
      | some f => simp [hf]
  rw [← hone]
  constructor
  · intro hall
    exact hall a (List.mem_append_right _ (List.mem_singleton.mpr rfl))
  · intro hgood b hb
    by_cases e : b = a
    · rw [e]
      exact hgood
    · have hb' : b ∈ s.logger.appenders := by
        rcases List.mem_append.mp hb with hb | hb
        · exact hb
        · exact absurd (List.mem_singleton.mp hb) e
      show ((s.own b).or s.logger.formatter).isSome ∧
        ((s.logger.addAppender a).objects b).formatter = (s.own b).or s.logger.formatter
      rw [hother b e]
      exact h b hb'

theorem effective_setOwn (h : Effective s) (a : AppenderId) (formatter : Option LogFormatter) :
    Effective (s.setOwn a formatter) ↔ (formatter = none → a ∉ s.logger.appenders) := by
  rw [effective_iff] at h ⊢
  have hself : State.Good (s.setOwn a formatter) a ↔ formatter.isSome := by
    have hown : (s.setOwn a formatter).due a = formatter.or s.logger.formatter := by
      show (Function.update s.own a formatter a).or s.logger.formatter = _
      rw [Function.update_self]
    have hobj : ((s.setOwn a formatter).logger.objects a).formatter = formatter := by
      show (Function.update s.logger.objects a _ a).formatter = formatter
      rw [Function.update_self]
      rfl
    rw [State.Good, hown, hobj]
    cases formatter with
    | some f => simp
    | none =>
      cases s.logger.formatter with
      | none => simp
      | some g => simp
  have hother : ∀ b, b ≠ a → (State.Good (s.setOwn a formatter) b ↔ s.Good b) := by
    intro b hb
    have hown : (s.setOwn a formatter).due b = s.due b := by
      show (Function.update s.own a formatter b).or s.logger.formatter = _
      rw [Function.update_of_ne hb]
      rfl
    have hobj : (s.setOwn a formatter).logger.objects b = s.logger.objects b :=
      Function.update_of_ne hb _ _
    rw [State.Good, hown, hobj, State.Good]
  constructor
  · intro hall hnone ha
    have hsome := hself.mp (hall a ha)
    rw [hnone] at hsome
    cases hsome
  · intro hcond b hb
    by_cases e : b = a
    · rw [e, hself]
      cases formatter with
      | some f => rfl
      | none => exact absurd (e ▸ hb) (hcond rfl)
    · exact (hother b e).mpr (h b hb)

/-- **One step** from a state where the formatters are right. -/
theorem effective_step {l : Label} (hI : Inv s) (h : Effective s) (hs : step s l = some s') :
    Effective s' ↔ Fine s l := by
  cases l with
  | make sink =>
    cases hs
    refine iff_of_true (effective_of_same h (fun a ha => ha) rfl fun a ha => ?_) trivial
    have hne : a ≠ s.logger.made := Nat.ne_of_lt (hI.made a ha)
    exact ⟨Function.update_of_ne hne _ _, Function.update_of_ne hne _ _⟩
  | addAppender a =>
    simp only [step] at hs
    split at hs
    · cases hs
      exact effective_addAppender hI h a
    · cases hs
  | delAppender a =>
    cases hs
    exact iff_of_true (effective_of_same h (fun b hb => List.mem_of_mem_erase hb) rfl
      fun _ _ => ⟨rfl, rfl⟩) trivial
  | clearAppenders =>
    cases hs
    exact iff_of_true (effective_of_same h (fun b hb => absurd hb List.not_mem_nil) rfl
      fun _ _ => ⟨rfl, rfl⟩) trivial
  | setFormatter val =>
    cases hs
    exact effective_setFormatter hI h val
  | setPattern val =>
    cases hs
    rw [Logger.setPattern]
    cases he : (LogFormatter.mk val).isError with
    | true =>
      refine iff_of_true h fun hc => ?_
      rw [he] at hc
      cases hc
    | false =>
      rw [if_neg Bool.false_ne_true, effective_setFormatter hI h]
      exact ⟨fun hr _ => hr, fun hr => hr he⟩
  | setOwn a formatter =>
    simp only [step] at hs
    split at hs
    · cases hs
      exact effective_setOwn h a formatter
    · cases hs

/-! ### Runs -/

/-- **In a run of fine steps every attached appender formats as it is due**, and the first step that is
not fine ends that. -/
theorem effective_along {name : String} (h : Reach step Fine (State.init name) s) :
    Effective s ∧ ∀ l s', step s l = some s' → (Effective s' ↔ Fine s l) := by
  have heff : Effective s := by
    refine h.invariant' (I := Effective) (fun a ha => by cases ha) ?_
    intro s l s' hr hE hl hs
    exact (effective_step (Inv.reach hr) hE hs).mpr hl
  exact ⟨heff, fun l s' hs => effective_step (Inv.reach h) heff hs⟩

/-! ### Two runs -/

/-- An appender with its own formatter is attached, and the logger gets a new one. -/
def ownFirst : List Label :=
  [.make .stdout, .setOwn 0 (some ⟨"%m"⟩), .addAppender 0, .setPattern "%p%m"]

/-- An appender without a formatter is attached, and the logger gets a new one. -/
def ownNever : List Label := [.make .stdout, .addAppender 0, .setPattern "%p%m"]

theorem effective_along_own : ∃ s, s.logger.formatter = some ⟨"%p%m"⟩ ∧ Effective s := by
  obtain ⟨s, hr, hc⟩ := exists_of_runs (guarded step fun s l => decide (Fine s l))
    (State.init "root") ownFirst (fun s => decide (s.logger.formatter = some ⟨"%p%m"⟩))
    (by decide +kernel)
  obtain ⟨hreach, -⟩ := Reach.of_guarded (I := fun _ => True) .refl trivial
    (fun _ hp _ => ⟨of_decide_eq_true hp, trivial⟩) hr
  exact ⟨s, of_decide_eq_true hc, (effective_along hreach).1⟩

/-- The appender keeps the formatter that the logger had when it was attached. -/
theorem new_formatter_passes_over :
    ¬∀ s, Reach step (fun _ l => l ≠ .setFormatter none) (State.init "root") s → Effective s := by
  intro h
  obtain ⟨s, hr, hc⟩ := exists_of_runs step (State.init "root") ownNever
    (fun s => decide (0 ∈ s.logger.appenders ∧ s.own 0 = none ∧
      s.logger.formatter ≠ (s.logger.objects 0).formatter)) (by decide +kernel)
  obtain ⟨hmem, hown, hne⟩ := of_decide_eq_true hc
  have hreach := Reach.of_runs (p := fun l => l ≠ .setFormatter none) .refl (by decide) hr
  have hgood := (effective_iff.mp (h s hreach) 0 hmem).2
  rw [State.due, hown] at hgood
  exact hne hgood.symm

end LioNet.Log.Ownership
