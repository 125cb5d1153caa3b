import LioNet.Log.Lines

/-!
# One order for all appenders

The threads of `Lines` and the locks of the loggers.  A thread has the lock of a logger for its whole loop
over the appenders (`Locked`), so an event is with all appenders before the next one comes: what they get
are the events of the logger in the order of its lock (`Ordered`, `same_order`).

This holds of an appender list that is attached to one logger and stays as it is.  Another logger with
the same appender brings its events in between, and a level that is changed on the way lets others through.

A logger without appenders hands an event to its root, with its own lock still held: of all the loggers on
the way at most one takes the event (`taken_once`).
-/

namespace LioNet.Log.Lines

open LioNet.Lib

variable {E : Type}

/-! ### The locks of the loggers -/

section Locked

variable {level : E → Level} {text : LoggerId → E → FormatItem → List Char}
  {loggers : LoggerId → SharedLogger} {appenders : AppenderId → LogAppender}
  {streams : AppenderId → OFStream} {s s' : State E} {t : ThreadId} {ok : Bool}

/-- The loggers whose locks a thread has. -/
def Phase.held : Phase E → List LoggerId
  | .log held _ _ _ | .leave held => held
  | .each lg _ _ | .adopt lg _ | .adopting lg _ | .attach lg _ => [lg]
  | _ => []

/-- The thread is in the loop over the appenders. -/
def Stage.looping : Stage → Bool
  | .check | .lock => false
  | .loop _ | .due _ _ | .reopen _ _ | .stamp _ _ | .append _ _ | .write _ _ _ => true

/-- The loop of a logger is under its lock. -/
def Phase.Guarded : Phase E → Prop
  | .log held lg _ st => st.looping = true → lg ∈ held
  | _ => True

structure Locked (s : State E) : Prop where
  mutex : ∀ lg t, s.loggerMutex lg = some t ↔ lg ∈ (s.phase t).held
  nodup : ∀ t, (s.phase t).held.Nodup
  guarded : ∀ t, (s.phase t).Guarded

theorem locked_start : Locked (State.start (E := E) loggers appenders streams) where
  mutex _ _ := iff_of_false nofun nofun
  nodup _ := List.nodup_nil
  guarded _ := trivial

theorem Locked.of_loop (h : Locked s) {held : List LoggerId} {lg : LoggerId} {event : E} {st : Stage}
    (hp : s.phase t = .log held lg event st) (hst : st.looping = true) : lg ∈ held := by
  have hg := h.guarded t
  rw [hp] at hg
  exact hg hst

/-- What holds of the phases of all threads is kept by a step that is checked for its own thread. -/
theorem forall_phase {P : Phase E → Prop} {p : Phase E} (h : ∀ u, P (s.phase u)) (hp : P p)
    (hphase : s'.phase = Function.update s.phase t p) (u : ThreadId) : P (s'.phase u) := by
  rw [hphase]
  by_cases hu : u = t
  · rw [hu, Function.update_self]
    exact hp
  · rw [Function.update_of_ne hu]
    exact h u

/-- A thread goes on with the same locks. -/
theorem Locked.keep (h : Locked s) {p : Phase E} (hp : s'.phase = Function.update s.phase t p)
    (hm : s'.loggerMutex = s.loggerMutex) (hheld : p.held = (s.phase t).held) (hg : p.Guarded) :
    Locked s' := by
  refine ⟨fun lg u => ?_, ?_, ?_⟩
  · rw [hm, h.mutex, hp]
    by_cases hu : u = t
    · rw [hu, Function.update_self, hheld]
    · rw [Function.update_of_ne hu]
  · refine forall_phase (P := fun p => p.held.Nodup) h.nodup ?_ hp
    rw [hheld]
    exact h.nodup t
  · exact forall_phase h.guarded hg hp

/-- A thread takes a lock. -/
theorem Locked.lock (h : Locked s) {lg : LoggerId} {p : Phase E}
    (hp : s'.phase = Function.update s.phase t p) (hfree : s.loggerMutex lg = none)
    (hm : s'.loggerMutex = Function.update s.loggerMutex lg (some t))
    (hheld : p.held = lg :: (s.phase t).held) (hg : p.Guarded) : Locked s' := by
  have hout : ∀ u, lg ∉ (s.phase u).held := fun u hu => by
    rw [← h.mutex, hfree] at hu
    cases hu
  refine ⟨fun b u => ?_, ?_, ?_⟩
  · rw [hm, hp]
    by_cases hb : b = lg
    · rw [hb, Function.update_self, Option.some_inj]
      by_cases hu : u = t
      · rw [hu, Function.update_self, hheld]
        exact iff_of_true rfl List.mem_cons_self
      · rw [Function.update_of_ne hu]
        exact iff_of_false (Ne.symm hu) (hout u)
    · rw [Function.update_of_ne hb, h.mutex]
      by_cases hu : u = t
      · rw [hu, Function.update_self, hheld, List.mem_cons, or_iff_right hb]
      · rw [Function.update_of_ne hu]
  · refine forall_phase (P := fun p => p.held.Nodup) h.nodup ?_ hp
    rw [hheld]
    exact List.nodup_cons.mpr ⟨hout t, h.nodup t⟩
  · exact forall_phase h.guarded hg hp

/-- A thread gives a lock back. -/
theorem Locked.unlock (h : Locked s) {lg : LoggerId} {held : List LoggerId}
    (hp : s.phase t = .leave (lg :: held)) :
    Locked ((s.setLoggerMutex lg none).goto t (.leave held)) := by
  have hnodup := h.nodup t
  rw [hp] at hnodup
  obtain ⟨hlg, hheld⟩ := List.nodup_cons.mp hnodup
  have hholder : s.loggerMutex lg = some t := by
    rw [h.mutex, hp]
    exact List.mem_cons_self
  refine ⟨fun b u => ?_, ?_, ?_⟩
  · show Function.update s.loggerMutex lg none b = some u ↔ b ∈ (Function.update s.phase t _ u).held
    by_cases hb : b = lg
    · rw [hb, Function.update_self]
      refine iff_of_false nofun fun hu => ?_
      by_cases hut : u = t
      · rw [hut, Function.update_self] at hu
        exact hlg hu
      · rw [Function.update_of_ne hut, ← h.mutex, hholder] at hu
        exact hut (Option.some.inj hu).symm
    · rw [Function.update_of_ne hb, h.mutex]
      by_cases hut : u = t
      · rw [hut, Function.update_self, hp]
        show b ∈ lg :: held ↔ b ∈ held
        rw [List.mem_cons, or_iff_right hb]
      · rw [Function.update_of_ne hut]
  · exact forall_phase (P := fun p => p.held.Nodup) (p := .leave held) h.nodup hheld rfl
  · exact forall_phase (p := .leave held) h.guarded trivial rfl

theorem Locked.move (h : Locked s) (hm : Moved level text s t ok s') : Locked s' := by
  cases hm with
  | enterRoot hp hfree => exact h.lock rfl hfree rfl (by rw [hp]; rfl) nofun
  | enter hp hfree => exact h.lock rfl hfree rfl (by rw [hp]; rfl) fun _ => List.mem_cons_self
  | setFormatter hp hfree | addAppender hp hfree =>
    exact h.lock rfl hfree rfl (by rw [hp]; rfl) trivial
  | unlock hp => exact h.unlock hp
  | pass hp => exact h.keep rfl rfl (by rw [hp]; rfl) nofun
  | take hp | skip hp | due hp | stamp _ hp | beginLine hp | endLine hp =>
    exact h.keep rfl rfl (by rw [hp]; rfl) fun _ => h.of_loop hp rfl
  | @reopen _ _ _ a _ opens hp =>
    have hsame := untouched_reopen s a opens
    exact h.keep (congrArg (Function.update · t _) hsame.phase) hsame.loggerMutex (by rw [hp]; rfl)
      fun _ => h.of_loop hp rfl
  | @put _ lg event a _ item _ hp =>
    have hsame := untouched_put s a (text lg event item) ok
    exact h.keep (congrArg (Function.update · t _) hsame.phase) hsame.loggerMutex (by rw [hp]; rfl)
      fun _ => h.of_loop hp rfl
  | refuse hp | done hp | finish hp | eachDone hp | each hp | adopting hp | attach hp | own hp =>
    exact h.keep rfl rfl (by rw [hp]; rfl) trivial
  | adopt hp hfree hnext =>
    rcases hnext with rfl | rfl <;> exact h.keep rfl rfl (by rw [hp]; rfl) trivial
  | edit hp => rcases hp with ⟨a, hp⟩ | hp <;> exact h.keep rfl rfl (by rw [hp]; rfl) trivial

theorem Locked.call (h : Locked s) (hp : s.phase t = .idle) (op : Op E) : Locked (s.call t op) := by
  have hidle : Function.update s.phase t .idle = s.phase := Function.update_eq_self_iff.mpr hp.symm
  cases op with
  | log => exact h.keep rfl rfl (by rw [hp]; rfl) nofun
  | setFormatter | addAppender | delAppender | clearAppenders | appenderSetFormatter =>
    exact h.keep rfl rfl (by rw [hp]; rfl) trivial
  | setLevel | appenderSetLevel =>
    exact h.keep (t := t) (p := .idle) hidle.symm rfl (by rw [hp]) trivial

end Locked

/-! ### One order -/

section Order

/-- The appenders that the loop has not left behind. -/
def Stage.visits : Stage → List AppenderId
  | .check | .lock => []
  | .loop rest => rest
  | .due a rest | .reopen a rest | .stamp a rest | .append a rest | .write a rest _ => a :: rest

/-- The appenders that the event may still go to. -/
def Stage.todo : Stage → List AppenderId
  | .check | .lock => []
  | .loop rest | .write _ rest _ => rest
  | .due a rest | .reopen a rest | .stamp a rest | .append a rest => a :: rest

/-- The appender that took the event and has still to get it. -/
def Stage.chosen : Stage → Option AppenderId
  | .check | .lock | .loop _ | .write _ _ _ => none
  | .due a _ | .reopen a _ | .stamp a _ | .append a _ => some a

/-- The operation leaves `as` attached to the logger `lg` and nowhere else, at their levels. -/
def Op.Leaves (lg : LoggerId) (as : List AppenderId) : Op E → Prop
  | .addAppender lg' a => lg' ≠ lg ∧ a ∉ as
  | .delAppender lg' _ | .clearAppenders lg' => lg' ≠ lg
  | .appenderSetLevel a _ => a ∉ as
  | _ => True

def Label.Leaves (lg : LoggerId) (as : List AppenderId) : Label E → Prop
  | .call _ op => op.Leaves lg as
  | .move _ _ _ => True

instance (lg : LoggerId) (as : List AppenderId) : (l : Label E) → Decidable (l.Leaves lg as)
  | .call _ (.addAppender lg' a) => inferInstanceAs (Decidable (lg' ≠ lg ∧ a ∉ as))
  | .call _ (.delAppender lg' _) | .call _ (.clearAppenders lg') =>
    inferInstanceAs (Decidable (lg' ≠ lg))
  | .call _ (.appenderSetLevel a _) => inferInstanceAs (Decidable (a ∉ as))
  | .call _ (.log _ _) | .call _ (.setLevel _ _) | .call _ (.setFormatter _ _)
    | .call _ (.appenderSetFormatter _ _) | .move _ _ _ => inferInstanceAs (Decidable True)

/-- An appender takes the event. -/
def passes (level : E → Level) (ap : LogAppender) (event : E) : Bool :=
  decide (ap.level.toNat ≤ (level event).toNat)

variable (level : E → Level) (appenders : AppenderId → LogAppender) (lg : LoggerId)
  (as : List AppenderId)

/-- A loop is over the appenders of its own logger, and only what passed is appended. -/
def Stage.Within (lg' : LoggerId) (event : E) (st : Stage) : Prop :=
  (lg' = lg → st.visits <:+ as) ∧ (lg' ≠ lg → ∀ a ∈ st.visits, a ∉ as) ∧
    ∀ a ∈ as, st.chosen = some a → passes level (appenders a) event = true

/-- What a thread is about to do leaves `as` attached to `lg` and nowhere else. -/
def Phase.Within : Phase E → Prop
  | .log _ lg' event st => st.Within level appenders lg as lg' event
  | .addAppender lg' a | .adopt lg' a | .adopting lg' a | .attach lg' a => lg' ≠ lg ∧ a ∉ as
  | .delAppender lg' _ | .clearAppenders lg' => lg' ≠ lg
  | _ => True

/-- The event of a thread that an appender of `lg` has still to get. -/
def Phase.pending (a : AppenderId) : Phase E → List E
  | .log _ lg' event st =>
    if lg' = lg ∧ a ∈ st.todo then [event].filter (passes level (appenders a)) else []
  | _ => []

/-- The event that is under way to an appender of `lg`. -/
def State.pending (s : State E) (a : AppenderId) : List E :=
  ((s.loggerMutex lg).map fun t => (s.phase t).pending level appenders lg a).getD []

structure Ordered (s : State E) : Prop where
  list : (s.loggers lg).appenders = as
  elsewhere : ∀ lg', lg' ≠ lg → ∀ a ∈ as, a ∉ (s.loggers lg').appenders
  levels : ∀ a ∈ as, (s.appenders a).level = (appenders a).level
  phases : ∀ t, (s.phase t).Within level appenders lg as
  order : ∀ a ∈ as, (s.lines a).map Line.event ++ s.pending level appenders lg a =
    (s.taken lg).filter (passes level (appenders a))

variable {level appenders lg as} {time : E → BitVec 64} {text : LoggerId → E → FormatItem → List Char}
  {loggers : LoggerId → SharedLogger} {streams : AppenderId → OFStream} {s s' : State E}
  {t : ThreadId} {ok : Bool}

theorem pending_of_free {a : AppenderId} (h : s.loggerMutex lg = none) :
    s.pending level appenders lg a = [] := by
  rw [State.pending, h]
  rfl

theorem pending_of_held {a : AppenderId} (h : s.loggerMutex lg = some t) :
    s.pending level appenders lg a = (s.phase t).pending level appenders lg a := by
  rw [State.pending, h]
  rfl

theorem length_pending {a : AppenderId} (p : Phase E) :
    (p.pending level appenders lg a).length ≤ 1 := by
  unfold Phase.pending
  split
  · split
    · exact List.length_filter_le _ _
    · exact Nat.zero_le _
  · exact Nat.zero_le _

/-- Only the thread with the lock of the logger has an event for its appenders. -/
theorem Locked.of_pending (h : Locked s) {a : AppenderId}
    (hp : (s.phase t).pending level appenders lg a ≠ []) : s.loggerMutex lg = some t := by
  rw [h.mutex]
  cases hphase : s.phase t with
  | log held lg' event st =>
    rw [hphase, Phase.pending] at hp
    split at hp
    · rename_i hin
      obtain ⟨rfl, htodo⟩ := hin
      refine h.of_loop hphase ?_
      cases st with
      | check | lock => cases htodo
      | loop | due | reopen | stamp | append | write => rfl
    · exact absurd rfl hp
  | _ =>
    rw [hphase] at hp
    exact absurd rfl hp

/-- What is under way depends on the threads alone. -/
theorem pending_congr (h : Locked s) (h' : Locked s') {a : AppenderId}
    (hp : ∀ u, (s'.phase u).pending level appenders lg a = (s.phase u).pending level appenders lg a) :
    s'.pending level appenders lg a = s.pending level appenders lg a := by
  have hone : ∀ {r r' : State E}, Locked r → Locked r' →
      (∀ u, (r'.phase u).pending level appenders lg a = (r.phase u).pending level appenders lg a) →
      r.pending level appenders lg a ≠ [] →
      r'.pending level appenders lg a = r.pending level appenders lg a := by
    intro r r' hr hr' heq hne
    cases hm : r.loggerMutex lg with
    | none => exact absurd (pending_of_free hm) hne
    | some u =>
      rw [pending_of_held hm] at hne ⊢
      rw [← heq u] at hne ⊢
      exact pending_of_held (hr'.of_pending hne)
  by_cases hne : s.pending level appenders lg a = []
  · by_cases hne' : s'.pending level appenders lg a = []
    · rw [hne, hne']
    · exact (hone h' h (fun u => (hp u).symm) hne').symm
  · exact hone h h' hp hne

theorem pending_log_congr {held held' : List LoggerId} {lg' : LoggerId} {event : E} {st st' : Stage}
    {a : AppenderId} (h : a ∈ st'.todo ↔ a ∈ st.todo) :
    (Phase.log held' lg' event st').pending level appenders lg a =
      (Phase.log held lg' event st).pending level appenders lg a := by
  simp only [Phase.pending, h]

theorem ordered_start (hlist : (loggers lg).appenders = as)
    (helse : ∀ lg', lg' ≠ lg → ∀ a ∈ as, a ∉ (loggers lg').appenders) :
    Ordered level appenders lg as (State.start loggers appenders streams) where
  list := hlist
  elsewhere := helse
  levels _ _ := rfl
  phases _ := trivial
  order _ _ := rfl

/-- A step that begins no line at the appenders of the logger and takes no event of it. -/
theorem Ordered.frame (h : Ordered level appenders lg as s) (hl : Locked s) (hl' : Locked s')
    {p : Phase E} (hp : s'.phase = Function.update s.phase t p)
    (hpending : ∀ a, p.pending level appenders lg a = (s.phase t).pending level appenders lg a)
    (hwithin : p.Within level appenders lg as)
    (hlist : (s'.loggers lg).appenders = (s.loggers lg).appenders)
    (helse : ∀ lg', lg' ≠ lg → ∀ a ∈ as, a ∈ (s'.loggers lg').appenders →
      a ∈ (s.loggers lg').appenders)
    (hlevels : ∀ a ∈ as, (s'.appenders a).level = (s.appenders a).level)
    (hlines : ∀ a ∈ as, s'.lines a = s.lines a) (htaken : s'.taken lg = s.taken lg) :
    Ordered level appenders lg as s' where
  list := hlist.trans h.list
  elsewhere lg' hne a ha hmem := h.elsewhere lg' hne a ha (helse lg' hne a ha hmem)
  levels a ha := (hlevels a ha).trans (h.levels a ha)
  phases := forall_phase h.phases hwithin hp
  order a ha := by
    have hsame : ∀ u, (s'.phase u).pending level appenders lg a =
        (s.phase u).pending level appenders lg a := by
      intro u
      rw [hp]
      by_cases hu : u = t
      · rw [hu, Function.update_self, hpending]
      · rw [Function.update_of_ne hu]
    rw [hlines a ha, htaken, pending_congr hl hl' hsame]
    exact h.order a ha

/-- A step of `Logger::log` that begins no line and takes no event of the logger. -/
theorem Ordered.go (h : Ordered level appenders lg as s) (hl : Locked s) (hl' : Locked s')
    {held held' : List LoggerId} {lg' : LoggerId} {event : E} {st st' : Stage}
    (hp : s.phase t = .log held lg' event st)
    (hp' : s'.phase = Function.update s.phase t (.log held' lg' event st'))
    (hpending : ∀ a, lg' = lg →
      (a ∈ st'.todo ↔ a ∈ st.todo) ∨ passes level (appenders a) event = false)
    (hwithin : st'.Within level appenders lg as lg' event) (hloggers : s'.loggers = s.loggers)
    (happenders : s'.appenders = s.appenders) (hlines : ∀ a ∈ as, s'.lines a = s.lines a)
    (htaken : s'.taken lg = s.taken lg) : Ordered level appenders lg as s' := by
  refine h.frame hl hl' hp' (fun a => ?_) hwithin (by rw [hloggers])
    (fun _ _ _ _ hmem => by rwa [hloggers] at hmem) (fun _ _ => by rw [happenders]) hlines htaken
  rw [hp]
  by_cases hlg : lg' = lg
  · rcases hpending a hlg with htodo | hpass
    · exact pending_log_congr htodo
    · simp only [Phase.pending, List.filter_singleton, hpass, Bool.cond_false, ite_self]
  · simp only [Phase.pending, hlg, false_and, if_false]

theorem Ordered.within (h : Ordered level appenders lg as s) {held : List LoggerId} {lg' : LoggerId}
    {event : E} {st : Stage} (hp : s.phase t = .log held lg' event st) :
    st.Within level appenders lg as lg' event := by
  have hw := h.phases t
  rw [hp] at hw
  exact hw

/-- A loop that goes on with less. -/
theorem Stage.Within.narrow {lg' : LoggerId} {event : E} {st st' : Stage}
    (h : st.Within level appenders lg as lg' event) (hsuffix : st'.visits <:+ st.visits)
    (hpass : ∀ a ∈ as, st'.chosen = some a → passes level (appenders a) event = true) :
    st'.Within level appenders lg as lg' event :=
  ⟨fun hlg => hsuffix.trans (h.1 hlg), fun hlg a ha => h.2.1 hlg a (hsuffix.subset ha), hpass⟩

theorem within_nil {lg' : LoggerId} {event : E} {st : Stage} (hst : st = .check ∨ st = .lock) :
    st.Within level appenders lg as lg' event := by
  rcases hst with rfl | rfl <;>
    exact ⟨fun _ => List.nil_suffix, fun _ _ ha => absurd ha List.not_mem_nil, nofun⟩

/-- A thread begins its loop. -/
theorem Ordered.enter (h : Ordered level appenders lg as s) (hl : Locked s) {held : List LoggerId}
    {lg' : LoggerId} {event : E} (hp : s.phase t = .log held lg' event .lock)
    (hfree : s.loggerMutex lg' = none) :
    Ordered level appenders lg as
      ((({ s with taken := Function.update s.taken lg' (s.taken lg' ++ [event]) } :
        State E).setLoggerMutex lg' (some t)).goto t
          (.log (lg' :: held) lg' event (.loop (s.loggers lg').appenders))) := by
  have hwithin : Phase.Within level appenders lg as
      (.log (lg' :: held) lg' event (.loop (s.loggers lg').appenders)) := by
    refine ⟨fun hlg => ?_, fun hlg a ha has => h.elsewhere lg' hlg a has ha, nofun⟩
    rw [hlg]
    exact h.list ▸ List.suffix_refl _
  by_cases hlg : lg' = lg
  · subst hlg
    refine ⟨h.list, h.elsewhere, h.levels, forall_phase h.phases hwithin rfl, fun a ha => ?_⟩
    have horder := h.order a ha
    rw [pending_of_free hfree, List.append_nil] at horder
    rw [pending_of_held (t := t) (Function.update_self ..)]
    show (s.lines a).map Line.event ++ (Function.update s.phase t _ t).pending level appenders lg' a =
      (Function.update s.taken lg' _ lg').filter _
    rw [Function.update_self, Function.update_self, List.filter_append, ← horder, Phase.pending,
      if_pos ⟨rfl, h.list.symm ▸ ha⟩]
  · refine h.go hl ?_ hp rfl (fun _ he => absurd he hlg) hwithin rfl rfl (fun _ _ => rfl)
      (Function.update_of_ne (Ne.symm hlg) ..)
    exact hl.lock rfl hfree rfl (by rw [hp]; rfl) fun _ => List.mem_cons_self

/-- A thread begins a line. -/
theorem Ordered.beginLine (h : Ordered level appenders lg as s) (hnodup : as.Nodup) (hl : Locked s)
    {held : List LoggerId} {lg' : LoggerId} {event : E} {a : AppenderId} {rest : List AppenderId}
    {f : LogFormatter} (hp : s.phase t = .log held lg' event (.append a rest)) :
    Ordered level appenders lg as (({ s.setAppenderMutex a (some t) with
      lines := Function.update s.lines a (s.lines a ++ [⟨f, lg', event, s.good a⟩]) } : State E).goto t
        (.log held lg' event (.write a rest f.items))) := by
  have hw := h.within hp
  have hwithin : Phase.Within level appenders lg as (.log held lg' event (.write a rest f.items)) :=
    hw.narrow (List.suffix_refl _) nofun
  by_cases hlg : lg' = lg
  · subst hlg
    obtain ⟨hnot, -⟩ := List.nodup_cons.mp ((hw.1 rfl).sublist.nodup hnodup)
    have hheld : s.loggerMutex lg' = some t := by
      rw [hl.mutex, hp]
      exact hl.of_loop hp rfl
    refine ⟨h.list, h.elsewhere, h.levels, forall_phase h.phases hwithin rfl, fun b hb => ?_⟩
    have horder := h.order b hb
    rw [pending_of_held hheld, hp] at horder
    show (Function.update s.lines a _ b).map Line.event ++
      ((s.loggerMutex lg').map fun u =>
        (Function.update s.phase t _ u).pending level appenders lg' b).getD [] = _
    rw [hheld, Option.map_some, Option.getD_some, Function.update_self]
    by_cases hba : b = a
    · subst hba
      -- the event moves from the ledger of the logger to the one of the appender
      rw [Function.update_self, List.map_append, Phase.pending, if_neg fun hin => hnot hin.2,
        List.append_nil]
      rw [Phase.pending, if_pos ⟨rfl, List.mem_cons_self⟩, List.filter_singleton,
        hw.2.2 b hb rfl] at horder
      exact horder
    · have htodo : b ∈ (Stage.write a rest f.items).todo ↔ b ∈ (Stage.append a rest).todo := by
        show b ∈ rest ↔ b ∈ a :: rest
        rw [List.mem_cons, or_iff_right hba]
      rw [Function.update_of_ne hba, pending_log_congr htodo]
      exact horder
  · refine h.go hl ?_ hp rfl (fun _ he => absurd he hlg) hwithin rfl rfl (fun b hb => ?_) rfl
    · exact hl.keep rfl rfl (by rw [hp]; rfl) fun _ => hl.of_loop hp rfl
    · have hba : b ≠ a := by
        rintro rfl
        exact hw.2.1 hlg b List.mem_cons_self hb
      exact Function.update_of_ne hba ..

/-- A change to a logger that keeps its list. -/
theorem appenders_setLogger {lg : LoggerId} {L : SharedLogger}
    (hL : L.appenders = (s.loggers lg).appenders) (b : LoggerId) :
    ((s.setLogger lg L).loggers b).appenders = (s.loggers b).appenders := by
  show (Function.update s.loggers lg L b).appenders = _
  by_cases hb : b = lg
  · rw [hb, Function.update_self, hL]
  · rw [Function.update_of_ne hb]

/-- An access to an appender keeps its level. -/
theorem level_setAppender {a : AppenderId} {ap : LogAppender} (hap : ap.level = (s.appenders a).level)
    (b : AppenderId) : ((s.setAppender a ap).appenders b).level = (s.appenders b).level := by
  show (Function.update s.appenders a ap b).level = _
  by_cases hb : b = a
  · rw [hb, Function.update_self, hap]
  · rw [Function.update_of_ne hb]

theorem Ordered.move (h : Ordered level appenders lg as s) (hnodup : as.Nodup) (hl : Locked s)
    (hm : Moved level text s t ok s') : Ordered level appenders lg as s' := by
  have hl' := hl.move hm
  have hwt := h.phases t
  cases hm with
  | enter hp hfree => exact h.enter hl hp hfree
  | beginLine hp => exact h.beginLine hnodup hl hp
  | pass hp =>
    exact h.go hl hl' hp rfl (fun _ _ => .inl Iff.rfl) (within_nil (.inr rfl)) rfl rfl
      (fun _ _ => rfl) rfl
  | @take held lg' event a rest hp hpass =>
    have hsink : (Stage.ofSink a rest (s.appenders a).sink).visits = a :: rest ∧
        (Stage.ofSink a rest (s.appenders a).sink).todo = a :: rest ∧
        (Stage.ofSink a rest (s.appenders a).sink).chosen = some a := by
      unfold Stage.ofSink
      split <;> exact ⟨rfl, rfl, rfl⟩
    obtain ⟨hvisits, htodo, hchosen⟩ := hsink
    refine h.go hl hl' hp rfl (fun b _ => .inl (by rw [htodo]; rfl))
      ((h.within hp).narrow (hvisits ▸ List.suffix_refl _) fun b hb hb' => ?_) rfl rfl (fun _ _ => rfl) rfl
    obtain rfl := Option.some.inj (hchosen.symm.trans hb')
    rw [h.levels a hb] at hpass
    exact decide_eq_true hpass
  | due hp hnext =>
    have hw := h.within hp
    rcases hnext with rfl | rfl <;>
      exact h.go hl hl' hp rfl (fun _ _ => .inl Iff.rfl) (hw.narrow (List.suffix_refl _) hw.2.2)
        rfl rfl (fun _ _ => rfl) rfl
  | @reopen _ _ _ a _ opens hp =>
    have hw := h.within hp
    have hsame := untouched_reopen s a opens
    exact h.go hl hl' hp (congrArg (Function.update · t _) hsame.phase) (fun _ _ => .inl Iff.rfl)
      (hw.narrow (List.suffix_refl _) hw.2.2) hsame.loggers hsame.appenders
      (fun b _ => congrFun hsame.lines b) (congrFun hsame.taken lg)
  | stamp _ hp =>
    have hw := h.within hp
    exact h.go hl hl' hp rfl (fun _ _ => .inl Iff.rfl) (hw.narrow (List.suffix_refl _) hw.2.2)
      rfl rfl (fun _ _ => rfl) rfl
  | @skip held lg' event a rest hp hfail =>
    refine h.go hl hl' hp rfl (fun b hlg => ?_) ((h.within hp).narrow (List.suffix_cons a rest) nofun)
      rfl rfl (fun _ _ => rfl) rfl
    by_cases hba : b = a
    · subst hba
      have hb : b ∈ as := ((h.within hp).1 hlg).subset List.mem_cons_self
      rw [h.levels b hb] at hfail
      exact .inr (decide_eq_false hfail)
    · refine .inl ?_
      show b ∈ rest ↔ b ∈ a :: rest
      rw [List.mem_cons, or_iff_right hba]
  | @put _ lg' event a _ item _ hp =>
    have hsame := untouched_put s a (text lg' event item) ok
    exact h.go hl hl' hp (congrArg (Function.update · t _) hsame.phase) (fun _ _ => .inl Iff.rfl)
      ((h.within hp).narrow (List.suffix_refl _) nofun) hsame.loggers hsame.appenders
      (fun b _ => congrFun hsame.lines b) (congrFun hsame.taken lg)
  | @endLine held lg' event a rest hp =>
    exact h.go hl hl' hp rfl (fun _ _ => .inl Iff.rfl)
      ((h.within hp).narrow (List.suffix_cons a rest) nofun) rfl rfl (fun _ _ => rfl) rfl
  | enterRoot hp hfree hnil =>
    refine h.frame hl hl' rfl (fun a => ?_) (within_nil (.inl rfl)) rfl (fun _ _ _ _ hmem => hmem)
      (fun _ _ => rfl) (fun _ _ => rfl) rfl
    rw [hp, Phase.pending, Phase.pending, if_neg (fun hin => List.not_mem_nil hin.2),
      if_neg (fun hin => List.not_mem_nil hin.2)]
  | refuse hp | done hp =>
    refine h.frame hl hl' rfl (fun a => ?_) trivial rfl (fun _ _ _ _ hmem => hmem)
      (fun _ _ => rfl) (fun _ _ => rfl) rfl
    rw [hp, Phase.pending, Phase.pending, if_neg (fun hin => List.not_mem_nil hin.2)]
    exact nofun
  | finish hp | unlock hp | eachDone hp =>
    exact h.frame hl hl' rfl (fun a => by rw [hp]; rfl) trivial rfl (fun _ _ _ _ hmem => hmem)
      (fun _ _ => rfl) (fun _ _ => rfl) rfl
  | @setFormatter lg' val hp =>
    have happenders := appenders_setLogger (s := s)
      (L := { s.loggers lg' with formatter := val }) rfl
    exact h.frame hl hl' rfl (fun a => by rw [hp]; rfl) trivial (happenders lg)
      (fun b _ a _ hmem => happenders b ▸ hmem) (fun _ _ => rfl) (fun _ _ => rfl) rfl
  | @each lg' val a rest hp =>
    refine h.frame hl hl' rfl (fun a => by rw [hp]; rfl) trivial rfl (fun _ _ _ _ hmem => hmem)
      (fun b _ => level_setAppender ?_ b) (fun _ _ => rfl) rfl
    unfold Logger.follow
    split <;> rfl
  | addAppender hp =>
    rw [hp] at hwt
    exact h.frame hl hl' rfl (fun a => by rw [hp]; rfl) hwt rfl (fun _ _ _ _ hmem => hmem)
      (fun _ _ => rfl) (fun _ _ => rfl) rfl
  | adopt hp hfree hnext =>
    rw [hp] at hwt
    rcases hnext with rfl | rfl <;>
      exact h.frame hl hl' rfl (fun a => by rw [hp]; rfl) hwt rfl (fun _ _ _ _ hmem => hmem)
        (fun b _ => level_setAppender rfl b) (fun _ _ => rfl) rfl
  | adopting hp =>
    rw [hp] at hwt
    refine h.frame hl hl' rfl (fun a => by rw [hp]; rfl) hwt rfl (fun _ _ _ _ hmem => hmem)
      (fun b _ => level_setAppender ?_ b) (fun _ _ => rfl) rfl
    rfl
  | @attach lg' a hp =>
    rw [hp] at hwt
    obtain ⟨hlg, hnot⟩ := hwt
    refine h.frame hl hl' rfl (fun a => by rw [hp]; rfl) trivial
      (congrArg SharedLogger.appenders (Function.update_of_ne (Ne.symm hlg) ..))
      (fun b _ c hc hmem => ?_) (fun _ _ => rfl) (fun _ _ => rfl) rfl
    change c ∈ (Function.update s.loggers lg' _ b).appenders at hmem
    by_cases hb : b = lg'
    · subst hb
      rw [Function.update_self] at hmem
      rcases List.mem_append.mp hmem with hmem | hmem
      · exact hmem
      · exact absurd (List.mem_singleton.mp hmem ▸ hc) hnot
    · rwa [Function.update_of_ne hb] at hmem
  | @edit lg' cs hp hfree hsub =>
    have hlg : lg' ≠ lg := by
      rcases hp with ⟨a, hp⟩ | hp <;> rw [hp] at hwt <;> exact hwt
    refine h.frame hl hl' rfl (fun a => ?_) trivial
      (congrArg SharedLogger.appenders (Function.update_of_ne (Ne.symm hlg) ..))
      (fun b _ c _ hmem => ?_) (fun _ _ => rfl) (fun _ _ => rfl) rfl
    · rcases hp with ⟨b, hp⟩ | hp <;> rw [hp] <;> rfl
    · change c ∈ (Function.update s.loggers lg' _ b).appenders at hmem
      by_cases hb : b = lg'
      · subst hb
        rw [Function.update_self] at hmem
        exact hsub.subset hmem
      · rwa [Function.update_of_ne hb] at hmem
  | own hp =>
    refine h.frame hl hl' rfl (fun a => by rw [hp]; rfl) trivial rfl (fun _ _ _ _ hmem => hmem)
      (fun b _ => level_setAppender ?_ b) (fun _ _ => rfl) rfl
    rfl

theorem Ordered.call (h : Ordered level appenders lg as s) (hl : Locked s) (hp : s.phase t = .idle)
    {op : Op E} (hop : op.Leaves lg as) : Ordered level appenders lg as (s.call t op) := by
  have hidle : Function.update s.phase t .idle = s.phase := Function.update_eq_self_iff.mpr hp.symm
  have hl' := hl.call hp op
  cases op with
  | log lg' event =>
    refine h.frame hl hl' rfl (fun a => ?_) (within_nil (.inl rfl)) rfl (fun _ _ _ _ hmem => hmem)
      (fun _ _ => rfl) (fun _ _ => rfl) rfl
    rw [hp, Phase.pending, if_neg (fun hin => List.not_mem_nil hin.2)]
    rfl
  | setFormatter | appenderSetFormatter =>
    exact h.frame hl hl' rfl (fun a => by rw [hp]; rfl) trivial rfl (fun _ _ _ _ hmem => hmem)
      (fun _ _ => rfl) (fun _ _ => rfl) rfl
  | addAppender | delAppender | clearAppenders =>
    exact h.frame hl hl' rfl (fun a => by rw [hp]; rfl) hop rfl (fun _ _ _ _ hmem => hmem)
      (fun _ _ => rfl) (fun _ _ => rfl) rfl
  | setLevel lg' newLevel =>
    have happenders := appenders_setLogger (s := s)
      (L := { s.loggers lg' with level := newLevel }) rfl
    exact h.frame (t := t) (p := .idle) hl hl' hidle.symm (fun a => by rw [hp]) trivial (happenders lg)
      (fun b _ a _ hmem => happenders b ▸ hmem) (fun _ _ => rfl) (fun _ _ => rfl) rfl
  | appenderSetLevel a newLevel =>
    refine h.frame (t := t) (p := .idle) hl hl' hidle.symm (fun a => by rw [hp]) trivial rfl
      (fun _ _ _ _ hmem => hmem) (fun b hb => ?_) (fun _ _ => rfl) rfl
    have hba : b ≠ a := by
      rintro rfl
      exact hop hb
    exact congrArg LogAppender.level (Function.update_of_ne hba ..)

theorem Ordered.reach (hnodup : as.Nodup) (hlist : (loggers lg).appenders = as)
    (helse : ∀ lg', lg' ≠ lg → ∀ a ∈ as, a ∉ (loggers lg').appenders)
    (h : Reach (step level time text) (fun _ l => l.Leaves lg as) (State.start loggers appenders streams) s) :
    Locked s ∧ Ordered level appenders lg as s := by
  refine h.invariant (I := fun s => Locked s ∧ Ordered level appenders lg as s)
    ⟨locked_start, ordered_start hlist helse⟩ ?_
  intro s l s' hI hleaves hs
  obtain ⟨hl, ho⟩ := hI
  cases l with
  | call t op =>
    obtain ⟨hp, rfl⟩ := call_cases hs
    exact ⟨hl.call hp op, ho.call hl hp hleaves⟩
  | move t =>
    have hm := moved_of_move hs
    exact ⟨hl.move hm, ho.move hnodup hl hm⟩

/-- **One order for all.**  While nobody attaches or detaches appenders of a logger or changes their
levels, each of them has got, in the order in which the logger took its events, those that its level
lets through, each of them once; only the one that the logger is at may still be missing. -/
theorem same_order (hnodup : as.Nodup) (hlist : (loggers lg).appenders = as)
    (helse : ∀ lg', lg' ≠ lg → ∀ a ∈ as, a ∉ (loggers lg').appenders)
    (h : Reach (step level time text) (fun _ l => l.Leaves lg as) (State.start loggers appenders streams) s)
    {a : AppenderId} (ha : a ∈ as) :
    ∃ rest, (s.lines a).map Line.event ++ rest =
        (s.taken lg).filter (passes level (appenders a)) ∧
      rest.length ≤ 1 ∧ (s.loggerMutex lg = none → rest = []) := by
  obtain ⟨hl, ho⟩ := Ordered.reach hnodup hlist helse h
  refine ⟨_, ho.order a ha, ?_, pending_of_free⟩
  cases hm : s.loggerMutex lg with
  | none =>
    rw [pending_of_free hm]
    exact Nat.zero_le _
  | some t =>
    rw [pending_of_held hm]
    exact length_pending _

end Order

/-- The second event is with the first appender, and the second appender has still to get it. -/
example : ∃ s, runs plainStep (State.start twoFiles files fun _ => {})
      changedBetween = some s ∧ s.lines 1 = [] ∧ s.taken 0 = [(.info, "a"), (.error, "b")] ∧
    ∃ rest, (s.lines 1).map Line.event ++ rest =
        (s.taken 0).filter (passes Prod.fst (files 1)) ∧
      rest.length ≤ 1 ∧ (s.loggerMutex 0 = none → rest = []) := by
  obtain ⟨s, hr, hc⟩ := exists_of_runs plainStep (State.start twoFiles files fun _ => {})
    changedBetween (fun s => s.lines 1 = [] ∧ s.taken 0 = [(.info, "a"), (.error, "b")])
    (by decide +kernel)
  obtain ⟨hlines, htaken⟩ := of_decide_eq_true hc
  have hreach : Reach plainStep (fun _ l => l.Leaves 0 [0, 1]) (State.start twoFiles files fun _ => {}) s :=
    .of_runs .refl (p := fun l => l.Leaves 0 [0, 1]) (by decide) hr
  have hnodup : [0, 1].Nodup := by decide
  have hmem : (1 : AppenderId) ∈ [0, 1] := by decide
  refine ⟨s, hr, hlines, htaken, same_order hnodup rfl (fun lg hlg a _ => ?_) hreach hmem⟩
  show a ∉ (if lg = 0 then [0, 1] else [])
  rw [if_neg hlg]
  exact List.not_mem_nil

/-! ### Handing on -/

section Once

variable {level : E → Level} {time : E → BitVec 64} {text : LoggerId → E → FormatItem → List Char}
  {loggers : LoggerId → SharedLogger} {appenders : AppenderId → LogAppender}
  {streams : AppenderId → OFStream} {s s' : State E} {t : ThreadId} {ok : Bool}

/-- The thread looks for the logger that takes the event. -/
def Phase.Carries (event : E) : Phase E → Prop
  | .log _ _ event' st => st.looping = false ∧ event' = event
  | _ => False

/-- An event is logged that is nowhere yet. -/
def Fresh (s : State E) : Label E → Prop
  | .call _ (.log _ event) =>
    (∀ u, ¬(s.phase u).Carries event) ∧ ∀ lg, event ∉ s.taken lg
  | _ => True

structure Once (s : State E) : Prop where
  nodup : ∀ lg, (s.taken lg).Nodup
  one : ∀ {event lg lg'}, event ∈ s.taken lg → event ∈ s.taken lg' → lg = lg'
  carried : ∀ {event u}, (s.phase u).Carries event → ∀ lg, event ∉ s.taken lg
  alone : ∀ {event u v}, (s.phase u).Carries event → (s.phase v).Carries event → u = v

theorem once_start : Once (State.start (E := E) loggers appenders streams) where
  nodup _ := List.nodup_nil
  one h := by cases h
  carried h := h.elim
  alone h := h.elim

/-- A thread goes on with no event that it did not carry. -/
theorem Once.keep (h : Once s) {p : Phase E} (hp : s'.phase = Function.update s.phase t p)
    (hcarries : ∀ event, p.Carries event → (s.phase t).Carries event) (htaken : s'.taken = s.taken) :
    Once s' := by
  have hback : ∀ {event u}, (s'.phase u).Carries event → (s.phase u).Carries event := by
    intro event u hu
    rw [hp] at hu
    by_cases hut : u = t
    · rw [hut, Function.update_self] at hu
      rw [hut]
      exact hcarries event hu
    · rwa [Function.update_of_ne hut] at hu
  constructor
  · rw [htaken]
    exact h.nodup
  · rw [htaken]
    exact h.one
  · intro event u hu
    rw [htaken]
    exact h.carried (hback hu)
  · exact fun hu hv => h.alone (hback hu) (hback hv)

/-- A logger takes the event. -/
theorem Once.enter (h : Once s) {held : List LoggerId} {lg : LoggerId} {event : E}
    {rest : List AppenderId} (hp : s.phase t = .log held lg event .lock) :
    Once ((({ s with taken := Function.update s.taken lg (s.taken lg ++ [event]) } :
      State E).setLoggerMutex lg (some t)).goto t (.log (lg :: held) lg event (.loop rest))) := by
  have hcarries : (s.phase t).Carries event := by
    rw [hp]
    exact ⟨rfl, rfl⟩
  have hnew := h.carried hcarries
  -- who is in a list now was there before, or is the event
  have hmem : ∀ {e b}, e ∈ Function.update s.taken lg (s.taken lg ++ [event]) b →
      e ∈ s.taken b ∨ (e = event ∧ b = lg) := by
    intro e b he
    by_cases hb : b = lg
    · subst hb
      rw [Function.update_self] at he
      exact (List.mem_append.mp he).imp_right fun he => ⟨List.mem_singleton.mp he, rfl⟩
    · rw [Function.update_of_ne hb] at he
      exact .inl he
  have hother : ∀ {e u}, (Function.update s.phase t (.log (lg :: held) lg event (.loop rest)) u).Carries e →
      u ≠ t ∧ (s.phase u).Carries e := by
    intro e u hu
    by_cases hut : u = t
    · rw [hut, Function.update_self] at hu
      cases hu.1
    · rw [Function.update_of_ne hut] at hu
      exact ⟨hut, hu⟩
  constructor
  · intro b
    show (Function.update s.taken lg (s.taken lg ++ [event]) b).Nodup
    by_cases hb : b = lg
    · subst hb
      rw [Function.update_self]
      refine List.nodup_append.mpr ⟨h.nodup b, List.pairwise_singleton _ event, ?_⟩
      rintro e he _ hmem rfl
      exact hnew b (List.mem_singleton.mp hmem ▸ he)
    · rw [Function.update_of_ne hb]
      exact h.nodup b
  · intro e b c hb hc
    rcases hmem hb with hb' | ⟨rfl, rfl⟩
    · rcases hmem hc with hc' | ⟨rfl, rfl⟩
      · exact h.one hb' hc'
      · exact absurd hb' (hnew b)
    · rcases hmem hc with hc' | ⟨-, rfl⟩
      · exact absurd hc' (hnew c)
      · rfl
  · intro e u hu b hb
    obtain ⟨hut, hu'⟩ := hother hu
    rcases hmem hb with hb' | ⟨rfl, rfl⟩
    · exact h.carried hu' b hb'
    · exact hut (h.alone hu' hcarries)
  · exact fun hu hv => h.alone (hother hu).2 (hother hv).2

theorem Once.move (h : Once s) (hm : Moved level text s t ok s') : Once s' := by
  cases hm with
  | enter hp => exact h.enter hp
  | pass hp | enterRoot hp =>
    refine h.keep rfl (fun event he => ?_) rfl
    rw [hp]
    exact ⟨rfl, he.2⟩
  | @take _ _ _ a rest hp =>
    refine h.keep rfl (fun event he => ?_) rfl
    unfold Stage.ofSink at he
    split at he <;> cases he.1
  | due hp hnext =>
    refine h.keep rfl (fun event he => ?_) rfl
    rcases hnext with rfl | rfl <;> cases he.1
  | @reopen _ _ _ a _ opens hp =>
    have hsame := untouched_reopen s a opens
    exact h.keep (congrArg (Function.update · t _) hsame.phase)
      (fun event he => nomatch he.1) hsame.taken
  | @put _ lg event a _ item _ hp =>
    have hsame := untouched_put s a (text lg event item) ok
    exact h.keep (congrArg (Function.update · t _) hsame.phase)
      (fun event he => nomatch he.1) hsame.taken
  | skip hp | stamp _ hp | beginLine hp | endLine hp =>
    exact h.keep rfl (fun event he => nomatch he.1) rfl
  | adopt hp hm hnext =>
    refine h.keep rfl (fun event he => ?_) rfl
    rcases hnext with rfl | rfl <;> exact he.elim
  | refuse | done | finish | unlock | setFormatter | eachDone | each | addAppender | adopting | attach
    | edit | own => exact h.keep rfl (fun event he => he.elim) rfl

theorem Once.call (h : Once s) (hp : s.phase t = .idle) {op : Op E} (hf : Fresh s (.call t op)) :
    Once (s.call t op) := by
  have hidle : Function.update s.phase t .idle = s.phase := Function.update_eq_self_iff.mpr hp.symm
  cases op with
  | log lg event =>
    obtain ⟨hcarried, htaken⟩ := hf
    have hcases : ∀ {e u}, (Function.update s.phase t (.log [] lg event .check) u).Carries e →
        (s.phase u).Carries e ∨ (u = t ∧ e = event) := by
      intro e u hu
      by_cases hut : u = t
      · rw [hut, Function.update_self] at hu
        exact .inr ⟨hut, hu.2.symm⟩
      · rw [Function.update_of_ne hut] at hu
        exact .inl hu
    refine ⟨h.nodup, h.one, fun {e u} hu b => ?_, fun {e u v} hu hv => ?_⟩
    · rcases hcases hu with hu' | ⟨-, rfl⟩
      · exact h.carried hu' b
      · exact htaken b
    · rcases hcases hu with hu' | ⟨rfl, rfl⟩
      · rcases hcases hv with hv' | ⟨-, rfl⟩
        · exact h.alone hu' hv'
        · exact absurd hu' (hcarried u)
      · rcases hcases hv with hv' | ⟨rfl, -⟩
        · exact absurd hv' (hcarried v)
        · rfl
  | setFormatter | addAppender | delAppender | clearAppenders | appenderSetFormatter =>
    exact h.keep rfl (fun event he => he.elim) rfl
  | setLevel | appenderSetLevel =>
    exact h.keep (t := t) (p := .idle) hidle.symm (fun event he => he.elim) rfl

/-- **An event is handled once.**  Whichever loggers hand it on to their roots, and whoever attaches and
detaches appenders meanwhile, at most one logger takes an event, and takes it once. -/
theorem taken_once (h : Reach (step level time text) Fresh (State.start loggers appenders streams) s) :
    (∀ lg, (s.taken lg).Nodup) ∧
      ∀ event lg lg', event ∈ s.taken lg → event ∈ s.taken lg' → lg = lg' := by
  have hI : Once s := by
    refine h.invariant once_start ?_
    intro s l s' hI hf hs
    cases l with
    | call t op =>
      obtain ⟨hp, rfl⟩ := call_cases hs
      exact hI.call hp hf
    | move t => exact hI.move (moved_of_move hs)
  exact ⟨hI.nodup, fun _ _ _ => hI.one⟩

end Once

/-- A logger without appenders, and its root. -/
def childAndRoot (lg : LoggerId) : SharedLogger where
  level := .debug
  formatter := none
  appenders := if lg = 0 then [] else [0]
  root := if lg = 0 then some 1 else none

example : ∃ s,
    runs plainStep (State.start childAndRoot files fun _ => {}) (.call 0 (.log 0 (.info, "a")) :: moves 0 4) =
      some s ∧ s.taken 0 = [] ∧ s.taken 1 = [(.info, "a")] ∧ s.loggerMutex 0 = some 0 ∧
    (∀ lg, (s.taken lg).Nodup) ∧
      ∀ event lg lg', event ∈ s.taken lg → event ∈ s.taken lg' → lg = lg' := by
  let start := State.start (E := Plain) childAndRoot files fun _ => {}
  let called := start.call 0 (.log 0 (.info, "a"))
  obtain ⟨s, hr, hc⟩ := exists_of_runs plainStep called (moves 0 4)
    (fun s => s.taken 0 = [] ∧ s.taken 1 = [(.info, "a")] ∧ s.loggerMutex 0 = some 0) (by decide +kernel)
  obtain ⟨h0, h1, hm⟩ := of_decide_eq_true hc
  have hcall : Reach plainStep Fresh start called :=
    .move (l := .call 0 (.log 0 (.info, "a"))) .refl ⟨fun _ => id, fun _ => List.not_mem_nil⟩ rfl
  have hmoves : Reach plainStep Fresh called s := by
    refine (Reach.of_runs (p := fun l => ∀ s, Fresh s l) .refl (fun l hl _ => ?_) hr).mono (fun h => h _)
    obtain rfl := List.eq_of_mem_replicate hl
    trivial
  exact ⟨s, hr, h0, h1, hm, taken_once (hcall.trans hmoves)⟩

end LioNet.Log.Lines
