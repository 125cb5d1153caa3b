import LioNet.MainFiber

/-!
# A fiber after `reset`

`Fiber::reset` makes an ended fiber ready to run another function.  It should leave a fiber as the
constructor would have made it, but the constructor chooses the entry function by `use_caller` and
`reset` always takes `MainFunc`, so a fiber built with `use_caller` ends in the other switch from
then on.

Two fibers are compared by everything that can happen to them: the fiber is resumed any number of
times, by `call()` or `swapIn()`, on any thread in any condition (`behave`).  The entry function
itself is not seen before it matters, so the outcomes are compared without it (`anon`).
**`reset_fresh_iff`** says where there is no difference: the fiber was built without `use_caller`, or
it is resumed only on threads whose main fiber is `Scheduler::GetMainFiber()`.
-/

namespace LioNet.MainFiber

/-! ### Resuming one fiber again and again -/

/-- The function that resumes a fiber. -/
inductive Resumer
  | call
  | swapIn
  deriving DecidableEq, Repr

def Resumer.switch (r : Resumer) (t : Thread) (f : Name) : Except Fault (Thread × Name) :=
  match r with
  | .call => t.call f
  | .swapIn => t.swapIn f

/-- What follows a switch into a fiber. -/
def Thread.afterResume : Except Fault (Thread × Name) → Outcome
  | .ok (t, f) => t.enter f
  | .error e => .fault e

/-- Fiber `f` is resumed and executes up to its next switch. -/
def Thread.resumeBy (t : Thread) (r : Resumer) (f : Name) : Outcome :=
  Thread.afterResume (r.switch t f)

/-- Fiber `f` after a resume; a fault is the end of the process. -/
def Outcome.fiber (f : Name) : Outcome → Option TFiber
  | .returned t | .elsewhere t => some (t.fibers f)
  | .fault _ => none

/-- The outcomes of resuming fiber `f`, which is the object `F` at first, on one thread after the
other.  Between two resumes anything may happen to the threads. -/
def behave (f : Name) : TFiber → List (Resumer × Thread) → List Outcome
  | _, [] => []
  | F, (r, t) :: rs =>
    let o := (t.setFiber f F).resumeBy r f
    o :: match o.fiber f with
      | some F' => behave f F' rs
      | none => []

/-! ### What is seen -/

/-- A fiber without its entry function. -/
def anon (F : TFiber) : TFiber := { F with entryFunc := .mainFunc }

def Thread.anon (t : Thread) : Thread := { t with fibers := fun f => MainFiber.anon (t.fibers f) }

def Outcome.anon : Outcome → Outcome
  | .returned t => .returned t.anon
  | .elsewhere t => .elsewhere t.anon
  | .fault e => .fault e

/-- After `reset(func)` the fiber behaves as a new one made with `uc`, however it is resumed. -/
def Fresh (f : Name) (F : TFiber) (func : Option Func) (uc : Bool) (rs : List (Resumer × Thread)) :
    Prop :=
  ∃ F', F.reset func = some F' ∧
    (behave f F' rs).map Outcome.anon = (behave f (Fiber.construct func uc) rs).map Outcome.anon

/-- Fiber `f` has a stack of its own, so it is not the thread's main fiber; and a thread with a root
fiber has a main fiber. -/
structure Thread.Hosts (t : Thread) (f : Name) : Prop where
  own : t.threadFiber ≠ some f
  main : t.schedulerFiber = some f → t.threadFiber ≠ none

/-! ### The entry function is not seen before the end -/

section Anon

variable (t : Thread) (f : Name) (F : TFiber)

theorem anon_setFiber : (t.setFiber f F).anon = t.anon.setFiber f (anon F) := by
  have hfibers : (fun g => anon (Function.update t.fibers f F g)) =
      Function.update (fun g => anon (t.fibers g)) f (anon F) := by
    funext g
    by_cases hg : g = f
    · subst hg
      rw [Function.update_self, Function.update_self]
    · rw [Function.update_of_ne hg, Function.update_of_ne hg]
  unfold Thread.anon Thread.setFiber
  rw [hfibers]

theorem anon_getThis : t.anon.getThis = (t.getThis.1.anon, t.getThis.2) := by
  unfold Thread.getThis
  have hcur : t.anon.current = t.current := rfl
  rw [hcur]
  cases t.current with
  | some g => rfl
  | none =>
    exact congrArg (fun T : Thread =>
      ({ T.setThis (some .main) with threadFiber := some .main }, Name.main))
      (anon_setFiber t .main
        { state := .exec, func := none, entryFunc := .mainFunc, ctx := .suspended .getcontext,
          saved := false }).symm

/-- A switch, without the entry functions. -/
def anonSwitch : Except Fault (Thread × Name) → Except Fault (Thread × Name)
  | .ok (t, f) => .ok (t.anon, f)
  | .error e => .error e

theorem anon_swapcontext (g h : Option Name) (c : Ctx Code) :
    t.anon.swapcontext g h c = anonSwitch (t.swapcontext g h c) := by
  cases g with
  | none => rfl
  | some g =>
    cases h with
    | none => rfl
    | some h =>
      exact congrArg (fun T => Except.ok (T, h)) (anon_setFiber t g ((t.fibers g).save c)).symm

theorem anon_swapOut (c : Ctx Code) : t.anon.swapOut f c = anonSwitch (t.swapOut f c) :=
  anon_swapcontext (t.setThis t.schedulerFiber) (some f) t.schedulerFiber c

/-- The first half of `call` and `swapIn`. -/
theorem anon_resumed : (t.anon.setThis (some f)).setFiber f (t.anon.fibers f).resume =
    ((t.setThis (some f)).setFiber f (t.fibers f).resume).anon :=
  (anon_setFiber (t.setThis (some f)) f (t.fibers f).resume).symm

theorem anon_switch (r : Resumer) : r.switch t.anon f = anonSwitch (r.switch t f) := by
  cases r with
  | call =>
    show Thread.swapcontext _ t.threadFiber _ _ = _
    rw [anon_resumed, anon_swapcontext]
    rfl
  | swapIn =>
    show Thread.swapcontext _ t.schedulerFiber _ _ = _
    rw [anon_resumed, anon_swapcontext]
    rfl

theorem anon_yieldTo (y : Yield) (c : Code) :
    t.anon.yieldTo y c = anonSwitch (t.yieldTo y c) := by
  unfold Thread.yieldTo
  rw [anon_getThis]
  generalize t.getThis = p
  obtain ⟨t, g⟩ := p
  dsimp only
  unfold Fiber.yieldTo
  have hstate : (t.anon.fibers g).state = (t.fibers g).state := rfl
  rw [hstate]
  by_cases hx : (t.fibers g).state = .exec
  · rw [if_pos hx, if_pos hx]
    show (t.anon.setFiber g (anon { t.fibers g with state := y.state })).swapOut g _ = _
    rw [← anon_setFiber, anon_swapOut]
  · rw [if_neg hx, if_neg hx]
    rfl

/-- How a function ends is not seen where both switches go the same way. -/
theorem anon_finish (g : Name) (h : t.schedulerFiber = t.threadFiber) (e : Ending) :
    t.anon.finish f g e = anonSwitch (t.finish f g e) := by
  have hback : ∀ t : Thread, t.schedulerFiber = t.threadFiber →
      t.back g .finished = t.swapOut g .finished := by
    intro t h
    unfold Thread.back Thread.swapOut
    rw [h]
  have hend : t.finish f g e = t.mainFunc g e := by
    unfold Thread.finish
    cases (t.fibers f).entryFunc with
    | mainFunc => rfl
    | callerMainFunc => cases e <;> exact hback _ h
  rw [hend]
  cases e with
  | ret =>
    show (t.anon.setFiber g (anon (t.fibers g).returned)).swapOut g .finished = _
    rw [← anon_setFiber, anon_swapOut]
    rfl
  | throw =>
    show (t.anon.setFiber g (anon (t.fibers g).threw)).swapOut g .finished = _
    rw [← anon_setFiber, anon_swapOut]
    rfl

theorem anon_segment (g : Name) (h : t.schedulerFiber = t.threadFiber) (b : Body) :
    t.anon.segment f g b = anonSwitch (t.segment f g b) := by
  obtain ⟨ys, e⟩ := b
  cases ys with
  | cons y ys => exact anon_yieldTo t y _
  | nil => exact anon_finish t f g h e

theorem anon_land : t.anon.land f = (t.land f).anon := by
  unfold Thread.land
  have hctx : (t.anon.fibers f).ctx = (t.fibers f).ctx := rfl
  rw [hctx]
  split <;> rfl

theorem anon_afterSwitch (r : Except Fault (Thread × Name)) :
    Thread.afterSwitch (anonSwitch r) = (Thread.afterSwitch r).anon := by
  cases r with
  | ok p => exact anon_land p.1 p.2
  | error e => rfl

theorem anon_enter (h : t.schedulerFiber = t.threadFiber) {g : Name} (hc : t.current = some g) :
    t.anon.enter f = (t.enter f).anon := by
  have hctx : (t.anon.fibers f).ctx = (t.fibers f).ctx := rfl
  have hfunc : (t.anon.fibers f).func = (t.fibers f).func := rfl
  unfold Thread.enter
  rw [hctx, anon_getThis, Thread.getThis_of_current hc]
  dsimp only
  rw [hfunc]
  split
  · split
    · rw [anon_segment t f g h, anon_afterSwitch]
    · rfl
    · rw [anon_finish t f g h, anon_afterSwitch]
  · rename_i g' b _
    rw [anon_segment t f g' h, anon_afterSwitch]
  · rfl
  · rfl
  · rfl

/-- A resume sets `t_fiber` and leaves the other two pointers alone. -/
theorem switch_ok {t' : Thread} {g : Name} {r : Resumer} (h : r.switch t f = .ok (t', g)) :
    g = f ∧ t'.current = some f ∧ t'.schedulerFiber = t.schedulerFiber ∧
      t'.threadFiber = t.threadFiber := by
  have hswap : ∀ m : Option Name, ((t.setThis (some f)).setFiber f (t.fibers f).resume).swapcontext m
      (some f) (.suspended .resumer) = .ok (t', g) → g = f ∧ t'.current = some f ∧
        t'.schedulerFiber = t.schedulerFiber ∧ t'.threadFiber = t.threadFiber := by
    intro m hm
    cases m with
    | none => cases hm
    | some m =>
      cases hm
      exact ⟨rfl, rfl, rfl, rfl⟩
  cases r with
  | call => exact hswap _ h
  | swapIn => exact hswap _ h

/-- **A resume shows nothing of the entry functions** on a thread whose two pointers are the same. -/
theorem anon_resumeBy (h : t.schedulerFiber = t.threadFiber) (r : Resumer) :
    t.anon.resumeBy r f = (t.resumeBy r f).anon := by
  unfold Thread.resumeBy
  rw [anon_switch]
  cases hs : r.switch t f with
  | error e => rfl
  | ok p =>
    obtain ⟨t', g⟩ := p
    obtain ⟨rfl, hc, hsched, hthread⟩ := switch_ok t f hs
    exact anon_enter t' g (by rw [hsched, hthread, h]) hc

end Anon

/-! ### When a reset fiber is fresh -/

section Fresh

variable {f : Name} {F G : TFiber} {t : Thread}

theorem fiber_anon (o : Outcome) (f : Name) : o.anon.fiber f = (o.fiber f).map anon := by
  cases o <;> rfl

/-- Two fibers that differ in the entry function only behave alike on such threads. -/
theorem behave_congr (rs : List (Resumer × Thread))
    (hrs : ∀ p ∈ rs, p.2.schedulerFiber = p.2.threadFiber) (hFG : anon F = anon G) :
    (behave f F rs).map Outcome.anon = (behave f G rs).map Outcome.anon := by
  induction rs generalizing F G with
  | nil => rfl
  | cons p rs ih =>
    obtain ⟨r, t⟩ := p
    have hseen : ∀ H : TFiber, ((t.setFiber f H).resumeBy r f).anon =
        (t.anon.setFiber f (anon H)).resumeBy r f := by
      intro H
      rw [← anon_setFiber]
      exact (anon_resumeBy (t.setFiber f H) f (hrs _ List.mem_cons_self) r).symm
    have ho : ((t.setFiber f F).resumeBy r f).anon = ((t.setFiber f G).resumeBy r f).anon := by
      rw [hseen, hseen, hFG]
    have hnext := congrArg (Outcome.fiber f) ho
    rw [fiber_anon, fiber_anon] at hnext
    unfold behave
    dsimp only
    rw [List.map_cons, List.map_cons, ho]
    congr 1
    cases hF : ((t.setFiber f F).resumeBy r f).fiber f with
    | none =>
      rw [hF] at hnext
      rw [Option.map_eq_none_iff.mp hnext.symm]
    | some F' =>
      rw [hF] at hnext
      obtain ⟨G', hG, hFG'⟩ := Option.map_eq_some_iff.mp hnext.symm
      rw [hG]
      exact ih (fun q hq => hrs q (List.mem_cons_of_mem _ hq)) hFG'.symm

/-! ### Where it is not -/

/-- The entry function whose switch belongs to the resume. -/
def Resumer.pair : Resumer → EntryFunc
  | .call => .callerMainFunc
  | .swapIn => .mainFunc

/-- A new fiber whose function returns at once. -/
def quick (e : EntryFunc) : TFiber where
  state := .init
  func := some (.body ⟨[], .ret⟩)
  entryFunc := e
  ctx := .entry
  saved := true

/-- The last switch of fiber `f`, through the pointer `p`. -/
def Thread.lastSwitch (t : Thread) (f : Name) (p : Option Name) : Outcome :=
  Thread.afterSwitch ((t.setThis p).swapcontext (some f) p .finished)

/-- Such a fiber goes in through one pointer, where the resumer is saved, and out through the other. -/
theorem resumeBy_quick {e : EntryFunc} {r : Resumer} {m : Name} (hm : t.mainOf r.pair = some m)
    (hne : m ≠ f) : ∃ t' : Thread, (t'.fibers m).ctx = .suspended .resumer ∧
      (t.setFiber f (quick e)).resumeBy r f = t'.lastSwitch f (t.mainOf e) := by
  let t₁ := ((t.setFiber f (quick e)).setThis (some f)).setFiber f (quick e).resume
  let t₂ := t₁.setFiber m ((t₁.fibers m).save (.suspended .resumer))
  have hself : t₂.fibers f = (quick e).resume := by simp [t₂, t₁, Ne.symm hne]
  have hswitch : r.switch (t.setFiber f (quick e)) f = .ok (t₂, f) := by
    have hF : (t.setFiber f (quick e)).fibers f = quick e := by simp
    cases r with
    | call =>
      have hp : t.threadFiber = some m := hm
      simp only [Resumer.switch, Thread.call, hF, Thread.setFiber_threadFiber, hp]
      rfl
    | swapIn =>
      have hp : t.schedulerFiber = some m := hm
      simp only [Resumer.switch, Thread.swapIn, hF, Thread.setFiber_schedulerFiber, hp]
      rfl
  refine ⟨t₂.setFiber f (t₂.fibers f).returned, ?_, ?_⟩
  · simp [t₂, hne, Fiber.save]
  · have hcur : t₂.current = some f := rfl
    have hctx : (t₂.fibers f).ctx = .entry := by rw [hself]; rfl
    have hfunc : (t₂.fibers f).func = some (.body ⟨[], .ret⟩) := by rw [hself]; rfl
    have hentry : (t₂.fibers f).entryFunc = e := by rw [hself]; rfl
    unfold Thread.resumeBy Thread.afterResume
    rw [hswitch]
    dsimp only
    unfold Thread.enter
    rw [hctx, Thread.getThis_of_current hcur]
    dsimp only
    rw [hfunc]
    show Thread.afterSwitch (t₂.finish f f .ret) = _
    unfold Thread.finish
    rw [hentry]
    cases e <;> rfl

/-- Control comes back where a resumer is saved. -/
theorem lastSwitch_returned {m : Name} (hm : (t.fibers m).ctx = .suspended .resumer)
    (hne : m ≠ f) : ∃ t', t.lastSwitch f (some m) = .returned t' := by
  let t' := (t.setThis (some m)).setFiber f ((t.fibers f).save .finished)
  have hctx : (t'.fibers m).ctx = .suspended .resumer := by simpa [t', hne] using hm
  refine ⟨t', ?_⟩
  show t'.land m = _
  unfold Thread.land
  rw [hctx]

/-- Control comes back with the fiber of the switch current. -/
theorem lastSwitch_current {p : Option Name} {t' : Thread} (h : t.lastSwitch f p = .returned t') :
    t'.current = p := by
  cases p with
  | none => cases h
  | some g =>
    have hland : Thread.land _ g = .returned t' := h
    unfold Thread.land at hland
    split at hland <;> cases hland
    rfl

/-- **A thread with two different pointers tells the entry functions apart.** -/
theorem resumeBy_differs (hh : t.Hosts f) (hne : t.schedulerFiber ≠ t.threadFiber) :
    ∃ r, ((t.setFiber f (quick .mainFunc)).resumeBy r f).anon ≠
      ((t.setFiber f (quick .callerMainFunc)).resumeBy r f).anon := by
  cases ht : t.threadFiber with
  | some m =>
    -- `call()` goes in through the main fiber; only `back` comes out there
    have hm : m ≠ f := fun e => hh.own (e ▸ ht)
    have hp : t.mainOf Resumer.call.pair = some m := ht
    refine ⟨.call, fun he => ?_⟩
    obtain ⟨t₁, -, h₁⟩ := resumeBy_quick (e := .mainFunc) hp hm
    obtain ⟨t₂, hctx, h₂⟩ := resumeBy_quick (e := .callerMainFunc) hp hm
    obtain ⟨t', hback⟩ := lastSwitch_returned hctx hm
    have hm₂ : t.mainOf .callerMainFunc = some m := ht
    rw [h₁, h₂, hm₂, hback] at he
    cases hout : t₁.lastSwitch f (t.mainOf .mainFunc) with
    | returned t'' =>
      rw [hout] at he
      injection he with he
      have hcur : t''.anon.current = t'.anon.current := congrArg Thread.current he
      change t''.current = t'.current at hcur
      rw [lastSwitch_current hout, lastSwitch_current hback] at hcur
      exact hne (hcur.trans ht.symm)
    | elsewhere t'' =>
      rw [hout] at he
      cases he
    | fault e =>
      rw [hout] at he
      cases he
  | none =>
    -- `swapIn()` goes in through the scheduler's fiber, and `back` would access null
    cases hs : t.schedulerFiber with
    | none => exact absurd (hs.trans ht.symm) hne
    | some m =>
      have hm : m ≠ f := fun e => hh.main (e ▸ hs) ht
      have hp : t.mainOf Resumer.swapIn.pair = some m := hs
      refine ⟨.swapIn, fun he => ?_⟩
      obtain ⟨t₁, hctx, h₁⟩ := resumeBy_quick (e := .mainFunc) hp hm
      obtain ⟨t₂, -, h₂⟩ := resumeBy_quick (e := .callerMainFunc) hp hm
      obtain ⟨t', hback⟩ := lastSwitch_returned hctx hm
      have hm₁ : t.mainOf .mainFunc = some m := hs
      have hm₂ : t.mainOf .callerMainFunc = none := ht
      rw [h₁, h₂, hm₁, hm₂, hback] at he
      cases he

end Fresh

/-- **A reset fiber is fresh exactly where its entry function does not matter**: for a fiber in any
condition that `reset` allows, resumed any number of times on any of the threads `on`. -/
theorem reset_fresh_iff (f : Name) (F : TFiber) (uc : Bool) (on : Thread → Prop)
    (hF : F.state = .term ∨ F.state = .except ∨ F.state = .init) (hon : ∀ t, on t → t.Hosts f) :
    (∀ func rs, (∀ p ∈ rs, on p.2) → Fresh f F func uc rs) ↔
      uc = false ∨ ∀ t, on t → t.schedulerFiber = t.threadFiber := by
  have hreset : ∀ func, F.reset func = some (Fiber.construct func false) :=
    fun func => Fiber.reset_eq_some_iff.mpr ⟨hF, rfl⟩
  constructor
  · intro hall
    cases uc with
    | false => exact .inl rfl
    | true =>
      refine .inr fun t ht => ?_
      by_contra hne
      obtain ⟨r, hr⟩ := resumeBy_differs (hon t ht) hne
      obtain ⟨F', hF', hsame⟩ := hall (some (.body ⟨[], .ret⟩)) [(r, t)] (by simpa using ht)
      obtain rfl := Option.some.inj ((hreset _).symm.trans hF')
      exact hr (List.cons.inj hsame).1
  · intro hok func rs hrs
    refine ⟨_, hreset func, ?_⟩
    rcases hok with rfl | hok
    · rfl
    · exact behave_congr rs (fun p hp => hok _ (hrs p hp)) rfl

/-- A worker thread, whose body yields once and then throws. -/
def onWorker : Thread := Host.worker.thread (fun _ => true) fun _ => ⟨[.toHold], .throw⟩

/-- There a fiber built with `use_caller` may be reset. -/
theorem reset_fresh_iff_worker :
    Fresh (.task 0) ⟨.except, some (.body ⟨[], .throw⟩), .callerMainFunc, .finished, true⟩
      (some (.body ⟨[.toHold], .ret⟩)) true [(.call, onWorker), (.swapIn, onWorker)] := by
  refine (reset_fresh_iff (.task 0) _ true (· = onWorker) (.inr (.inl rfl)) ?_).mpr (.inr ?_) _ _ ?_
  · rintro t rfl
    exact ⟨by decide, by decide⟩
  · rintro t rfl
    rfl
  · simp

/-- On a thread without a scheduler, a fiber built with `use_caller` comes back from `call()` and the
same fiber after `reset` accesses null. -/
theorem not_reset_fresh :
    ¬∀ (f : Name) (F : TFiber) (func : Option Func) (uc : Bool) (rs : List (Resumer × Thread)),
      (F.state = .term ∨ F.state = .except ∨ F.state = .init) → (∀ p ∈ rs, p.2.Hosts f) →
        Fresh f F func uc rs := by
  intro h
  let t := Host.bare.thread (fun _ => true) fun _ => ⟨[], .ret⟩
  have hhosts : t.Hosts (.task 0) := ⟨by decide, by decide⟩
  obtain ⟨F', hF', hsame⟩ := h (.task 0) ⟨.term, none, .callerMainFunc, .finished, true⟩
    (some (.body ⟨[], .ret⟩)) true [(.call, t)] (.inl rfl) (by simpa using hhosts)
  obtain rfl : F' = quick .mainFunc := (Option.some.inj hF').symm
  have hnull : (t.setFiber (.task 0) (quick .mainFunc)).resumeBy .call (.task 0) =
      .fault .nullAccess := rfl
  have hfirst := (List.cons.inj hsame).1
  rw [hnull] at hfirst
  cases hfirst

end LioNet.MainFiber
