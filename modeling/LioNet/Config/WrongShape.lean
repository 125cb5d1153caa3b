import LioNet.Config.FromString
import LioNet.Config.RoundTrip

/-!
# A scalar where a container is expected

The conversions of `config.h` to a container loop over `node.size()` children, or from `node.begin()`
to `node.end()`, whatever the kind of the node is.  A scalar has no children: each conversion makes an
empty container of it instead of throwing, and `fromString` sets the variable to that.

The elements may be of any type here, with any conversion.  `Ty.fromString_container` says that these
are the conversions of `LexicalCast.lean`.
-/

namespace LioNet.LexicalCast

open ConfigVar

/-- The six container templates. -/
inductive Container
  | vector
  | list
  | set
  | unorderedSet
  | map
  | unorderedMap
  deriving DecidableEq, Repr

abbrev Container.Val (α : Type) : Container → Type
  | .vector | .list => List α
  | .set | .unorderedSet => Finset α
  | .map | .unorderedMap => Finmap fun _ : String => α

def Container.empty (α : Type) : (c : Container) → c.Val α
  | .vector | .list => ([] : List α)
  | .set | .unorderedSet => (∅ : Finset α)
  | .map | .unorderedMap => (∅ : Finmap fun _ : String => α)

section Casts

variable (Y : Api) {α : Type} [DecidableEq α] (parse : String → Option α)

/-- `LexicalCast<std::string, C<T>>`. -/
def Container.fromString : (c : Container) → String → Option (c.Val α)
  | .vector | .list => fun v => parseItems Y parse v
  | .set | .unorderedSet => fun v => (parseItems Y parse v).map insertItems
  | .map | .unorderedMap => fun v => (parseEntries Y parse v).map insertEntries

end Casts

/-- The container of elements of type `t`. -/
def Container.ty (t : Ty) : Container → Ty
  | .vector => .vector t
  | .list => .list t
  | .set => .set t
  | .unorderedSet => .unorderedSet t
  | .map => .map t
  | .unorderedMap => .unorderedMap t

def Container.ofTy {t : Ty} : (c : Container) → (c.ty t).Val → c.Val t.Val
  | .vector | .list | .set | .unorderedSet | .map | .unorderedMap => id

theorem Ty.fromString_container (Y : Api) (c : Container) (t : Ty) (v : String) :
    ((c.ty t).fromString Y v).map c.ofTy = c.fromString Y (t.fromString Y) v := by
  cases c <;> exact Option.map_id_apply

/-! ### Rejection -/

/-- `fromString` has refused its text: nothing has changed, and no listener was called, be it one that
throws. -/
structure Rejected {T : Type} (s : State T) (r : Called T × Bool) : Prop where
  result : r.2 = false
  value : r.1.state.val = s.val
  silent : r.1.state.log = s.log ∧ r.1.thrower = none

/-- A text that converts is not rejected. -/
theorem not_rejected_of_some {T : Type} [BEq T] {throws : ListenerId → T → T → Bool}
    {fromStr : String → Option T} {s : State T} {val : String} {v : T} (h : fromStr val = some v) :
    ¬Rejected s (s.fromString throws fromStr val) := by
  intro hrej
  have hres : (s.setValue throws v).thrower.isNone = false := by
    simpa only [State.fromString, h] using hrej.result
  have hnone : (s.setValue throws v).thrower = none := by
    simpa only [State.fromString, h] using hrej.silent.2
  rw [hnone] at hres
  cases hres

section Scalar

variable {Y : Api} {α : Type} [DecidableEq α] {parse : String → Option α} {text str : String}

/-- The conversions take a scalar for an empty container. -/
theorem fromString_scalar (hload : Y.load text = some (Y.scalar str))
    (hsize : Y.size (Y.scalar str) = 0) (hmembers : Y.members (Y.scalar str) = some [])
    (c : Container) : c.fromString Y parse text = some (Container.empty α c) := by
  have hitems : parseItems Y parse text = some [] := by
    rw [parseItems, hload, Option.bind_some, hsize]
    rfl
  have hentries : parseEntries Y parse text = some [] := by
    rw [parseEntries, hload, Option.bind_some, hmembers]
    rfl
  cases c with
  | vector | list => exact hitems
  | set | unorderedSet => exact congrArg (Option.map insertItems) hitems
  | map | unorderedMap => exact congrArg (Option.map insertEntries) hentries

/-- **A container variable never rejects a scalar.** -/
theorem scalar_never_rejected (hload : Y.load text = some (Y.scalar str))
    (hsize : Y.size (Y.scalar str) = 0) (hmembers : Y.members (Y.scalar str) = some [])
    (c : Container) [BEq (c.Val α)] (throws : ListenerId → c.Val α → c.Val α → Bool)
    (s : State (c.Val α)) : ¬Rejected s (s.fromString throws (c.fromString Y parse) text) :=
  not_rejected_of_some (fromString_scalar hload hsize hmembers c)

end Scalar

/-! ### A vector of numbers and the text `80` -/

theorem load_eighty : docs.load "80" = some (docs.scalar "80") := by
  have htext : Doc.text (.scalar "80") = "80" := by rw [Doc.text, if_pos (by decide +kernel)]
  have h := Doc.load_scalar "80"
  rw [htext] at h
  exact h

/-- A vector that holds one number and has one listener. -/
def oneNumber : State (List Int32) := .construct [1] {1} 1

theorem scalar_never_rejected_eighty :
    ¬Rejected oneNumber (oneNumber.fromString never (Container.vector.fromString docs parseInt) "80") :=
  scalar_never_rejected load_eighty rfl rfl .vector never oneNumber

/-- The vector is emptied. -/
theorem not_scalar_rejected :
    ¬∀ (Y : Api) (text str : String), Y.load text = some (Y.scalar str) → str ≠ "" →
      Y.size (Y.scalar str) = 0 → Y.members (Y.scalar str) = some [] →
      ∀ (c : Container) [BEq (c.Val Int32)] (throws : ListenerId → c.Val Int32 → c.Val Int32 → Bool)
        (s : State (c.Val Int32)), Rejected s (s.fromString throws (c.fromString Y parseInt) text) := by
  intro h
  have hrej := h docs "80" "80" load_eighty (by decide) rfl rfl .vector never oneNumber
  exact not_rejected_of_some (fromString_scalar load_eighty rfl rfl .vector) hrej

end LioNet.LexicalCast
