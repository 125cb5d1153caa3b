import Mathlib.Logic.Function.Basic
import LioNet.Lib.Transition

/-!
# The registry of configuration variables

`Config::Lookup` of `config.h`, both forms, and the constructor of `ConfigVarBase`.

A variable is named by its place in the list of all variables ever constructed: none is destroyed while
the registry holds it, so the list only grows.  `τ` stands for the C++ types, with `V t` the values of
type `t`; `std::dynamic_pointer_cast<ConfigVar<T>>` is the comparison of the type.  The calls that a
user makes on a variable in between are `setValue` with any value of its type.

The alphabet of `Lookup` is a string in the source, and `accepted` is `find_first_not_of` on it.
-/

namespace LioNet.Config

open LioNet.Lib

/-- The alphabet that `Lookup` and `ListAllMember` search. -/
def alphabet : String := "abcdefghikjlmnopqrstuvwxyz._012345678"

/-- `name.find_first_not_of(alphabet) == std::string::npos`. -/
def accepted (name : String) : Bool := name.toList.all fun c => alphabet.toList.contains c

/-- `std::transform` with `::tolower`. -/
def tolower (s : String) : String := s.map Char.toLower

/-- `[0-9a-z_.]`, what the comments of the source say a name consists of. -/
def documented (c : Char) : Prop :=
  ('0' ≤ c ∧ c ≤ '9') ∨ ('a' ≤ c ∧ c ≤ 'z') ∨ c = '_' ∨ c = '.'

instance (c : Char) : Decidable (documented c) := by
  unfold documented
  infer_instance

/-- The alphabet is what the comments say, less one digit. -/
theorem mem_alphabet {c : Char} : c ∈ alphabet.toList ↔ documented c ∧ c ≠ '9' := by
  constructor
  · intro h
    have htable : (alphabet.toList.all fun c => decide (documented c ∧ c ≠ '9')) = true := by
      decide +kernel
    simpa using List.all_eq_true.mp htable c h
  · intro h
    -- both sides speak of ASCII characters only, so the rest is a table
    have htable : ∀ n, n < 128 → documented (Char.ofNat n) → Char.ofNat n ≠ '9' →
        Char.ofNat n ∈ alphabet.toList := by decide +kernel
    have hlt : c.toNat < 128 := by
      rcases h.1 with ⟨-, hc⟩ | ⟨-, hc⟩ | hc | hc
      · have hle : c.toNat ≤ '9'.toNat := hc
        exact Nat.lt_of_le_of_lt hle (by decide)
      · have hle : c.toNat ≤ 'z'.toNat := hc
        exact Nat.lt_of_le_of_lt hle (by decide)
      · rw [hc]
        decide
      · rw [hc]
        decide
    have hmem := htable c.toNat hlt
    rw [Char.ofNat_toNat] at hmem
    exact hmem h.1 h.2

theorem accepted_iff {name : String} :
    accepted name = true ↔ ∀ c ∈ name.toList, c ∈ alphabet.toList := by
  simp [accepted]

theorem accepted_append {s s' : String} :
    accepted (s ++ s') = true ↔ accepted s = true ∧ accepted s' = true := by
  simp [accepted, String.toList_append]

/-- A name that passes is not changed by `tolower`. -/
theorem tolower_of_accepted {name : String} (h : accepted name = true) : tolower name = name := by
  have htable : (alphabet.toList.all fun c => c.toLower == c) = true := by decide +kernel
  have hfix : ∀ c ∈ alphabet.toList, c.toLower = c := by
    intro c hc
    simpa using List.all_eq_true.mp htable c hc
  apply String.toList_injective
  show (name.map Char.toLower).toList = name.toList
  rw [String.toList_map]
  have hid : name.toList.map Char.toLower = name.toList.map id :=
    List.map_congr_left fun c hc => hfix c (accepted_iff.mp h c hc)
  rw [hid, List.map_id]

/-! ### The registry -/

abbrev ObjId := Nat

variable {τ : Type} {V : τ → Type}

/-- `ConfigVar<T>`, without its listeners. -/
structure Object (V : τ → Type) where
  type : τ
  name : String
  description : String
  val : V type

/-- The constructors of `ConfigVarBase` and `ConfigVar`. -/
def Object.construct (t : τ) (name : String) (defaultValue : V t) (desc : String) : Object V where
  type := t
  name := tolower name
  description := desc
  val := defaultValue

/-- `setValue` on a variable, without its listeners. -/
def Object.setValue [∀ t, BEq (V t)] (x : Object V) (v : V x.type) : Object V :=
  if v == x.val then x else { x with val := v }

theorem Object.setValue_type [∀ t, BEq (V t)] (x : Object V) (v : V x.type) :
    (x.setValue v).type = x.type := by
  unfold Object.setValue
  split <;> rfl

theorem Object.setValue_name [∀ t, BEq (V t)] (x : Object V) (v : V x.type) :
    (x.setValue v).name = x.name := by
  unfold Object.setValue
  split <;> rfl

theorem Object.setValue_eq [∀ t, BEq (V t)] [∀ t, LawfulBEq (V t)]
    (x : Object V) (v : V x.type) : x.setValue v = { x with val := v } := by
  unfold Object.setValue
  split
  · rename_i hv
    rw [eq_of_beq hv]
  · rfl

/-- `GetDatas()`, and the variables it points to. -/
structure Registry (V : τ → Type) where
  datas : String → Option ObjId
  objects : List (Object V)

def Registry.empty : Registry V := ⟨fun _ => none, []⟩

/-- What `Lookup` gives back: it throws, or the pointer is null or to a variable. -/
inductive Found
  | invalidArgument (name : String)
  | null
  | var (o : ObjId)
  deriving DecidableEq, Repr

section Lookup

variable [DecidableEq τ]

/-- `std::dynamic_pointer_cast<ConfigVar<T>>`. -/
def Registry.cast (r : Registry V) (t : τ) (o : ObjId) : Found :=
  match r.objects[o]? with
  | some x => if x.type = t then .var o else .null
  | none => .null

/-- `Lookup<T>(name, default_value, desc)`. -/
def Registry.lookup (r : Registry V) (t : τ) (name : String) (defaultValue : V t) (desc : String) :
    Registry V × Found :=
  match r.datas name with
  | some o => (r, r.cast t o)
  | none =>
    if accepted name then
      ({ datas := Function.update r.datas name (some r.objects.length)
         objects := r.objects ++ [Object.construct t name defaultValue desc] },
        .var r.objects.length)
    else (r, .invalidArgument name)

/-- `Lookup<T>(name)`. -/
def Registry.find (r : Registry V) (t : τ) (name : String) : Found :=
  match r.datas name with
  | some o => r.cast t o
  | none => .null

/-- `setValue` through a pointer to `ConfigVar<T>`. -/
def Registry.setValue [∀ t, BEq (V t)] (r : Registry V) (o : ObjId) (t : τ) (v : V t) :
    Registry V :=
  match r.objects[o]? with
  | some x =>
    if h : x.type = t then { r with objects := r.objects.set o (x.setValue (h.symm ▸ v)) } else r
  | none => r

inductive Call (V : τ → Type)
  | lookup (t : τ) (name : String) (defaultValue : V t) (desc : String)
  | find (t : τ) (name : String)
  | setValue (o : ObjId) (t : τ) (v : V t)

def Registry.step [∀ t, BEq (V t)] (r : Registry V) : Call V → Option (Registry V)
  | .lookup t name d desc => some (r.lookup t name d desc).1
  | .find _ _ => some r
  | .setValue o t v => some (r.setValue o t v)

/-! ### What a caller may expect -/

/-- The name belongs to variable `o` of type `t`: either form finds it under that type, finds nothing
under another, and changes nothing. -/
def Registry.Fixed (r : Registry V) (name : String) (t : τ) (o : ObjId) : Prop :=
  (∀ t' d desc, r.lookup t' name d desc = (r, if t' = t then .var o else .null)) ∧
    ∀ t', r.find t' name = if t' = t then .var o else .null

/-- What the documentation of `Lookup<T>(name, default_value, desc)` says about one call. -/
structure LookupLaw [∀ t, BEq (V t)] (r : Registry V) (t : τ) (name : String) (d : V t)
    (desc : String) : Prop where
  /-- it throws exactly for a fresh name with an illegal character -/
  throws : (r.lookup t name d desc).2 = .invalidArgument name ↔
    r.datas name = none ∧ ∃ c ∈ name.toList, ¬documented c
  /-- a call that throws or finds another type changes nothing -/
  kept : (∀ o, (r.lookup t name d desc).2 ≠ .var o) → (r.lookup t name d desc).1 = r
  /-- the first accepted call makes the variable, and fixes object and type for good -/
  fixes : ∀ o, r.datas name = none → (r.lookup t name d desc).2 = .var o →
    ∀ r', Reach Registry.step (fun _ _ => True) (r.lookup t name d desc).1 r' →
      r'.Fixed name t o

variable {r r' : Registry V} {t : τ} {name : String} {o : ObjId}

/-- Every key leads to a variable that has it as its name. -/
def Registry.Named (r : Registry V) : Prop :=
  ∀ {name o}, r.datas name = some o → ∃ x, r.objects[o]? = some x ∧ x.name = name

/-- The name leads to variable `o`, of type `t`. -/
def Registry.Holds (r : Registry V) (name : String) (t : τ) (o : ObjId) : Prop :=
  r.datas name = some o ∧ ∃ x, r.objects[o]? = some x ∧ x.type = t

theorem Registry.Holds.fixed (h : r.Holds name t o) : r.Fixed name t o := by
  obtain ⟨ho, x, hx, hxt⟩ := h
  have hcast : ∀ t', r.cast t' o = if t' = t then .var o else .null := by
    intro t'
    simp only [Registry.cast, hx, hxt, eq_comm]
  refine ⟨fun t' d desc => ?_, fun t' => ?_⟩
  · simp only [Registry.lookup, ho, hcast]
  · simp only [Registry.find, ho, hcast]

/-- The two outcomes of a call for a fresh name. -/
theorem lookup_fresh (hn : r.datas name = none) (d : V t) (desc : String) :
    r.lookup t name d desc =
      if accepted name then
        ({ datas := Function.update r.datas name (some r.objects.length)
           objects := r.objects ++ [Object.construct t name d desc] }, .var r.objects.length)
      else (r, .invalidArgument name) := by
  simp only [Registry.lookup, hn]

theorem lookup_known (ho : r.datas name = some o) (d : V t) (desc : String) :
    r.lookup t name d desc = (r, r.cast t o) := by
  simp only [Registry.lookup, ho]

section Values

variable [∀ t, BEq (V t)]

theorem setValue_datas (r : Registry V) (o : ObjId) (t : τ) (v : V t) :
    (r.setValue o t v).datas = r.datas := by
  unfold Registry.setValue
  split
  · split <;> rfl
  · rfl

/-- `setValue` keeps every variable's type and name. -/
theorem setValue_objects {t' : τ} {v : V t'} {o' : ObjId} {x : Object V}
    (hx : r.objects[o]? = some x) :
    ∃ y, (r.setValue o' t' v).objects[o]? = some y ∧ y.type = x.type ∧ y.name = x.name := by
  unfold Registry.setValue
  split
  · rename_i z hz
    split
    · by_cases e : o = o'
      · subst e
        have hxz : x = z := Option.some.inj (hx.symm.trans hz)
        subst hxz
        have hlt : o < r.objects.length := (List.getElem?_eq_some_iff.mp hx).1
        exact ⟨_, List.getElem?_set_self hlt, x.setValue_type _, x.setValue_name _⟩
      · exact ⟨x, (List.getElem?_set_ne (Ne.symm e)).trans hx, rfl, rfl⟩
    · exact ⟨x, hx, rfl, rfl⟩
  · exact ⟨x, hx, rfl, rfl⟩

theorem Registry.Named.step {l : Call V} (h : r.Named) (hs : r.step l = some r') : r'.Named := by
  cases l with
  | lookup t name d desc =>
    obtain rfl := Option.some.inj hs
    cases hn : r.datas name with
    | some o =>
      rw [lookup_known hn]
      exact h
    | none =>
      rw [lookup_fresh hn]
      split
      · rename_i ha
        intro name' o' ho'
        by_cases e : name' = name
        · subst e
          simp only [Function.update_self, Option.some.injEq] at ho'
          subst ho'
          refine ⟨Object.construct t name' d desc, by simp, tolower_of_accepted ha⟩
        · simp only [Function.update_of_ne e] at ho'
          obtain ⟨x, hx, hname⟩ := h ho'
          have hlt : o' < r.objects.length := (List.getElem?_eq_some_iff.mp hx).1
          exact ⟨x, (List.getElem?_append_left hlt).trans hx, hname⟩
      · exact h
  | find t name =>
    obtain rfl := Option.some.inj hs
    exact h
  | setValue o t v =>
    obtain rfl := Option.some.inj hs
    intro name' o' ho'
    rw [setValue_datas] at ho'
    obtain ⟨x, hx, hname⟩ := h ho'
    obtain ⟨y, hy, -, hyn⟩ := setValue_objects (v := v) hx
    exact ⟨y, hy, hyn.trans hname⟩

theorem Registry.Named.reach (h : Reach (Registry.step (V := V)) (fun _ _ => True) Registry.empty r) :
    r.Named := by
  refine h.invariant (I := Registry.Named) (fun ho => by cases ho) ?_
  intro r l r' hI _ hs
  exact hI.step hs

theorem Registry.Holds.step {l : Call V} (h : r.Holds name t o) (hs : r.step l = some r') :
    r'.Holds name t o := by
  obtain ⟨ho, x, hx, hxt⟩ := h
  cases l with
  | lookup t' name' d desc =>
    obtain rfl := Option.some.inj hs
    cases hn : r.datas name' with
    | some o' =>
      rw [lookup_known hn]
      exact ⟨ho, x, hx, hxt⟩
    | none =>
      have hne : name ≠ name' := by
        intro e
        rw [e, hn] at ho
        cases ho
      rw [lookup_fresh hn]
      split
      · have hlt : o < r.objects.length := (List.getElem?_eq_some_iff.mp hx).1
        refine ⟨(Function.update_of_ne hne _ _).trans ho, x, ?_, hxt⟩
        exact (List.getElem?_append_left hlt).trans hx
      · exact ⟨ho, x, hx, hxt⟩
  | find t' name' =>
    obtain rfl := Option.some.inj hs
    exact ⟨ho, x, hx, hxt⟩
  | setValue o' t' v =>
    obtain rfl := Option.some.inj hs
    obtain ⟨y, hy, hyt, -⟩ := setValue_objects (v := v) hx
    refine ⟨?_, y, hy, hyt.trans hxt⟩
    rw [setValue_datas]
    exact ho

theorem Registry.Holds.reach (h : r.Holds name t o)
    (hr : Reach (Registry.step (V := V)) (fun _ _ => True) r r') : r'.Holds name t o := by
  refine hr.invariant (I := fun r' => r'.Holds name t o) h ?_
  intro r l r' hI _ hs
  exact hI.step hs

end Values

/-- A fresh name is accepted exactly when its characters are documented and none is a 9. -/
theorem accepted_iff_documented :
    accepted name = true ↔ (∀ c ∈ name.toList, documented c) ∧ '9' ∉ name.toList := by
  rw [accepted_iff]
  constructor
  · intro h
    refine ⟨fun c hc => (mem_alphabet.mp (h c hc)).1, fun h9 => ?_⟩
    exact (mem_alphabet.mp (h '9' h9)).2 rfl
  · intro h c hc
    refine mem_alphabet.mpr ⟨h.1 c hc, fun e => ?_⟩
    rw [e] at hc
    exact h.2 hc

/-- A call for a fresh name throws exactly when the alphabet does not have all of its characters. -/
theorem lookup_throws_iff {d : V t} {desc : String} :
    (r.lookup t name d desc).2 = .invalidArgument name ↔
      r.datas name = none ∧ accepted name = false := by
  cases hn : r.datas name with
  | some o =>
    rw [lookup_known hn, Registry.cast]
    split
    · split <;> simp
    · simp
  | none =>
    rw [lookup_fresh hn]
    cases ha : accepted name <;> simp

theorem lookup_kept {d : V t} {desc : String}
    (h : ∀ o, (r.lookup t name d desc).2 ≠ .var o) : (r.lookup t name d desc).1 = r := by
  cases hn : r.datas name with
  | some o => rw [lookup_known hn]
  | none =>
    rw [lookup_fresh hn] at h ⊢
    split
    · rename_i ha
      rw [if_pos ha] at h
      exact absurd rfl (h _)
    · rfl

/-- The accepted call for a fresh name. -/
theorem lookup_holds {d : V t} {desc : String} (hn : r.datas name = none)
    (ho : (r.lookup t name d desc).2 = .var o) : (r.lookup t name d desc).1.Holds name t o := by
  rw [lookup_fresh hn] at ho ⊢
  split
  · rename_i ha
    rw [if_pos ha] at ho
    injection ho with ho
    subst ho
    exact ⟨Function.update_self _ _ _, Object.construct t name d desc, by simp, rfl⟩
  · rename_i ha
    rw [if_neg ha] at ho
    cases ho

/-- **The registry.**  In every run each key is its variable's name, and a call meets its
documentation exactly when it is not for a fresh documented name with a 9. -/
theorem lookup_law_iff [∀ t, BEq (V t)]
    (h : Reach (Registry.step (V := V)) (fun _ _ => True) Registry.empty r) :
    r.Named ∧ ∀ (t : τ) (name : String) (d : V t) (desc : String),
      LookupLaw r t name d desc ↔
        (r.datas name = none → (∀ c ∈ name.toList, documented c) → '9' ∉ name.toList) := by
  refine ⟨Registry.Named.reach h, fun t name d desc => ?_⟩
  constructor
  · intro hlaw hn hdoc h9
    have hrej : accepted name = false := by
      rw [← Bool.not_eq_true, accepted_iff_documented]
      exact fun ha => ha.2 h9
    obtain ⟨-, c, hc, hnot⟩ := hlaw.throws.mp (lookup_throws_iff.mpr ⟨hn, hrej⟩)
    exact hnot (hdoc c hc)
  · intro hcond
    refine ⟨?_, lookup_kept, fun o hn ho r' hr => ((lookup_holds hn ho).reach hr).fixed⟩
    rw [lookup_throws_iff, ← Bool.not_eq_true, accepted_iff_documented]
    constructor
    · intro hrej
      refine ⟨hrej.1, ?_⟩
      by_contra hno
      have hdoc : ∀ c ∈ name.toList, documented c := by
        intro c hc
        by_contra hnot
        exact hno ⟨c, hc, hnot⟩
      exact hrej.2 ⟨hdoc, hcond hrej.1 hdoc⟩
    · intro hill
      obtain ⟨hn, c, hc, hnot⟩ := hill
      exact ⟨hn, fun ha => hnot (ha.1 c hc)⟩

end Lookup

/-! ### Two calls -/

/-- `int` and `std::string`, as in a program that has variables of two types. -/
def twoTypes : Bool → Type
  | true => Int
  | false => String

instance : ∀ t, BEq (twoTypes t)
  | true => inferInstanceAs (BEq Int)
  | false => inferInstanceAs (BEq String)

/-- After a call for `"system.port"`, the same name is fixed for good. -/
theorem lookup_law_port :
    ∃ r : Registry twoTypes, r.datas "system.port" = some 0 ∧
      LookupLaw r false "system.port" ("8080" : String) "" := by
  have hreach : Reach (Registry.step (V := twoTypes)) (fun _ _ => True) Registry.empty
      (Registry.empty.lookup true "system.port" (8080 : Int) "port").1 :=
    .move (l := .lookup true "system.port" (8080 : Int) "port") .refl trivial rfl
  refine ⟨_, by decide +kernel, ((lookup_law_iff hreach).2 false "system.port" _ _).mpr ?_⟩
  intro _ _
  decide +kernel

/-- A documented name with a 9 is refused. -/
theorem lookup_refuses_nine :
    ¬∀ (r : Registry twoTypes), Reach Registry.step (fun _ _ => True) Registry.empty r →
      ∀ (t : Bool) (name : String) (d : twoTypes t) (desc : String), LookupLaw r t name d desc := by
  intro h
  have hthrows := (h Registry.empty .refl true "port9" (0 : Int) "").throws.mp (by decide +kernel)
  obtain ⟨-, c, hc, hnot⟩ := hthrows
  have htable : ("port9".toList.all fun c => decide (documented c)) = true := by decide +kernel
  have hdoc : documented c := by simpa using List.all_eq_true.mp htable c hc
  exact hnot hdoc

end LioNet.Config
