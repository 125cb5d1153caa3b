import LioNet.Config.LetterCase
import LioNet.Config.WrongShape

/-!
# One scalar, handed over in two ways

`LoadFromYaml` gives a variable the text of a scalar node as it is.  A container gets its node as YAML
text, loads it, and converts each element from what the element is emitted as.  For a string this makes
a difference: a scalar that cannot stand in YAML without quotes keeps them in a container.

`Library` is yaml-cpp on the trees of `Yaml.lean`, `Library.api` what `LexicalCast.lean` asks of it.
**`same_scalar_iff`** compares a string variable and a container of strings that one document gives the
same scalar.
-/

namespace LioNet.Config

open LioNet.Lib LioNet.Yaml LioNet.LexicalCast

structure Library where
  load : String → Option Node
  emit : Node → String
  /-- `node[i]` on a map -/
  find : List (Node × Node) → Nat → Option Node

def Library.api (L : Library) : Api where
  Node := Node
  load := L.load
  emit := L.emit
  scalar := .scalar
  seq := .seq
  map entries := .map (entries.map fun e => (.scalar e.1, e.2))
  size
    | .seq items => items.length
    | .map members => members.length
    | .null | .scalar _ => 0
  nth
    | .seq items, i => items[i]?
    | .map members, i => L.find members i
    | .null, _ | .scalar _, _ => none
  members
    | .map members => some (members.map fun m => (m.1.scalarText, m.2))
    | .seq items => if items.isEmpty then some [] else none
    | .null | .scalar _ => some []

/-- What is documented of emitting a scalar: plain text stands as it is, other text is quoted. -/
structure Library.Quotes (L : Library) (plain : String → Bool) (quoted : String → String) : Prop where
  emit_scalar : ∀ s, L.emit (.scalar s) = if plain s then s else quoted s
  quoted_ne : ∀ s, quoted s ≠ s

/-- The last node of a document at a path. -/
def lastAt (name : String) (root : Node) : Option Node :=
  ((preorder [] root).filter fun i => clean i.1 ∧ dotted i.1 = name).getLast?.map Prod.snd

/-- The node gives a container the elements `s` and no others. -/
def Filled (s : String) : Container → Node → Prop
  | .vector, .seq items | .list, .seq items | .set, .seq items | .unorderedSet, .seq items =>
    items ≠ [] ∧ ∀ item ∈ items, item = .scalar s
  | .map, .map members | .unorderedMap, .map members => members ≠ [] ∧ ∀ m ∈ members, m.2 = .scalar s
  | _, _ => False

/-- The strings that a variable holds. -/
def Object.strings (x : Object Ty.Val) : Set String := x.type.strings x.val

/-- Both variables hold `s` and nothing else. -/
def StoresSame (r : Registry Ty.Val) (oa ob : ObjId) (s : String) : Prop :=
  (r.objects[oa]?).map Object.strings = some {s} ∧ (r.objects[ob]?).map Object.strings = some {s}

section Load

variable {L : Library} {s : String} {node root : Node} {t : Ty}

/-- A node that converts counts if it is the last one. -/
theorem said_of_last {name : String} {v : t.Val} (hlast : lastAt name root = some node)
    (hv : t.fromString L.api (Node.text L.emit node) = some v) (d : t.Val) :
    (said (fun t => t.fromString L.api) L.emit t name root).getLastD d = v := by
  obtain ⟨i, hi, rfl⟩ := Option.map_eq_some_iff.mp hlast
  obtain ⟨pre, hpre⟩ := List.getLast?_eq_some_iff.mp hi
  rw [said_eq, texts, hpre, List.map_append, List.filterMap_append, List.map_singleton,
    List.filterMap_cons_some hv, List.filterMap_nil, List.getLastD_concat]

/-- The elements of a sequence of strings, as they arrive. -/
theorem parse_seq {items : List Node} (hload : L.load (L.emit (.seq items)) = some (.seq items)) :
    parseItems L.api (Ty.string.fromString L.api) (L.emit (.seq items)) =
      some (items.map L.emit) := by
  have hparse : parseItems L.api (Ty.string.fromString L.api) (L.emit (.seq items)) =
      items.mapM fun item => Ty.string.fromString L.api (L.emit item) :=
    parseItems_of_load hload rfl fun _ => rfl
  rw [hparse]
  exact mapM_eq_some.mpr (List.map_map ..).symm

theorem parse_map {members : List (Node × Node)}
    (hload : L.load (L.emit (.map members)) = some (.map members)) :
    parseEntries L.api (Ty.string.fromString L.api) (L.emit (.map members)) =
      some (members.map fun m => ⟨m.1.scalarText, L.emit m.2⟩) := by
  have hparse : parseEntries L.api (Ty.string.fromString L.api) (L.emit (.map members)) =
      (members.map fun m => (m.1.scalarText, m.2)).mapM fun e =>
        (Ty.string.fromString L.api (L.emit e.2)).map fun x => ⟨e.1, x⟩ :=
    parseEntries_of_load hload rfl
  rw [hparse, mapM_eq_some, List.map_map, List.map_map]
  rfl

/-- The elements of a sequence of one value. -/
theorem exists_mem_iff {α : Type} {l : List α} {x y : α} (hne : l ≠ []) (hall : ∀ z ∈ l, z = x) :
    (∃ z ∈ l, y = z) ↔ y = x := by
  constructor
  · rintro ⟨z, hz, rfl⟩
    exact hall y hz
  · rintro rfl
    obtain ⟨z, hz⟩ := List.exists_mem_of_ne_nil l hne
    exact ⟨z, hz, (hall z hz).symm⟩

/-- The values of a map whose entries all have one value. -/
theorem exists_lookup_iff {α : Type} {es : List (Σ _ : String, α)} {x y : α} (hne : es ≠ [])
    (hall : ∀ e ∈ es, e.2 = x) :
    (∃ k z, (insertEntries es).lookup k = some z ∧ y = z) ↔ y = x := by
  constructor
  · rintro ⟨k, z, hk, rfl⟩
    rw [lookup_insertEntries] at hk
    exact hall ⟨k, y⟩ (List.of_mem_dlookup hk)
  · rintro rfl
    -- the first entry stays
    cases es with
    | nil => exact absurd rfl hne
    | cons e es =>
      refine ⟨e.1, e.2, ?_, (hall e List.mem_cons_self).symm⟩
      rw [lookup_insertEntries]
      exact List.dlookup_cons_eq es e.1 e.2

/-- **A container of strings gets its elements as they are emitted.** -/
theorem fromString_filled {c : Container} (hfill : Filled s c node)
    (hload : L.load (L.emit node) = some node) :
    ∃ v, (c.ty .string).fromString L.api (L.emit node) = some v ∧
      ∀ str, str ∈ (c.ty .string).strings v ↔ str = L.emit (.scalar s) := by
  have hitems : ∀ {items : List Node}, items ≠ [] ∧ (∀ item ∈ items, item = .scalar s) →
      items.map L.emit ≠ [] ∧ ∀ z ∈ items.map L.emit, z = L.emit (.scalar s) := by
    rintro items ⟨hne, hall⟩
    refine ⟨by simpa using hne, List.forall_mem_map.mpr fun item hi => ?_⟩
    rw [hall item hi]
  cases c with
  | vector | list =>
    cases node with
    | seq items =>
      obtain ⟨hne, hall⟩ := hitems hfill
      exact ⟨_, parse_seq hload, fun str => exists_mem_iff hne hall⟩
    | null | scalar | map => exact hfill.elim
  | set | unorderedSet =>
    cases node with
    | seq items =>
      obtain ⟨hne, hall⟩ := hitems hfill
      refine ⟨_, congrArg (Option.map insertItems) (parse_seq hload), fun str => ?_⟩
      refine Iff.trans ?_ (exists_mem_iff hne hall)
      exact exists_congr fun x => and_congr_left' mem_insertItems
    | null | scalar | map => exact hfill.elim
  | map | unorderedMap =>
    cases node with
    | map members =>
      obtain ⟨hne, hall⟩ := hfill
      refine ⟨_, congrArg (Option.map insertEntries) (parse_map hload), fun str => ?_⟩
      refine exists_lookup_iff (by simpa using hne) (List.forall_mem_map.mpr fun m hm => ?_)
      exact congrArg L.emit (hall m hm)
    | null | scalar | seq => exact hfill.elim

section Stored

variable {plain : String → Bool} {quoted : String → String} {r : Registry Ty.Val} {a b : String}
  {oa ob : ObjId} {xa xb : Object Ty.Val} {c : Container}

theorem text_of_filled (emit : Node → String) (hfill : Filled s c node) :
    Node.text emit node = emit node := by
  cases node with
  | scalar => cases c <;> exact hfill.elim
  | null | seq | map => rfl

/-- A plain scalar, and no other, is emitted as it is. -/
theorem emit_scalar_iff (hL : L.Quotes plain quoted) : L.emit (.scalar s) = s ↔ plain s = true := by
  rw [hL.emit_scalar]
  cases plain s with
  | true => simp
  | false => simp [hL.quoted_ne s]

/-- Both hold the scalar's text when the scalar is emitted as it is. -/
theorem storesSame_iff
    (h : Reach (Registry.step (V := Ty.Val)) (fun _ _ => True) Registry.empty r)
    (ha : r.datas a = some oa) (hxa : r.objects[oa]? = some xa) (hta : xa.type = .string)
    (hb : r.datas b = some ob) (hxb : r.objects[ob]? = some xb) (htb : xb.type = c.ty .string)
    (ha₀ : a ≠ "") (hb₀ : b ≠ "") (hga : lastAt a root = some (.scalar s))
    (hgb : lastAt b root = some node) (hfill : Filled s c node)
    (hload : L.load (L.emit node) = some node) :
    StoresSame (r.loadFromYaml (fun t => t.fromString L.api) L.emit root) oa ob s ↔
      L.emit (.scalar s) = s := by
  have hN : r.Named := Registry.Named.reach h
  obtain ⟨v, hv, hstrings⟩ := fromString_filled hfill hload
  rw [← text_of_filled L.emit hfill] at hv
  obtain ⟨ta, na, da, va⟩ := xa
  obtain ⟨tb, nb, db, vb⟩ := xb
  obtain rfl : ta = .string := hta
  obtain rfl : tb = c.ty .string := htb
  have hset : Object.strings ⟨c.ty .string, nb, db, v⟩ = {L.emit (.scalar s)} := Set.ext hstrings
  unfold StoresSame
  rw [hN.load root ha₀ ha hxa, hN.load root hb₀ hb hxb, said_of_last hga rfl, said_of_last hgb hv,
    Option.map_some, Option.map_some, hset]
  constructor
  · intro hsame
    exact Set.singleton_injective (Option.some.inj hsame.2)
  · intro he
    exact ⟨rfl, by rw [he]⟩

/-- **The string variable and the container hold the same string exactly when the scalar is plain.** -/
theorem same_scalar_iff (hL : L.Quotes plain quoted)
    (h : Reach (Registry.step (V := Ty.Val)) (fun _ _ => True) Registry.empty r)
    (ha : r.datas a = some oa) (hxa : r.objects[oa]? = some xa) (hta : xa.type = .string)
    (hb : r.datas b = some ob) (hxb : r.objects[ob]? = some xb) (htb : xb.type = c.ty .string)
    (ha₀ : a ≠ "") (hb₀ : b ≠ "") (hga : lastAt a root = some (.scalar s))
    (hgb : lastAt b root = some node) (hfill : Filled s c node)
    (hload : L.load (L.emit node) = some node) :
    StoresSame (r.loadFromYaml (fun t => t.fromString L.api) L.emit root) oa ob s ↔
      plain s = true := by
  rw [storesSame_iff h ha hxa hta hb hxb htb ha₀ hb₀ hga hgb hfill hload, emit_scalar_iff hL]

end Stored

end Load

/-! ### A name and a list of one name -/

def quote (s : String) : String := "\"" ++ s ++ "\""

/-- Scalars and sequences of one scalar. -/
def flat : Library where
  load s :=
    if s = "- a" then some (.seq [.scalar "a"])
    else if s = "- \"\"" then some (.seq [.scalar ""])
    else if Doc.plain s then some (.scalar s)
    else none
  emit
    | .scalar s => if Doc.plain s then s else quote s
    | .seq [.scalar s] => "- " ++ (if Doc.plain s then s else quote s)
    | _ => "~"
  find _ _ := none

theorem flat_quotes : flat.Quotes Doc.plain quote where
  emit_scalar _ := rfl
  quoted_ne s he := by
    have hlen : (quote s).length = s.length := congrArg String.length he
    rw [quote, String.length_append, String.length_append] at hlen
    have hone : "\"".length = 1 := rfl
    omega

/-- The document `{name: s, names: [s]}`. -/
def nameDoc (s : String) : Node :=
  .map [(.scalar "name", .scalar s), (.scalar "names", .seq [.scalar s])]

/-- A registry with the two variables. -/
theorem lookup_two :
    ∃ r : Registry Ty.Val, Reach (Registry.step (V := Ty.Val)) (fun _ _ => True) Registry.empty r ∧
      r.datas "name" = some 0 ∧ r.objects[0]? = some ⟨.string, "name", "", ""⟩ ∧
      r.datas "names" = some 1 ∧
      r.objects[1]? = some ⟨.vector .string, "names", "", ([] : List String)⟩ := by
  have hempty : (Registry.empty : Registry Ty.Val).datas "name" = none := rfl
  obtain ⟨r, hr, hdatas, hobjects⟩ := lookup_next .refl .string ("" : String) hempty
    (by decide +kernel)
  have hfree : r.datas "names" = none := by
    rw [hdatas]
    rfl
  obtain ⟨r', hr', hdatas', hobjects'⟩ := lookup_next hr (.vector .string) ([] : List String) hfree
    (by decide +kernel)
  refine ⟨r', hr', ?_, ?_, ?_, ?_⟩
  · rw [hdatas', hdatas]
    rfl
  · rw [hobjects', hobjects]
    rfl
  · rw [hdatas', hobjects]
    rfl
  · rw [hobjects', hobjects]
    rfl

theorem same_scalar_iff_plain :
    ∃ r : Registry Ty.Val, r.datas "name" = some 0 ∧ r.datas "names" = some 1 ∧
      (StoresSame (r.loadFromYaml (fun t => t.fromString flat.api) flat.emit (nameDoc "a")) 0 1 "a" ↔
        Doc.plain "a" = true) := by
  obtain ⟨r, hr, ha, hxa, hb, hxb⟩ := lookup_two
  have hfill : Filled "a" .vector (.seq [.scalar "a"]) := ⟨by simp, by simp⟩
  exact ⟨r, ha, hb, same_scalar_iff flat_quotes hr ha hxa rfl hb hxb rfl (by decide) (by decide) rfl rfl
    hfill rfl⟩

/-- The empty string arrives as two quotation marks in the list. -/
theorem not_same_scalar :
    ¬∀ (L : Library) (plain : String → Bool) (quoted : String → String), L.Quotes plain quoted →
      ∀ (r : Registry Ty.Val) (a b : String) (oa ob : ObjId) (xa xb : Object Ty.Val) (c : Container)
        (s : String) (node root : Node),
        Reach (Registry.step (V := Ty.Val)) (fun _ _ => True) Registry.empty r →
        r.datas a = some oa → r.objects[oa]? = some xa → xa.type = .string →
        r.datas b = some ob → r.objects[ob]? = some xb → xb.type = c.ty .string →
        a ≠ "" → b ≠ "" → lastAt a root = some (.scalar s) → lastAt b root = some node →
        Filled s c node → L.load (L.emit node) = some node →
          StoresSame (r.loadFromYaml (fun t => t.fromString L.api) L.emit root) oa ob s := by
  intro h
  obtain ⟨r, hr, ha, hxa, hb, hxb⟩ := lookup_two
  have hfill : Filled "" .vector (.seq [.scalar ""]) := ⟨by simp, by simp⟩
  have hload : flat.load (flat.emit (.seq [.scalar ""])) = some (.seq [.scalar ""]) := rfl
  have hsame := h flat Doc.plain quote flat_quotes r "name" "names" 0 1 _ _ .vector "" _ (nameDoc "") hr
    ha hxa rfl hb hxb rfl (by decide) (by decide) rfl rfl hfill hload
  have hemit := (storesSame_iff hr ha hxa rfl hb hxb rfl (by decide) (by decide) rfl rfl hfill
    hload).mp hsame
  exact absurd hemit (by decide)

end LioNet.Config
