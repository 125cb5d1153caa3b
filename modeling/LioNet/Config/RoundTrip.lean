import LioNet.Config.LexicalCast
import Mathlib.Logic.Equiv.List
import Mathlib.Tactic.DeriveCountable

/-!
# Printing a value and parsing it

Every level of a value loads the text of its elements and emits their nodes again.  What yaml-cpp
emits it loads back, so only the strings at the leaves matter: a string in a container survives when
it is YAML text that is emitted as it was loaded.
-/

namespace LioNet.LexicalCast

/-! ### Integers -/

theorem digits_toDigits (n : Nat) (sign : Nat → Int) (i : Int32) (h : sign n = i.toInt) :
    parseInt.digits (Nat.toDigits 10 n) sign = some i := by
  have hne : Nat.toDigits 10 n ≠ [] := Nat.toDigits_ne_nil
  have hall : (Nat.toDigits 10 n).all Char.isDigit = true := by
    rw [List.all_eq_true]
    exact fun c hc => Nat.isDigit_of_mem_toDigits (by omega) (by omega) hc
  rw [parseInt.digits, if_pos ⟨hne, hall⟩]
  show (if _ ≤ sign (Nat.ofDigitChars 10 (Nat.toDigits 10 n) 0) ∧ _ then _ else _) = _
  rw [Nat.ofDigitChars_ten_toDigits, h, if_pos ⟨i.minValue_le_toInt, i.toInt_le⟩, Int32.ofInt_toInt]

/-- The text of a number is its digits, after a minus sign if it is negative. -/
theorem toString_toList (i : Int) :
    (i.toNat = i ∧ (toString i).toList = Nat.toDigits 10 i.toNat) ∨
      (∃ n : Nat, -(n : Int) = i ∧ (toString i).toList = '-' :: Nat.toDigits 10 n) := by
  cases i with
  | ofNat n =>
    left
    refine ⟨rfl, ?_⟩
    show (Nat.repr n).toList = _
    rw [Nat.toList_repr]
    rfl
  | negSucc n =>
    right
    refine ⟨n + 1, rfl, ?_⟩
    show ("-" ++ Nat.repr (n + 1)).toList = _
    rw [String.toList_append, Nat.toList_repr]
    rfl

/-- The digits of a number do not begin with a sign. -/
theorem toDigits_cons {n : Nat} {c : Char} {cs : List Char} (h : Nat.toDigits 10 n = c :: cs) :
    c ≠ '-' ∧ c ≠ '+' := by
  have hd : c.isDigit = true :=
    Nat.isDigit_of_mem_toDigits (by omega) (by omega) (h ▸ List.mem_cons_self)
  constructor
  · intro he
    rw [he] at hd
    exact absurd hd (by decide)
  · intro he
    rw [he] at hd
    exact absurd hd (by decide)

theorem parseInt_toString (i : Int32) : parseInt (toString i.toInt) = some i := by
  rcases toString_toList i.toInt with ⟨hi, htext⟩ | ⟨n, hn, htext⟩
  · have hd := digits_toDigits i.toInt.toNat (fun n => (n : Int)) i hi
    cases hds : Nat.toDigits 10 i.toInt.toNat with
    | nil => exact absurd hds Nat.toDigits_ne_nil
    | cons c cs =>
      obtain ⟨hminus, hplus⟩ := toDigits_cons hds
      rw [hds] at htext hd
      simp only [parseInt, htext]
      split
      · rename_i he
        exact absurd (List.cons.inj he).1 hminus
      · rename_i he
        exact absurd (List.cons.inj he).1 hplus
      · exact hd
  · simp only [parseInt, htext]
    exact digits_toDigits n (fun n => -(n : Int)) i hn

theorem decimal_toString (i : Int) : decimal (toString i) = true := by
  have hdigits : ∀ n, Nat.toDigits 10 n ≠ [] ∧ (Nat.toDigits 10 n).all Char.isDigit = true := by
    intro n
    refine ⟨Nat.toDigits_ne_nil, ?_⟩
    rw [List.all_eq_true]
    exact fun c hc => Nat.isDigit_of_mem_toDigits (by omega) (by omega) hc
  rcases toString_toList i with ⟨hi, htext⟩ | ⟨n, hn, htext⟩
  · cases hds : Nat.toDigits 10 i.toNat with
    | nil => exact absurd hds Nat.toDigits_ne_nil
    | cons c cs =>
      obtain ⟨hminus, -⟩ := toDigits_cons hds
      have hd := hdigits i.toNat
      rw [hds] at htext hd
      simp only [decimal, htext]
      split
      · rename_i he
        exact absurd (List.cons.inj he).1 hminus
      · exact decide_eq_true hd
  · simp only [decimal, htext]
    exact decide_eq_true (hdigits n)

/-! ### Sequences and maps in YAML text -/

theorem mapM_eq_some {α β : Type} {f : α → Option β} {l : List α} {k : List β} :
    l.mapM f = some k ↔ l.map f = k.map some := by
  induction l generalizing k with
  | nil =>
    cases k with
    | nil => simp
    | cons b k => simp
  | cons a l ih =>
    rw [List.mapM_cons, List.map_cons]
    cases hf : f a with
    | none =>
      cases k with
      | nil => simp
      | cons b k => simp
    | some b =>
      cases hl : l.mapM f with
      | none =>
        constructor
        · intro h
          cases h
        · intro h
          cases k with
          | nil => cases h
          | cons c k =>
            rw [ih.mpr (List.cons.inj h).2] at hl
            cases hl
      | some bs =>
        cases k with
        | nil => simp
        | cons c k =>
          show some (b :: bs) = some (c :: k) ↔ _
          rw [ih.mp hl, List.map_cons, Option.some_inj, List.cons.injEq, List.cons.injEq,
            Option.some_inj]
          refine and_congr_right fun _ => ?_
          exact (List.map_inj_right fun _ _ => Option.some.inj).symm

section Items

variable {Y : Api} {α : Type} {print : α → Option String} {parse : String → Option α}

/-- `x` is printed, loaded as a node, and read from the text of this node. -/
def Kept (Y : Api) (print : α → Option String) (parse : String → Option α) (x : α) : Prop :=
  ∃ node, (print x).bind Y.load = some node ∧ parse (Y.emit node) = some x

/-- The nodes of a list of elements. -/
theorem nodes_of_kept {v : List α} (h : ∀ x ∈ v, Kept Y print parse x) :
    ∃ items, v.mapM (fun x => (print x).bind Y.load) = some items ∧
      items.mapM (fun item => parse (Y.emit item)) = some v := by
  induction v with
  | nil => exact ⟨[], rfl, rfl⟩
  | cons x v ih =>
    obtain ⟨node, hload, hparse⟩ := h x List.mem_cons_self
    obtain ⟨items, hitems, hv⟩ := ih fun y hy => h y (List.mem_cons_of_mem x hy)
    refine ⟨node :: items, ?_, ?_⟩
    · rw [List.mapM_cons, hload, hitems]
      rfl
    · rw [List.mapM_cons, hparse, hv]
      rfl

/-- A sequence is read element by element. -/
theorem parseItems_of_load {text : String} {node : Y.Node} {items : List Y.Node}
    (hload : Y.load text = some node) (hsize : Y.size node = items.length)
    (hnth : ∀ i, Y.nth node i = items[i]?) :
    parseItems Y parse text = items.mapM fun item => parse (Y.emit item) := by
  have hrange : (List.range items.length).map
      (fun i => (items[i]?).bind fun item => parse (Y.emit item)) =
      items.map fun item => parse (Y.emit item) := by
    apply List.ext_getElem
    · simp
    · intro i h1 h2
      have hi : i < items.length := by simpa using h2
      simp [hi]
  rw [parseItems, hload, Option.bind_some, hsize]
  simp only [hnth]
  apply Option.ext
  intro k
  rw [mapM_eq_some, mapM_eq_some, hrange]

theorem parseEntries_of_load {text : String} {node : Y.Node} {entries : List (String × Y.Node)}
    (hload : Y.load text = some node) (hmembers : Y.members node = some entries) :
    parseEntries Y parse text =
      entries.mapM fun e => (parse (Y.emit e.2)).map fun x => ⟨e.1, x⟩ := by
  rw [parseEntries, hload, Option.bind_some, hmembers, Option.bind_some]

/-- A sequence that was built is read as it was built. -/
theorem parseItems_seq (hY : Y.Lawful) (items : List Y.Node) :
    parseItems Y parse (Y.emit (Y.seq items)) = items.mapM fun item => parse (Y.emit item) :=
  parseItems_of_load (hY.load_emit _) (hY.size_seq items) (hY.nth_seq items)

theorem printItems_kept (hY : Y.Lawful) {v : List α} (h : ∀ x ∈ v, Kept Y print parse x) :
    ∃ node, printItems Y print v = some (Y.emit node) ∧
      parseItems Y parse (Y.emit node) = some v := by
  obtain ⟨items, hitems, hv⟩ := nodes_of_kept h
  refine ⟨Y.seq items, ?_, ?_⟩
  · rw [printItems, hitems]
    rfl
  · rw [parseItems_seq hY, hv]

theorem printEntries_kept (hY : Y.Lawful) {v : List (Σ _ : String, α)}
    (hkeys : (v.map Sigma.fst).Nodup) (h : ∀ e ∈ v, Kept Y print parse e.2) :
    ∃ node, printEntries Y print v = some (Y.emit node) ∧
      parseEntries Y parse (Y.emit node) = some v := by
  have hnodes : ∃ entries : List (String × Y.Node),
      v.mapM (fun e => ((print e.2).bind Y.load).map fun node => (e.1, node)) = some entries ∧
      entries.map Prod.fst = v.map Sigma.fst ∧
      entries.mapM (fun e => (parse (Y.emit e.2)).map fun x => (⟨e.1, x⟩ : Σ _ : String, α)) =
        some v := by
    clear hkeys
    induction v with
    | nil => exact ⟨[], rfl, rfl, rfl⟩
    | cons e v ih =>
      obtain ⟨node, hload, hparse⟩ := h e List.mem_cons_self
      obtain ⟨entries, hentries, hfst, hv⟩ := ih fun y hy => h y (List.mem_cons_of_mem e hy)
      refine ⟨(e.1, node) :: entries, ?_, ?_, ?_⟩
      · rw [List.mapM_cons, hload, hentries]
        rfl
      · rw [List.map_cons, List.map_cons, hfst]
      · rw [List.mapM_cons, hparse, hv]
        rfl
  obtain ⟨entries, hentries, hfst, hv⟩ := hnodes
  refine ⟨Y.map entries, ?_, ?_⟩
  · rw [printEntries, hentries]
    rfl
  · rw [parseEntries_of_load (hY.load_emit _) (hY.members_map entries (by rw [hfst]; exact hkeys)), hv]

/-- Every element that was read was read from the text of a node. -/
theorem exists_node_of_parseItems {text : String} {v : List α}
    (h : parseItems Y parse text = some v) {x : α} (hx : x ∈ v) :
    ∃ node, parse (Y.emit node) = some x := by
  obtain ⟨root, -, hroot⟩ := Option.bind_eq_some_iff.mp h
  have hmem : some x ∈ v.map some := List.mem_map_of_mem hx
  rw [← mapM_eq_some.mp hroot] at hmem
  obtain ⟨i, -, hi⟩ := List.mem_map.mp hmem
  obtain ⟨node, -, hnode⟩ := Option.bind_eq_some_iff.mp hi
  exact ⟨node, hnode⟩

theorem exists_node_of_parseEntries {text : String} {v : List (Σ _ : String, α)}
    (h : parseEntries Y parse text = some v) {e : Σ _ : String, α} (he : e ∈ v) :
    ∃ node, parse (Y.emit node) = some e.2 := by
  obtain ⟨root, -, hroot⟩ := Option.bind_eq_some_iff.mp h
  obtain ⟨entries, -, hentries⟩ := Option.bind_eq_some_iff.mp hroot
  have hmem : some e ∈ v.map some := List.mem_map_of_mem he
  rw [← mapM_eq_some.mp hentries] at hmem
  obtain ⟨i, -, hi⟩ := List.mem_map.mp hmem
  obtain ⟨x, hx, hxe⟩ := Option.map_eq_some_iff.mp hi
  subst hxe
  exact ⟨i.2, hx⟩

end Items

/-! ### `insert` -/

section Insert

variable {α : Type}

theorem mem_insertItems [DecidableEq α] {xs : List α} {x : α} : x ∈ insertItems xs ↔ x ∈ xs := by
  have hfold : ∀ S : Finset α, x ∈ xs.foldl (fun S x => insert x S) S ↔ x ∈ S ∨ x ∈ xs := by
    induction xs with
    | nil => simp
    | cons y ys ih =>
      intro S
      rw [List.foldl_cons, ih, Finset.mem_insert, List.mem_cons]
      tauto
  rw [insertItems, hfold]
  simp

theorem insertItems_eq [DecidableEq α] {xs : List α} {S : Finset α}
    (h : (xs : Multiset α) = S.val) : insertItems xs = S := by
  ext x
  rw [mem_insertItems, ← Finset.mem_val, ← h, Multiset.mem_coe]

theorem lookup_insertEntries (es : List (Σ _ : String, α)) (k : String) :
    (insertEntries es).lookup k = es.dlookup k := by
  have hfold : ∀ m : Finmap fun _ : String => α,
      (es.foldl (fun m e => if e.1 ∈ m then m else m.insert e.1 e.2) m).lookup k =
        (m.lookup k).or (es.dlookup k) := by
    induction es with
    | nil => simp
    | cons e es ih =>
      intro m
      obtain ⟨k', x⟩ := e
      rw [List.foldl_cons, ih]
      by_cases hm : k' ∈ m
      · rw [if_pos hm]
        by_cases hk : k = k'
        · obtain ⟨y, hy⟩ := Finmap.mem_iff.mp hm
          rw [hk, hy]
          rfl
        · rw [List.dlookup_cons_ne es ⟨k', x⟩ hk]
      · rw [if_neg hm]
        by_cases hk : k = k'
        · subst hk
          rw [Finmap.lookup_insert, Finmap.lookup_eq_none.mpr hm, List.dlookup_cons_eq]
          rfl
        · rw [Finmap.lookup_insert_of_ne m hk, List.dlookup_cons_ne es ⟨k', x⟩ hk]
  rw [insertEntries, hfold, Finmap.lookup_empty]
  rfl

theorem insertEntries_eq {es : List (Σ _ : String, α)} {m : Finmap fun _ : String => α}
    (h : (es : Multiset (Σ _ : String, α)) = m.entries) : insertEntries es = m := by
  apply Finmap.ext_lookup
  intro k
  have hnd : es.NodupKeys := by
    rw [← Multiset.coe_nodupKeys, h]
    exact m.nodupKeys
  have hm : m = (⟨es, hnd⟩ : AList fun _ : String => α).toFinmap := by
    apply Finmap.ext
    exact h.symm
  rw [lookup_insertEntries, hm]
  rfl

end Insert

/-! ### The round trip -/

/-- The strings of a value.  The keys of a map are not among them. -/
def Ty.strings : (t : Ty) → t.Val → Set String
  | .int => fun _ => ∅
  | .string => fun s => {s}
  | .vector t | .list t => fun (v : List t.Val) => {s | ∃ x ∈ v, s ∈ t.strings x}
  | .set t | .unorderedSet t => fun (v : Finset t.Val) => {s | ∃ x ∈ v, s ∈ t.strings x}
  | .map t | .unorderedMap t => fun (v : Finmap fun _ : String => t.Val) =>
    {s | ∃ k x, v.lookup k = some x ∧ s ∈ t.strings x}

/-- The element type of a container. -/
def Ty.element? : Ty → Option Ty
  | .int | .string => none
  | .vector t | .list t | .set t | .unorderedSet t | .map t | .unorderedMap t => some t

/-- The strings that stand in a container. -/
def Ty.elements : (t : Ty) → t.Val → Set String
  | .int | .string => fun _ => ∅
  | t => t.strings

/-- The string is YAML text that is emitted as it was loaded. -/
def Canonical (Y : Api) (s : String) : Prop := ∃ node, Y.load s = some node ∧ Y.emit node = s

section RoundTrip

variable {Y : Api} {order : Orders}

/-- The entries of a map in some order: each key once, with its value. -/
theorem entries_spec {α : Type} {es : List (Σ _ : String, α)} {m : Finmap fun _ : String => α}
    (h : (es : Multiset (Σ _ : String, α)) = m.entries) :
    (es.map Sigma.fst).Nodup ∧ ∀ e ∈ es, m.lookup e.1 = some e.2 := by
  have hnd : es.NodupKeys := by
    rw [← Multiset.coe_nodupKeys, h]
    exact m.nodupKeys
  refine ⟨hnd, fun e he => ?_⟩
  rw [← insertEntries_eq h, lookup_insertEntries]
  exact (List.mem_dlookup_iff hnd).mpr he

/-- A container is printed as the text of a node, and read from it. -/
def Built (Y : Api) (order : Orders) (t : Ty) (v : t.Val) : Prop :=
  ∃ node, t.toString Y order v = some (Y.emit node) ∧ t.fromString Y (Y.emit node) = some v

theorem Built.kept (hY : Y.Lawful) {t : Ty} {v : t.Val} (h : Built Y order t v) :
    Kept Y (t.toString Y order) (t.fromString Y) v := by
  obtain ⟨node, hprint, hparse⟩ := h
  refine ⟨node, ?_, hparse⟩
  rw [hprint]
  exact hY.load_emit node

theorem Built.roundTrip {t : Ty} {v : t.Val} (h : Built Y order t v) :
    roundTrip Y order t v = some v := by
  obtain ⟨node, hprint, hparse⟩ := h
  rw [LexicalCast.roundTrip, hprint]
  exact hparse

/-- All strings of all values of the type that are canonical are kept. -/
def Keeps (Y : Api) (order : Orders) (t : Ty) : Prop :=
  ∀ v : t.Val, (∀ s ∈ t.strings v, Canonical Y s) →
    Kept Y (t.toString Y order) (t.fromString Y) v

/-- A set that is printed in some order. -/
theorem set_kept (hY : Y.Lawful) {t : Ty} (ht : Keeps Y order t) {xs : List t.Val}
    {v : Finset t.Val} (hxs : (xs : Multiset t.Val) = v.val)
    (hv : ∀ s ∈ (Ty.set t).strings v, Canonical Y s) :
    ∃ node, printItems Y (t.toString Y order) xs = some (Y.emit node) ∧
      (parseItems Y (t.fromString Y) (Y.emit node)).map insertItems = some v := by
  have hmem : ∀ x ∈ xs, x ∈ v := by
    intro x hx
    rw [← Finset.mem_val, ← hxs, Multiset.mem_coe]
    exact hx
  obtain ⟨node, hprint, hparse⟩ := printItems_kept hY fun x hx =>
    ht x fun s hs => hv s ⟨x, hmem x hx, hs⟩
  refine ⟨node, hprint, ?_⟩
  rw [hparse, Option.map_some, insertItems_eq hxs]

/-- A map that is printed in some order. -/
theorem map_kept (hY : Y.Lawful) {t : Ty} (ht : Keeps Y order t) {es : List (Σ _ : String, t.Val)}
    {v : Finmap fun _ : String => t.Val} (hes : (es : Multiset (Σ _ : String, t.Val)) = v.entries)
    (hv : ∀ s ∈ (Ty.map t).strings v, Canonical Y s) :
    ∃ node, printEntries Y (t.toString Y order) es = some (Y.emit node) ∧
      (parseEntries Y (t.fromString Y) (Y.emit node)).map insertEntries = some v := by
  obtain ⟨hkeys, hlookup⟩ := entries_spec hes
  obtain ⟨node, hprint, hparse⟩ := printEntries_kept hY hkeys fun e he =>
    ht e.2 fun s hs => hv s ⟨e.1, e.2, hlookup e he, hs⟩
  refine ⟨node, hprint, ?_⟩
  rw [hparse, Option.map_some, insertEntries_eq hes]

/-- **A container is built** if its strings are canonical and its elements are kept. -/
theorem built (hY : Y.Lawful) {c t : Ty} (hc : c.element? = some t) (ht : Keeps Y order t)
    (v : c.Val) (hv : ∀ s ∈ c.strings v, Canonical Y s) : Built Y order c v := by
  cases c with
  | int | string => cases hc
  | vector c | list c =>
    cases hc
    exact printItems_kept hY fun x hx => ht x fun s hs => hv s ⟨x, hx, hs⟩
  | set c =>
    cases hc
    exact set_kept hY ht (order.set_val t v) hv
  | unorderedSet c =>
    cases hc
    exact set_kept hY ht (order.unorderedSet_val t v) hv
  | map c =>
    cases hc
    exact map_kept hY ht (order.map_entries t v) hv
  | unorderedMap c =>
    cases hc
    exact map_kept hY ht (order.unorderedMap_entries t v) hv

/-- **Canonical strings are kept**, at every depth. -/
theorem keeps (hY : Y.Lawful) (t : Ty) : Keeps Y order t := by
  induction t with
  | int =>
    intro v _
    have hd := decimal_toString (Int32.toInt v)
    refine ⟨Y.scalar (toString (Int32.toInt v)), hY.load_decimal _ hd, ?_⟩
    rw [hY.emit_decimal _ hd]
    exact parseInt_toString v
  | string =>
    intro v hv
    obtain ⟨node, hload, hemit⟩ := hv v rfl
    exact ⟨node, hload, congrArg some hemit⟩
  | vector t ih | list t ih | set t ih | unorderedSet t ih | map t ih | unorderedMap t ih =>
    exact fun v hv => (built hY rfl ih v hv).kept hY

/-- A container that was read has canonical strings, if its elements have. -/
theorem canonical_of_items {α : Type} {parse : String → Option α} {strings : α → Set String}
    (ih : ∀ node x, parse (Y.emit node) = some x → ∀ s ∈ strings x, Canonical Y s)
    {text : String} {v : List α} (h : parseItems Y parse text = some v) {x : α} (hx : x ∈ v) :
    ∀ s ∈ strings x, Canonical Y s := by
  obtain ⟨node, hnode⟩ := exists_node_of_parseItems h hx
  exact ih node x hnode

theorem canonical_of_entries {α : Type} {parse : String → Option α} {strings : α → Set String}
    (ih : ∀ node x, parse (Y.emit node) = some x → ∀ s ∈ strings x, Canonical Y s)
    {text : String} {v : Finmap fun _ : String => α}
    (h : (parseEntries Y parse text).map insertEntries = some v) {k : String} {x : α}
    (hx : v.lookup k = some x) : ∀ s ∈ strings x, Canonical Y s := by
  obtain ⟨es, hes, hv⟩ := Option.map_eq_some_iff.mp h
  rw [← hv, lookup_insertEntries] at hx
  obtain ⟨node, hnode⟩ := exists_node_of_parseEntries hes (List.of_mem_dlookup hx)
  exact ih node x hnode

/-- What is read from the text of a node has canonical strings only: this text is canonical. -/
theorem canonical_of_parsed (hY : Y.Lawful) (t : Ty) :
    ∀ node (v : t.Val), t.fromString Y (Y.emit node) = some v →
      ∀ s ∈ t.strings v, Canonical Y s := by
  induction t with
  | int =>
    intro node v _ s hs
    cases hs
  | string =>
    intro node v h s hs
    have hv : Y.emit node = v := Option.some.inj h
    have hs' : s = v := hs
    rw [hs', ← hv]
    exact ⟨node, hY.load_emit node, rfl⟩
  | vector t ih | list t ih =>
    intro node v h s hs
    obtain ⟨x, hx, hs⟩ := hs
    exact canonical_of_items ih h hx s hs
  | set t ih | unorderedSet t ih =>
    intro node v h s hs
    obtain ⟨x, hx, hs⟩ := hs
    obtain ⟨xs, hxs, hv⟩ := Option.map_eq_some_iff.mp h
    rw [← hv] at hx
    exact canonical_of_items ih hxs (mem_insertItems.mp hx) s hs
  | map t ih | unorderedMap t ih =>
    intro node v h s hs
    obtain ⟨k, x, hx, hs⟩ := hs
    exact canonical_of_entries ih h hx s hs

/-- The text of a container is the text of a node. -/
theorem exists_node_of_toString {c t : Ty} (hc : c.element? = some t) {v : c.Val} {text : String}
    (h : c.toString Y order v = some text) : ∃ node, Y.emit node = text := by
  cases c with
  | int | string => cases hc
  | vector c | list c | set c | unorderedSet c =>
    obtain ⟨items, -, htext⟩ := Option.map_eq_some_iff.mp h
    exact ⟨Y.seq items, htext⟩
  | map c | unorderedMap c =>
    obtain ⟨entries, -, htext⟩ := Option.map_eq_some_iff.mp h
    exact ⟨Y.map entries, htext⟩

theorem canonical_of_roundTrip (hY : Y.Lawful) {c t : Ty} (hc : c.element? = some t) {v : c.Val}
    (h : roundTrip Y order c v = some v) : ∀ s ∈ c.strings v, Canonical Y s := by
  obtain ⟨text, hprint, hparse⟩ := Option.bind_eq_some_iff.mp h
  obtain ⟨node, hnode⟩ := exists_node_of_toString hc hprint
  rw [← hnode] at hparse
  exact canonical_of_parsed hY c node v hparse

/-- **A value survives printing and parsing exactly when the strings in its containers are canonical**
YAML text. -/
theorem roundTrip_iff (hY : Y.Lawful) (order : Orders) (t : Ty) (v : t.Val) :
    roundTrip Y order t v = some v ↔ ∀ s ∈ t.elements v, Canonical Y s := by
  cases t with
  | int =>
    constructor
    · intro _ s hs
      cases hs
    · intro _
      exact parseInt_toString v
  | string =>
    constructor
    · intro _ s hs
      cases hs
    · intro _
      rfl
  | vector t | list t | set t | unorderedSet t | map t | unorderedMap t =>
    exact ⟨canonical_of_roundTrip hY rfl, fun h => (built hY rfl (keeps hY t) v h).roundTrip⟩

end RoundTrip

/-! ### Two vectors of one string -/

local instance countableChar : Countable Char :=
  Function.Injective.countable (f := Char.toNat) fun _ _ h => Char.toNat_inj.mp h

local instance countableString : Countable String :=
  Function.Injective.countable (f := String.toList) fun _ _ h => String.toList_inj.mp h

/-- Documents as binary trees. -/
inductive Doc
  | null
  | scalar (text : String)
  | nil
  | item (first rest : Doc)
  | done
  | entry (key : String) (value rest : Doc)
  deriving Countable

namespace Doc

def size : Doc → Nat
  | .item _ rest => rest.size + 1
  | .entry _ _ rest => rest.size + 1
  | .null | .scalar _ | .nil | .done => 0

def nth : Doc → Nat → Option Doc
  | .item first _, 0 => some first
  | .item _ rest, i + 1 => rest.nth i
  | .null, _ | .scalar _, _ | .nil, _ | .done, _ | .entry _ _ _, _ => none

def members : Doc → Option (List (String × Doc))
  | .entry key value rest => rest.members.map fun es => (key, value) :: es
  | .done | .null | .scalar _ | .nil => some []
  | .item _ _ => none

/-- Scalars that are emitted without quotes. -/
def plain (s : String) : Bool := s.toList ≠ [] ∧ s.toList.all fun c => c.isAlphanum || c = '-'

noncomputable def code (d : Doc) : Nat := (exists_injective_nat Doc).choose d

theorem code_injective : Function.Injective code := (exists_injective_nat Doc).choose_spec

/-- The text of a document.  A number stands for the layout of the larger ones. -/
noncomputable def text : Doc → String
  | .null => "~"
  | .scalar s => if plain s then s else "\"" ++ s ++ "\""
  | .item .null .nil => "- ~"
  | .item (.scalar "a") .nil => "- a"
  | d => "!" ++ toString d.code

/-- `YAML::Load` on the texts of documents, and on the empty text. -/
noncomputable def load (s : String) : Option Doc :=
  if s = "" ∨ s = "~" then some null
  else if s = "- ~" then some (item null nil)
  else if s = "- a" then some (item (scalar "a") nil)
  else if plain s then some (scalar s)
  else
    match s.toList with
    | '"' :: rest => some (scalar (String.ofList rest.dropLast))
    | _ :: rest => Function.partialInv (fun d : Doc => (toString d.code).toList) rest
    | [] => none

def seq (items : List Doc) : Doc := items.foldr item nil

def map (entries : List (String × Doc)) : Doc :=
  entries.foldr (fun e rest => entry e.1 e.2 rest) done

theorem not_plain_of_head {s : String} {c : Char} (h : s.toList.head? = some c)
    (hc : (c.isAlphanum || decide (c = '-')) = false) : plain s = false := by
  unfold plain
  cases hs : s.toList with
  | nil =>
    rw [hs] at h
    cases h
  | cons a rest =>
    rw [hs] at h
    have ha : a = c := Option.some.inj h
    subst ha
    simp [hc]

/-- The number of a larger document is read back. -/
theorem load_code (d : Doc) : load ("!" ++ toString d.code) = some d := by
  have hlist : ("!" ++ toString d.code).toList = '!' :: (toString d.code).toList := by
    rw [String.toList_append]
    rfl
  have hne : ∀ s : String, s.toList.head? ≠ some '!' → "!" ++ toString d.code ≠ s := by
    intro s hs he
    rw [← he, hlist] at hs
    exact hs rfl
  have hplain : plain ("!" ++ toString d.code) = false :=
    not_plain_of_head (c := '!') (by rw [hlist]; rfl) (by decide)
  have hinj : Function.Injective fun d : Doc => (toString d.code).toList := by
    intro d e h
    have hdigits : Nat.toDigits 10 d.code = Nat.toDigits 10 e.code := by
      rw [← Nat.toList_repr, ← Nat.toList_repr]
      exact h
    apply code_injective
    rw [← Nat.ofDigitChars_ten_toDigits (n := d.code), hdigits, Nat.ofDigitChars_ten_toDigits]
  rw [load, if_neg (not_or.mpr ⟨hne "" (by decide), hne "~" (by decide)⟩),
    if_neg (hne "- ~" (by decide)), if_neg (hne "- a" (by decide)), hplain,
    if_neg Bool.false_ne_true, hlist]
  exact Function.partialInv_left hinj d

theorem load_scalar (s : String) : load (text (scalar s)) = some (scalar s) := by
  rw [text]
  cases hs : plain s with
  | true =>
    rw [if_pos rfl]
    have hne : ∀ t : String, plain t = false → s ≠ t := by
      intro t ht he
      rw [he, ht] at hs
      cases hs
    rw [load, if_neg (not_or.mpr ⟨hne "" (by decide +kernel), hne "~" (by decide +kernel)⟩),
      if_neg (hne "- ~" (by decide +kernel)), if_neg (hne "- a" (by decide +kernel)), if_pos hs]
  | false =>
    rw [if_neg Bool.false_ne_true]
    have hlist : ("\"" ++ s ++ "\"").toList = '"' :: (s.toList ++ ['"']) := by
      rw [String.toList_append, String.toList_append]
      rfl
    have hne : ∀ t : String, t.toList.head? ≠ some '"' → "\"" ++ s ++ "\"" ≠ t := by
      intro t ht he
      rw [← he, hlist] at ht
      exact ht rfl
    have hplain : plain ("\"" ++ s ++ "\"") = false :=
      not_plain_of_head (c := '"') (by rw [hlist]; rfl) (by decide)
    rw [load, if_neg (not_or.mpr ⟨hne "" (by decide), hne "~" (by decide)⟩),
      if_neg (hne "- ~" (by decide)), if_neg (hne "- a" (by decide)), hplain,
      if_neg Bool.false_ne_true, hlist]
    show some (scalar (String.ofList (s.toList ++ ['"']).dropLast)) = _
    rw [List.dropLast_concat, String.ofList_toList]

theorem load_text (d : Doc) : load d.text = some d := by
  unfold text
  split
  · rw [load, if_pos (.inr rfl)]
  · rename_i s
    exact load_scalar s
  · rw [load, if_neg (by decide), if_pos rfl]
  · rw [load, if_neg (by decide), if_neg (by decide), if_pos rfl]
  · exact load_code d

theorem plain_of_decimal {s : String} (h : decimal s = true) : plain s = true := by
  have hdigit : ∀ ds : List Char, ds.all Char.isDigit = true →
      (ds.all fun c => c.isAlphanum || c = '-') = true := by
    intro ds hds
    rw [List.all_eq_true] at hds ⊢
    intro c hc
    rw [Char.isAlphanum, hds c hc, Bool.or_true, Bool.true_or]
  unfold decimal at h
  unfold plain
  split at h
  · rename_i ds hs
    obtain ⟨-, hall⟩ := of_decide_eq_true h
    rw [hs]
    simpa using hdigit ds hall
  · obtain ⟨hne, hall⟩ := of_decide_eq_true h
    exact decide_eq_true ⟨hne, hdigit _ hall⟩

theorem size_seq (items : List Doc) : (seq items).size = items.length := by
  induction items with
  | nil => rfl
  | cons item items ih => exact congrArg (· + 1) ih

theorem nth_seq (items : List Doc) (i : Nat) : (seq items).nth i = items[i]? := by
  induction items generalizing i with
  | nil => rfl
  | cons item items ih =>
    cases i with
    | zero => rfl
    | succ i => exact ih i

theorem members_map (entries : List (String × Doc)) : (map entries).members = some entries := by
  induction entries with
  | nil => rfl
  | cons e entries ih =>
    show (map entries).members.map (fun es => e :: es) = _
    rw [ih]
    rfl

end Doc

/-- A YAML library that lays out small documents as yaml-cpp does. -/
noncomputable def docs : Api where
  Node := Doc
  load := Doc.load
  emit := Doc.text
  scalar := Doc.scalar
  seq := Doc.seq
  map := Doc.map
  size := Doc.size
  nth := Doc.nth
  members := Doc.members

theorem docs_lawful : docs.Lawful where
  load_emit := Doc.load_text
  load_decimal := fun s hs => by
    have h := Doc.load_scalar s
    rw [Doc.text, if_pos (Doc.plain_of_decimal hs)] at h
    exact h
  emit_decimal := fun _ hs => if_pos (Doc.plain_of_decimal hs)
  size_seq := Doc.size_seq
  nth_seq := Doc.nth_seq
  members_map := fun entries _ => Doc.members_map entries

/-- Some order for every container. -/
noncomputable def anyOrder : Orders where
  set _ S := S.toList
  unorderedSet _ S := S.toList
  map _ m := m.entries.toList
  unorderedMap _ m := m.entries.toList
  set_val _ S := Multiset.coe_toList S.val
  unorderedSet_val _ S := Multiset.coe_toList S.val
  map_entries _ m := Multiset.coe_toList m.entries
  unorderedMap_entries _ m := Multiset.coe_toList m.entries

/-- A vector of one string. -/
def single (s : String) : (Ty.vector .string).Val := ([s] : List String)

/-- The text `a` is a plain scalar. -/
theorem roundTrip_iff_plain :
    roundTrip docs anyOrder (.vector .string) (single "a") = some (single "a") := by
  refine (roundTrip_iff docs_lawful anyOrder (.vector .string) (single "a")).mpr ?_
  intro s hs
  obtain ⟨x, hx, hs⟩ := hs
  have hx' : x = "a" := List.mem_singleton.mp hx
  have hs' : s = x := hs
  subst hs' hx'
  have hplain : Doc.plain "a" = true := by decide +kernel
  have htext : Doc.text (.scalar "a") = "a" := by rw [Doc.text, if_pos hplain]
  refine ⟨Doc.scalar "a", ?_, htext⟩
  have h := Doc.load_scalar "a"
  rw [htext] at h
  exact h

/-- The empty text loads as a null node, which comes back as `~`. -/
theorem roundTrip_loses_empty :
    ¬∀ (Y : Api), Y.Lawful → ∀ (order : Orders) (t : Ty) (v : t.Val),
      roundTrip Y order t v = some v := by
  intro h
  have hround := h docs docs_lawful anyOrder (.vector .string) (single "")
  have hcanon := canonical_of_roundTrip docs_lawful rfl hround ""
    ⟨"", List.mem_singleton.mpr rfl, rfl⟩
  obtain ⟨node, hload, hemit⟩ := hcanon
  have hnull : Doc.load "" = some Doc.null := if_pos (.inl rfl)
  have hnode : Doc.null = node := Option.some.inj (hnull.symm.trans hload)
  rw [← hnode] at hemit
  exact absurd hemit (by decide)

end LioNet.LexicalCast
