import Mathlib.Data.List.Infix
import LioNet.Config.Registry
import LioNet.Yaml

/-!
# Loading a document into the registry

`ListAllMember` and `Config::LoadFromYaml` of `config.cc`.  The first flattens a document into the
list of its nodes with their paths, the second hands each node to the variable that its path names.

What a document says is stated on the document itself: `preorder` lists its nodes with the keys that
lead to them, `dotted` is the path that the keys spell, and `said` are the values that the nodes of
one name convert to.  `load_said` compares the two.
-/

namespace LioNet.Config

open LioNet.Lib LioNet.Yaml

/-! ### The code -/

/-- The path of a member, `prefix.empty() ? key : prefix + "." + key`. -/
def memberPath (pre key : String) : String := if pre = "" then key else pre ++ "." ++ key

mutual

/-- `ListAllMember`, and what it appends to `output`. -/
def listAllMember (pre : String) (node : Node) : List (String × Node) :=
  if accepted pre then
    (pre, node) ::
      match node with
      | .map members => listMembers pre members
      | _ => []
  else []

/-- The loop over the members of a map. -/
def listMembers (pre : String) : List (Node × Node) → List (String × Node)
  | [] => []
  | (key, value) :: rest =>
    listAllMember (memberPath pre key.scalarText) value ++ listMembers pre rest

end

section Load

variable {τ : Type} {V : τ → Type} [DecidableEq τ] [∀ t, BEq (V t)]
  (fromStr : (t : τ) → String → Option (V t)) (emit : Node → String)

/-- The text that a node gives `fromString`: a scalar its own, any other node what it is printed as. -/
def Node.text : Node → String
  | .scalar text => text
  | node => emit node

/-- `fromString` on a variable; a conversion that throws changes nothing. -/
def Registry.fromString (r : Registry V) (o : ObjId) (val : String) : Registry V :=
  match r.objects[o]? with
  | some x =>
    match fromStr x.type val with
    | some v => r.setValue o x.type v
    | none => r
  | none => r

/-- One turn of the loop over `all_nodes`. -/
def Registry.loadNode (r : Registry V) (i : String × Node) : Registry V :=
  if i.1 = "" then r
  else
    match r.datas (tolower i.1) with
    | some o => r.fromString fromStr o (Node.text emit i.2)
    | none => r

def Registry.loadFromYaml (r : Registry V) (root : Node) : Registry V :=
  (listAllMember "" root).foldl (fun r i => r.loadNode fromStr emit i) r

end Load

/-! ### The document -/

mutual

/-- The nodes of a document in preorder, each with the keys that lead to it from `keys` on. -/
def preorder (keys : List String) (node : Node) : List (List String × Node) :=
  (keys, node) ::
    match node with
    | .map members => preorderMembers keys members
    | _ => []

def preorderMembers (keys : List String) : List (Node × Node) → List (List String × Node)
  | [] => []
  | (key, value) :: rest =>
    preorder (keys ++ [key.scalarText]) value ++ preorderMembers keys rest

end

/-- The strings, with dots between them. -/
def joinDots : List String → String
  | [] => ""
  | [k] => k
  | k :: ks => k ++ "." ++ joinDots ks

/-- The path that keys spell: joined by dots, without the empty keys at the front. -/
def dotted (keys : List String) : String := joinDots (keys.dropWhile (· = ""))

/-- The path and the paths of all ancestors have accepted characters only. -/
def clean (keys : List String) : Bool := keys.inits.all fun ks => accepted (dotted ks)

/-- What a document says about `name`: the values that its nodes of this path convert to, in order. -/
def said {τ : Type} {V : τ → Type} (fromStr : (t : τ) → String → Option (V t)) (emit : Node → String)
    (t : τ) (name : String) (root : Node) : List (V t) :=
  (preorder [] root).filterMap fun i =>
    if clean i.1 ∧ dotted i.1 = name then fromStr t (Node.text emit i.2) else none

/-! ### Paths -/

theorem joinDots_snoc {k : String} {ks : List String} (h : ks ≠ []) :
    joinDots (ks ++ [k]) = joinDots ks ++ "." ++ k := by
  induction ks with
  | nil => exact absurd rfl h
  | cons a ks ih =>
    cases ks with
    | nil => rfl
    | cons b ks =>
      show a ++ "." ++ joinDots (b :: ks ++ [k]) = a ++ "." ++ joinDots (b :: ks) ++ "." ++ k
      rw [ih (List.cons_ne_nil b ks)]
      simp only [String.append_assoc]

theorem joinDots_ne {k : String} {ks : List String} (h : k ≠ "") : joinDots (k :: ks) ≠ "" := by
  cases ks with
  | nil => exact h
  | cons a ks =>
    show k ++ "." ++ joinDots (a :: ks) ≠ ""
    intro he
    have hlen := congrArg String.length he
    simp at hlen

/-- The code builds the path that the keys spell. -/
theorem dotted_snoc (ks : List String) (k : String) :
    dotted (ks ++ [k]) = memberPath (dotted ks) k := by
  unfold dotted memberPath
  rw [List.dropWhile_append]
  cases hd : ks.dropWhile (· = "") with
  | nil =>
    by_cases hk : k = ""
    · subst hk
      rfl
    · show joinDots ([k].dropWhile (· = "")) = k
      rw [List.dropWhile_cons_of_neg (by simpa using hk)]
      rfl
  | cons a as =>
    have hne : ks.dropWhile (· = "") ≠ [] := by
      rw [hd]
      exact List.cons_ne_nil a as
    have ha : a ≠ "" := by
      have hhead := List.head_dropWhile_not (· = "") hne
      simpa [hd] using hhead
    rw [if_neg (joinDots_ne ha), ← joinDots_snoc (List.cons_ne_nil a as)]
    rfl

/-- Below an accepted path the key decides. -/
theorem accepted_memberPath {pre key : String} (h : accepted pre = true) :
    accepted (memberPath pre key) = accepted key := by
  rw [Bool.eq_iff_iff]
  unfold memberPath
  split
  · rfl
  · rw [accepted_append, accepted_append]
    constructor
    · exact fun hk => hk.2
    · exact fun hk => ⟨⟨h, by decide +kernel⟩, hk⟩

theorem clean_iff {keys : List String} :
    clean keys = true ↔ ∀ ks, ks <+: keys → accepted (dotted ks) = true := by
  simp [clean, List.mem_inits]

mutual

/-- The keys of every node below `keys` begin with them. -/
theorem prefix_of_mem_preorder (keys : List String) :
    (node : Node) → ∀ i ∈ preorder keys node, keys <+: i.1
  | .null => fun i hi => by
    rw [List.mem_singleton.mp hi]
  | .scalar _ => fun i hi => by
    rw [List.mem_singleton.mp hi]
  | .seq _ => fun i hi => by
    rw [List.mem_singleton.mp hi]
  | .map members => fun i hi => by
    rcases List.mem_cons.mp hi with he | hm
    · rw [he]
    · exact prefix_of_mem_members keys members i hm

theorem prefix_of_mem_members (keys : List String) :
    (members : List (Node × Node)) → ∀ i ∈ preorderMembers keys members, keys <+: i.1
  | [] => fun i hi => by cases hi
  | (key, value) :: rest => fun i hi => by
    rcases List.mem_append.mp hi with hv | hr
    · exact (List.prefix_append keys _).trans (prefix_of_mem_preorder _ value i hv)
    · exact prefix_of_mem_members keys rest i hr

end

/-! ### `ListAllMember` -/

/-- The proper ancestors are clean. -/
def Below (keys : List String) : Prop :=
  ∀ ks, ks <+: keys → ks ≠ keys → accepted (dotted ks) = true

theorem Below.clean {keys : List String} (h : Below keys) (ha : accepted (dotted keys) = true) :
    clean keys = true := by
  rw [clean_iff]
  intro ks hks
  by_cases he : ks = keys
  · rw [he]
    exact ha
  · exact h ks hks he

theorem below_snoc {keys : List String} (h : clean keys = true) (k : String) :
    Below (keys ++ [k]) := by
  intro ks hks hne
  rcases List.prefix_concat_iff.mp hks with he | hp
  · exact absurd he hne
  · exact clean_iff.mp h ks hp

/-- Below a path that is not accepted no node is clean. -/
theorem filter_preorder_nil {keys : List String} (h : accepted (dotted keys) = false) (node : Node) :
    ((preorder keys node).filter fun i => clean i.1) = [] := by
  rw [List.filter_eq_nil_iff]
  intro i hi hc
  have hacc := clean_iff.mp hc keys (prefix_of_mem_preorder keys node i hi)
  rw [h] at hacc
  cases hacc

mutual

/-- **`ListAllMember` lists the nodes whose path is clean**, in preorder. -/
theorem listAllMember_eq (keys : List String) (hb : Below keys) (node : Node) :
    listAllMember (dotted keys) node =
      ((preorder keys node).filter fun i => clean i.1).map fun i => (dotted i.1, i.2) := by
  cases ha : accepted (dotted keys) with
  | false =>
    rw [filter_preorder_nil ha]
    cases node <;> simp [listAllMember, ha]
  | true =>
    have hc := hb.clean ha
    cases node with
    | map members =>
      have hrest := listMembers_eq keys hc members
      simp only [listAllMember, preorder, ha, if_true, List.filter_cons, hc, List.map_cons, hrest]
    | null | scalar | seq =>
      simp only [listAllMember, preorder, ha, if_true, List.filter_cons, hc, List.map_cons,
        List.filter_nil, List.map_nil]

theorem listMembers_eq (keys : List String) (hc : clean keys = true)
    (members : List (Node × Node)) : listMembers (dotted keys) members =
      ((preorderMembers keys members).filter fun i => clean i.1).map fun i => (dotted i.1, i.2) := by
  cases members with
  | nil => rfl
  | cons m rest =>
    obtain ⟨key, value⟩ := m
    rw [listMembers, preorderMembers, List.filter_append, List.map_append, ← dotted_snoc,
      listAllMember_eq (keys ++ [key.scalarText]) (below_snoc hc _) value,
      listMembers_eq keys hc rest]

end

/-! ### `LoadFromYaml` -/

section Said

variable {τ : Type} {V : τ → Type} [DecidableEq τ] [∀ t, BEq (V t)]
  {fromStr : (t : τ) → String → Option (V t)} {emit : Node → String} {r : Registry V}
  {name : String} {o : ObjId} {x : Object V}

/-- `fromString` is a `setValue`, or nothing. -/
theorem fromString_cases (fromStr : (t : τ) → String → Option (V t)) (r : Registry V) (o : ObjId)
    (val : String) :
    r.fromString fromStr o val = r ∨ ∃ t v, r.fromString fromStr o val = r.setValue o t v := by
  unfold Registry.fromString
  split
  · split
    · exact .inr ⟨_, _, rfl⟩
    · exact .inl rfl
  · exact .inl rfl

theorem loadNode_named (fromStr : (t : τ) → String → Option (V t)) (emit : Node → String)
    (h : r.Named) (i : String × Node) :
    (r.loadNode fromStr emit i).Named ∧ (r.loadNode fromStr emit i).datas = r.datas := by
  unfold Registry.loadNode
  split
  · exact ⟨h, rfl⟩
  · split
    · rename_i o ho
      rcases fromString_cases fromStr r o (Node.text emit i.2) with he | ⟨t, v, he⟩
      · rw [he]
        exact ⟨h, rfl⟩
      · rw [he]
        exact ⟨h.step (l := .setValue o t v) rfl, setValue_datas r o t v⟩
    · exact ⟨h, rfl⟩

/-- `fromString` on one variable leaves the others alone. -/
theorem fromString_other {o' : ObjId} (hne : o' ≠ o) (val : String) :
    (r.fromString fromStr o' val).objects[o]? = r.objects[o]? := by
  unfold Registry.fromString
  split
  · rename_i y hy
    split
    · simp only [Registry.setValue, hy, dite_true]
      exact List.getElem?_set_ne hne
    · rfl
  · rfl

omit [DecidableEq τ] [∀ t, BEq (V t)] in
/-- Two keys never lead to one variable. -/
theorem Registry.Named.inj (h : r.Named) {name' : String} (ho : r.datas name = some o)
    (ho' : r.datas name' = some o) : name = name' := by
  obtain ⟨y, hy, hyn⟩ := h ho
  obtain ⟨z, hz, hzn⟩ := h ho'
  have hyz : y = z := Option.some.inj (hy.symm.trans hz)
  rw [← hyn, hyz, hzn]

/-- One node: it leaves the variables of other names alone. -/
theorem loadNode_other (fromStr : (t : τ) → String → Option (V t)) (emit : Node → String)
    (h : r.Named) (ho : r.datas name = some o) {i : String × Node} (hi : accepted i.1 = true)
    (hne : i.1 ≠ name ∨ name = "") : (r.loadNode fromStr emit i).objects[o]? = r.objects[o]? := by
  rw [Registry.loadNode, tolower_of_accepted hi]
  split
  · rfl
  · rename_i hroot
    split
    · rename_i o' ho'
      refine fromString_other (fun e => ?_) _
      subst e
      have he : i.1 = name := h.inj ho' ho
      rcases hne with hne | hname
      · exact hne he
      · exact hroot (he.trans hname)
    · rfl

variable [∀ t, LawfulBEq (V t)]

theorem fromString_self (hx : r.objects[o]? = some x) (val : String) :
    (r.fromString fromStr o val).objects[o]? =
      some { x with val := (fromStr x.type val).getD x.val } := by
  have hlt : o < r.objects.length := (List.getElem?_eq_some_iff.mp hx).1
  cases hv : fromStr x.type val with
  | none =>
    simp only [Registry.fromString, hx, hv]
    rfl
  | some v =>
    simp only [Registry.fromString, hx, hv, Registry.setValue, dite_true]
    rw [List.getElem?_set_self hlt, Object.setValue_eq]
    rfl

/-- One node: it changes the variable that its path names, if it converts. -/
theorem loadNode_value (fromStr : (t : τ) → String → Option (V t)) (emit : Node → String)
    (h : r.Named) (hname : name ≠ "") (ho : r.datas name = some o)
    (hx : r.objects[o]? = some x) {i : String × Node} (hi : accepted i.1 = true) :
    (r.loadNode fromStr emit i).objects[o]? =
      some { x with val :=
        ((if i.1 = name then fromStr x.type (Node.text emit i.2) else none).getD x.val) } := by
  by_cases he : i.1 = name
  · rw [Registry.loadNode, tolower_of_accepted hi, if_neg (he ▸ hname), if_pos he, he, ho]
    exact fromString_self hx _
  · rw [if_neg he, loadNode_other fromStr emit h ho hi (.inl he)]
    exact hx

theorem foldl_loadNode (hname : name ≠ "") (l : List (String × Node))
    (hl : ∀ i ∈ l, accepted i.1 = true) (h : r.Named) (ho : r.datas name = some o)
    (hx : r.objects[o]? = some x) :
    (l.foldl (fun r i => r.loadNode fromStr emit i) r).objects[o]? =
      some { x with val :=
        (l.filterMap fun i =>
          if i.1 = name then fromStr x.type (Node.text emit i.2) else none).getLastD x.val } := by
  induction l generalizing r x with
  | nil => exact hx
  | cons i l ih =>
    obtain ⟨hN, hdatas⟩ := loadNode_named fromStr emit h i
    have hstep := loadNode_value fromStr emit h hname ho hx (hl i List.mem_cons_self)
    rw [List.foldl_cons, ih (fun j hj => hl j (List.mem_cons_of_mem i hj)) hN
      (by rw [hdatas]; exact ho) hstep]
    rw [List.filterMap_cons]
    cases hc : (if i.1 = name then fromStr x.type (Node.text emit i.2) else none) with
    | none => rfl
    | some v => simp only [Option.getD_some, List.getLastD_cons]

theorem listAllMember_root (root : Node) : listAllMember "" root =
    ((preorder [] root).filter fun i => clean i.1).map fun i => (dotted i.1, i.2) := by
  refine listAllMember_eq [] (fun ks hks hne => ?_) root
  exact absurd (List.prefix_nil.mp hks) hne

theorem accepted_of_listed {root : Node} {i : String × Node} (hi : i ∈ listAllMember "" root) :
    accepted i.1 = true := by
  rw [listAllMember_root] at hi
  obtain ⟨j, hj, he⟩ := List.mem_map.mp hi
  rw [← he]
  exact clean_iff.mp (List.mem_filter.mp hj).2 j.1 (List.prefix_refl _)

/-- A registry whose keys are its variables' names: the last value that the document says counts. -/
theorem Registry.Named.load (hN : r.Named) (root : Node) (hname : name ≠ "")
    (ho : r.datas name = some o) (hx : r.objects[o]? = some x) :
    (r.loadFromYaml fromStr emit root).objects[o]? =
      some { x with val := (said fromStr emit x.type name root).getLastD x.val } := by
  have hsaid : (listAllMember "" root).filterMap (fun i =>
      if i.1 = name then fromStr x.type (Node.text emit i.2) else none) =
      said fromStr emit x.type name root := by
    rw [listAllMember_root, List.filterMap_map, List.filterMap_filter]
    refine List.filterMap_congr fun i _ => ?_
    cases clean i.1 <;> simp
  rw [Registry.loadFromYaml, foldl_loadNode hname _ (fun _ => accepted_of_listed) hN ho hx, hsaid]

omit [∀ t, LawfulBEq (V t)] in
/-- A variable with the empty name is left alone. -/
theorem Registry.Named.load_root (hN : r.Named) (root : Node) (ho : r.datas "" = some o) :
    (r.loadFromYaml fromStr emit root).objects[o]? = r.objects[o]? := by
  have hacc : ∀ i ∈ listAllMember "" root, accepted i.1 = true := fun _ => accepted_of_listed
  unfold Registry.loadFromYaml
  generalize listAllMember "" root = l at hacc
  induction l generalizing r with
  | nil => rfl
  | cons i l ih =>
    obtain ⟨hN', hdatas⟩ := loadNode_named fromStr emit hN i
    rw [List.foldl_cons, ih hN' (by rw [hdatas]; exact ho) fun j hj => hacc j (List.mem_cons_of_mem i hj),
      loadNode_other fromStr emit hN ho (hacc i List.mem_cons_self) (.inr rfl)]

/-- **After `LoadFromYaml`, a variable holds the last value that the document says under its name**, or
what it held before if the document says none.  A variable with the empty name is left alone. -/
theorem load_said (h : Reach (Registry.step (V := V)) (fun _ _ => True) Registry.empty r)
    (root : Node) (ho : r.datas name = some o) (hx : r.objects[o]? = some x) :
    (name ≠ "" → (r.loadFromYaml fromStr emit root).objects[o]? =
        some { x with val := (said fromStr emit x.type name root).getLastD x.val }) ∧
      (name = "" → (r.loadFromYaml fromStr emit root).objects[o]? = some x) := by
  have hN : r.Named := Registry.Named.reach h
  refine ⟨fun hname => hN.load root hname ho hx, fun hname => ?_⟩
  subst hname
  rw [hN.load_root root ho, hx]

end Said

/-! ### Two documents -/

/-- The values of a registry whose variables are all strings. -/
abbrev strings : Unit → Type := fun _ => String

/-- `LexicalCast<std::string, std::string>`. -/
def asString (_ : Unit) (val : String) : Option (strings ()) := some val

/-- A map with two members. -/
def portDoc : Node :=
  .map [(.scalar "system", .map [(.scalar "port", .scalar "80")]),
    (.scalar "system.port", .scalar "8080")]

section Fresh

variable {τ : Type} {V : τ → Type} [DecidableEq τ] [∀ t, BEq (V t)]

/-- A further variable. -/
theorem lookup_next {r : Registry V}
    (h : Reach (Registry.step (V := V)) (fun _ _ => True) Registry.empty r) (t : τ) {name : String}
    (val : V t) (hn : r.datas name = none) (hacc : accepted name = true) :
    ∃ r' : Registry V, Reach (Registry.step (V := V)) (fun _ _ => True) Registry.empty r' ∧
      r'.datas = Function.update r.datas name (some r.objects.length) ∧
      r'.objects = r.objects ++ [⟨t, name, "", val⟩] := by
  refine ⟨(r.lookup t name val "").1, .move (l := .lookup t name val "") h trivial rfl, ?_, ?_⟩
  · rw [lookup_fresh hn, if_pos hacc]
  · rw [lookup_fresh hn, if_pos hacc]
    show r.objects ++ [Object.construct (V := V) t name val ""] = _
    rw [Object.construct, tolower_of_accepted hacc]

/-- One variable of a fresh registry. -/
theorem lookup_first (t : τ) (name : String) (val : V t) (h : accepted name = true) :
    ∃ r : Registry V, Reach (Registry.step (V := V)) (fun _ _ => True) Registry.empty r ∧
      r.datas name = some 0 ∧ r.objects[0]? = some ⟨t, name, "", val⟩ := by
  obtain ⟨r, hr, hdatas, hobjects⟩ := lookup_next .refl t val rfl h
  refine ⟨r, hr, ?_, ?_⟩
  · rw [hdatas]
    exact Function.update_self _ _ _
  · rw [hobjects]
    rfl

end Fresh

/-- Two nodes have the path `system.port`; the later one counts. -/
theorem load_said_port :
    ∃ r : Registry strings, r.datas "system.port" = some 0 ∧
      (r.loadFromYaml asString (fun _ => "~") portDoc).objects[0]? =
        some ⟨(), "system.port", "", "8080"⟩ := by
  obtain ⟨r, hr, ho, hx⟩ := lookup_first (V := strings) () "system.port" "1" (by decide +kernel)
  refine ⟨r, ho, ?_⟩
  have hsaid : said asString (fun _ => "~") () "system.port" portDoc = ["80", "8080"] := by
    decide +kernel
  rw [(load_said hr portDoc ho hx).1 (by decide)]
  show some (⟨(), "system.port", "",
    (said asString (fun _ => "~") () "system.port" portDoc).getLastD "1"⟩ : Object strings) = _
  rw [hsaid]
  rfl

/-- A variable with the empty name is left alone, whatever the root node says. -/
theorem load_skips_root :
    ¬∀ (r : Registry strings) (root : Node) (name : String) (o : ObjId) (x : Object strings),
      Reach Registry.step (fun _ _ => True) Registry.empty r → r.datas name = some o →
        r.objects[o]? = some x →
          (r.loadFromYaml asString (fun _ => "~") root).objects[o]? =
            some { x with val := (said asString (fun _ => "~") x.type name root).getLastD x.val } := by
  intro h
  obtain ⟨r, hr, ho, hx⟩ := lookup_first (V := strings) () "" "a" (by decide +kernel)
  have hclaim := h r (.scalar "b") "" 0 _ hr ho hx
  have hsame : r.loadFromYaml asString (fun _ => "~") (.scalar "b") = r := rfl
  rw [hsame, hx] at hclaim
  have hval : "a" = (said asString (fun _ => "~") () "" (.scalar "b")).getLastD "a" :=
    congrArg Object.val (Option.some.inj hclaim)
  exact absurd hval (by decide +kernel)

end LioNet.Config
