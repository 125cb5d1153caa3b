import LioNet.Lib.Descent
import LioNet.Config.Load

/-!
# Documents with aliases

In a YAML document an alias denotes the anchored node itself.  What `YAML::Load` gives back is then no
tree but a finite graph, and a map may contain itself.  `ListAllMember` keeps no record of the nodes
it has been to.

A `Graph` says what each node holds, with the children by reference.  The recursion takes the depth
that it may use as an argument and has no result when this does not suffice, so "returns" is "has a
result for some depth".  **`listAllMember_returns_iff`** says on which documents it returns;
`listAllMember_tree` ties the recursion to the one of `Load.lean`, since a tree is a graph whose nodes
are its subtrees.
-/

namespace LioNet.Config

open LioNet.Lib LioNet.Yaml Relation

/-- What a node holds. -/
inductive Content (ι : Type)
  | null
  | scalar (text : String)
  | seq (items : List ι)
  | map (members : List (ι × ι))
  deriving Repr

/-- `YAML::Node::Scalar`. -/
def Content.scalarText {ι : Type} : Content ι → String
  | .scalar text => text
  | .null | .seq _ | .map _ => ""

def Content.members {ι : Type} : Content ι → List (ι × ι)
  | .map members => members
  | .null | .scalar _ | .seq _ => []

abbrev Graph (ι : Type) := ι → Content ι

section Code

variable {ι : Type}

/-- `ListAllMember`, and what it appends to `output`. -/
def Graph.listAllMember (g : Graph ι) : Nat → String → ι → Option (List (String × ι))
  | 0, _, _ => none
  | depth + 1, pre, n =>
    if accepted pre then do
      let below ← (g n).members.mapM fun m =>
        g.listAllMember depth (memberPath pre (g m.1).scalarText) m.2
      some ((pre, n) :: below.flatten)
    else some []

/-- The calls that `ListAllMember` makes from a call. -/
def Graph.calls (g : Graph ι) : String × ι → List (String × ι)
  | (pre, n) =>
    if accepted pre then (g n).members.map fun m => (memberPath pre (g m.1).scalarText, m.2) else []

/-- A map leads to its values, under keys whose text has accepted characters only. -/
def Graph.Leads (g : Graph ι) (n m : ι) : Prop :=
  ∃ key, (key, m) ∈ (g n).members ∧ accepted (g key).scalarText = true

end Code

section Returns

variable {ι : Type} {g : Graph ι} {depth : Nat} {pre : String} {n : ι}

theorem mapM_isSome {α β : Type} {f : α → Option β} {l : List α} :
    (l.mapM f).isSome = true ↔ ∀ a ∈ l, (f a).isSome = true := by
  induction l with
  | nil => simp
  | cons a l ih =>
    rw [List.mapM_cons, List.forall_mem_cons, ← ih]
    cases f a <;> cases l.mapM f <;> simp

/-- The recursion has a result when its calls nest no deeper than it may go. -/
theorem isSome_iff_within :
    (g.listAllMember depth pre n).isSome = true ↔ Within g.calls depth (pre, n) := by
  induction depth generalizing pre n with
  | zero => simp [Graph.listAllMember, Within]
  | succ depth ih =>
    rw [Graph.listAllMember, Within, Graph.calls]
    cases accepted pre with
    | false => simp
    | true =>
      have hsome : ∀ o : Option (List (List (String × ι))),
          (do let below ← o; some ((pre, n) :: below.flatten)).isSome = o.isSome := by
        intro o
        cases o <;> rfl
      rw [if_pos rfl, if_pos rfl, hsome, mapM_isSome, List.forall_mem_map]
      exact forall₂_congr fun m _ => ih

/-- A call with a rejected path returns at once. -/
theorem acc_calls_rejected (h : accepted pre = false) : Acc (fun b a => b ∈ g.calls a) (pre, n) := by
  refine .intro _ fun b hb => ?_
  rw [Graph.calls, h] at hb
  cases hb

theorem acc_calls_of_leads (h : Acc (fun b a => g.Leads a b) n) (pre : String) :
    Acc (fun b a => b ∈ g.calls a) (pre, n) := by
  induction h generalizing pre with
  | intro n _ ih =>
    cases hpre : accepted pre with
    | false => exact acc_calls_rejected hpre
    | true =>
      refine .intro _ fun b hb => ?_
      rw [Graph.calls, if_pos hpre] at hb
      obtain ⟨m, hm, rfl⟩ := List.mem_map.mp hb
      cases hkey : accepted (g m.1).scalarText with
      | false => exact acc_calls_rejected (by rw [accepted_memberPath hpre, hkey])
      | true => exact ih m.2 ⟨m.1, hm, hkey⟩ _

theorem acc_leads_of_calls {c : String × ι} (h : Acc (fun b a => b ∈ g.calls a) c)
    (hpre : accepted c.1 = true) : Acc (fun b a => g.Leads a b) c.2 := by
  induction h with
  | intro c _ ih =>
    refine .intro c.2 ?_
    rintro m ⟨key, hmem, hkey⟩
    refine ih (memberPath c.1 (g key).scalarText, m) ?_ ?_
    · rw [Graph.calls, if_pos hpre]
      exact List.mem_map_of_mem hmem
    · rw [accepted_memberPath hpre]
      exact hkey

/-- The paths grow with the depth, and they do not matter: the recursion is one on the nodes. -/
theorem returns_iff_acc : (∃ depth, (g.listAllMember depth pre n).isSome = true) ↔
    (accepted pre = true → Acc (fun b a => g.Leads a b) n) := by
  rw [exists_congr fun _ => isSome_iff_within, exists_within_iff]
  constructor
  · exact fun h hpre => acc_leads_of_calls h hpre
  · intro h
    cases hpre : accepted pre with
    | false => exact acc_calls_rejected hpre
    | true => exact acc_calls_of_leads (h hpre) pre

/-- **`ListAllMember` returns exactly when its node leads to no cycle**, or when its path is rejected. -/
theorem listAllMember_returns_iff [Fintype ι] (g : Graph ι) (pre : String) (n : ι) :
    (∃ depth, (g.listAllMember depth pre n).isSome = true) ↔
      (accepted pre = true → ∀ m, ReflTransGen g.Leads n m → ¬TransGen g.Leads m m) := by
  rw [returns_iff_acc]
  exact imp_congr_right fun _ => acc_iff_no_cycle

/-- A map with one member, whose value is an alias to the map. -/
def ownMember : Graph (Fin 2) := fun n => if n = 0 then .map [(1, 0)] else .scalar "a"

theorem not_listAllMember_returns :
    ¬∀ (ι : Type) [Fintype ι] (g : Graph ι) (pre : String) (n : ι),
      ∃ depth, (g.listAllMember depth pre n).isSome = true := by
  intro h
  have hacc := returns_iff_acc.mp (h (Fin 2) ownMember "" 0) (by decide)
  have hself : ownMember.Leads 0 0 := ⟨1, List.mem_singleton.mpr rfl, by decide +kernel⟩
  exact not_cycle_of_acc hacc .refl (.single hself)

end Returns

/-! ### Trees -/

/-- A tree as a graph: its nodes are its subtrees. -/
def content : Graph Node
  | .null => .null
  | .scalar text => .scalar text
  | .seq items => .seq items
  | .map members => .map members

theorem content_scalarText (node : Node) : (content node).scalarText = node.scalarText := by
  cases node <;> rfl

/-- What the recursion finds on a tree is what `Load.lean` says. -/
theorem listAllMember_content {depth : Nat} {pre : String} {node : Node} {out : List (String × Node)}
    (h : Graph.listAllMember content depth pre node = some out) : out = listAllMember pre node := by
  induction depth generalizing pre node out with
  | zero => cases h
  | succ depth ih =>
    have hmembers : ∀ (members : List (Node × Node)) (below : List (List (String × Node))),
        (members.mapM fun m => Graph.listAllMember content depth
          (memberPath pre (content m.1).scalarText) m.2) = some below →
        below.flatten = listMembers pre members := by
      intro members
      induction members with
      | nil =>
        intro below hb
        cases hb
        rfl
      | cons m members ihm =>
        intro below hb
        obtain ⟨key, value⟩ := m
        simp only [List.mapM_cons, Option.bind_eq_bind, Option.bind_eq_some_iff] at hb
        obtain ⟨first, hfirst, rest, hrest, hb⟩ := hb
        cases hb
        rw [List.flatten_cons, listMembers, ihm rest hrest, ih hfirst, content_scalarText]
    rw [Graph.listAllMember] at h
    cases ha : accepted pre with
    | false =>
      rw [ha] at h
      cases h
      cases node <;> simp [listAllMember, ha]
    | true =>
      rw [ha, if_pos rfl] at h
      obtain ⟨below, hb, he⟩ := Option.bind_eq_some_iff.mp h
      cases he
      cases node with
      | map members => simp only [listAllMember, ha, if_true, hmembers members below hb]
      | null | scalar | seq =>
        cases hb
        simp [listAllMember, ha]

/-- A tree leads to its proper subtrees. -/
theorem leads_sizeOf {n m : Node} (h : content.Leads n m) : sizeOf m < sizeOf n := by
  obtain ⟨key, hmem, -⟩ := h
  cases n with
  | map members =>
    have hlt := List.sizeOf_lt_of_mem (show (key, m) ∈ members from hmem)
    simp only [Prod.mk.sizeOf_spec] at hlt
    simp only [Node.map.sizeOf_spec]
    omega
  | null | scalar | seq => cases hmem

/-- **On a tree the recursion returns**, with the nodes that `Load.lean` lists. -/
theorem listAllMember_tree (pre : String) (node : Node) :
    ∃ depth, Graph.listAllMember content depth pre node = some (listAllMember pre node) := by
  have hwf : WellFounded fun b a => content.Leads a b :=
    Subrelation.wf (fun h => leads_sizeOf h) (measure (sizeOf : Node → Nat)).wf
  obtain ⟨depth, hd⟩ := returns_iff_acc.mpr fun _ => hwf.apply node
  obtain ⟨out, hout⟩ := Option.isSome_iff_exists.mp hd
  exact ⟨depth, by rw [hout, listAllMember_content hout]⟩

end LioNet.Config
