import Mathlib.Data.Finmap
import Mathlib.Data.Finset.Basic

/-!
# `LexicalCast`

The conversions of `config.h` between configuration values and YAML text, for the types built from
`int` and `std::string` by the six container templates.  A container prints each element, loads that
text as YAML, and emits the node it has built; it reads an element by emitting its node and parsing
this text.

yaml-cpp is a parameter, and so is the order in which a set or a map is iterated.  `none` stands for
an exception everywhere.
-/

namespace LioNet.LexicalCast

/-! ### yaml-cpp -/

/-- What the conversions use of yaml-cpp.  Nodes are taken up to what emitting them shows. -/
structure Api where
  Node : Type
  /-- `YAML::Load` -/
  load : String → Option Node
  /-- `ss << node` -/
  emit : Node → String
  scalar : String → Node
  /-- `Node(NodeType::Sequence)`, and `push_back` of each element -/
  seq : List Node → Node
  /-- `Node(NodeType::Map)`, and `node[key] = value` for each entry -/
  map : List (String × Node) → Node
  size : Node → Nat
  /-- `node[i]`, which throws when it is emitted and there is no such node -/
  nth : Node → Nat → Option Node
  /-- iteration: `it->first.Scalar()` and `it->second`, which throw on a sequence -/
  members : Node → Option (List (String × Node))

/-- Decimal digits, with or without a minus sign. -/
def decimal (s : String) : Bool :=
  match s.toList with
  | '-' :: ds => ds ≠ [] ∧ ds.all Char.isDigit
  | ds => ds ≠ [] ∧ ds.all Char.isDigit

/-- What is documented of yaml-cpp: emitted nodes load as they were, a number is a plain scalar, and
a node that was built has the children it was given. -/
structure Api.Lawful (Y : Api) : Prop where
  load_emit : ∀ node, Y.load (Y.emit node) = some node
  load_decimal : ∀ s, decimal s = true → Y.load s = some (Y.scalar s)
  emit_decimal : ∀ s, decimal s = true → Y.emit (Y.scalar s) = s
  size_seq : ∀ items, Y.size (Y.seq items) = items.length
  nth_seq : ∀ items i, Y.nth (Y.seq items) i = items[i]?
  members_map : ∀ entries, (entries.map Prod.fst).Nodup → Y.members (Y.map entries) = some entries

/-! ### The types -/

inductive Ty
  | int
  | string
  | vector (t : Ty)
  | list (t : Ty)
  | set (t : Ty)
  | unorderedSet (t : Ty)
  | map (t : Ty)
  | unorderedMap (t : Ty)
  deriving DecidableEq, Repr

/-- The values of a type: two sets are equal when they have the same elements, two maps when they have
the same entries. -/
def Ty.Val : Ty → Type
  | .int => Int32
  | .string => String
  | .vector t | .list t => List t.Val
  | .set t | .unorderedSet t => Finset t.Val
  | .map t | .unorderedMap t => Finmap fun _ : String => t.Val

instance Ty.decEq : (t : Ty) → DecidableEq t.Val
  | .int => inferInstanceAs (DecidableEq Int32)
  | .string => inferInstanceAs (DecidableEq String)
  | .vector t | .list t =>
    have := Ty.decEq t
    inferInstanceAs (DecidableEq (List t.Val))
  | .set t | .unorderedSet t =>
    have := Ty.decEq t
    inferInstanceAs (DecidableEq (Finset t.Val))
  | .map t | .unorderedMap t =>
    have := Ty.decEq t
    inferInstanceAs (DecidableEq (Finmap fun _ : String => t.Val))

/-- The orders in which the containers are iterated. -/
structure Orders where
  set : (t : Ty) → Finset t.Val → List t.Val
  unorderedSet : (t : Ty) → Finset t.Val → List t.Val
  map : (t : Ty) → (Finmap fun _ : String => t.Val) → List (Σ _ : String, t.Val)
  unorderedMap : (t : Ty) → (Finmap fun _ : String => t.Val) → List (Σ _ : String, t.Val)
  set_val : ∀ t S, (set t S : Multiset t.Val) = S.val
  unorderedSet_val : ∀ t S, (unorderedSet t S : Multiset t.Val) = S.val
  map_entries : ∀ t m, (map t m : Multiset (Σ _ : String, t.Val)) = m.entries
  unorderedMap_entries : ∀ t m, (unorderedMap t m : Multiset (Σ _ : String, t.Val)) = m.entries

/-! ### The conversions -/

/-- `boost::lexical_cast<int>`: a sign, digits, and nothing else; the number has to fit. -/
def parseInt (s : String) : Option Int32 :=
  match s.toList with
  | '-' :: ds => digits ds fun n => -(n : Int)
  | '+' :: ds => digits ds fun n => (n : Int)
  | ds => digits ds fun n => (n : Int)
where
  digits (ds : List Char) (sign : Nat → Int) : Option Int32 :=
    if ds ≠ [] ∧ ds.all Char.isDigit then
      let i := sign (Nat.ofDigitChars 10 ds 0)
      if Int32.minValue.toInt ≤ i ∧ i ≤ Int32.maxValue.toInt then some (.ofInt i) else none
    else none

section Casts

variable (Y : Api) {α : Type}

/-- The conversion of a sequence or a set to YAML text. -/
def printItems (print : α → Option String) (v : List α) : Option String :=
  (v.mapM fun x => (print x).bind Y.load).map fun items => Y.emit (Y.seq items)

/-- The conversion of a map to YAML text. -/
def printEntries (print : α → Option String) (v : List (Σ _ : String, α)) : Option String :=
  (v.mapM fun e => ((print e.2).bind Y.load).map fun node => (e.1, node)).map fun entries =>
    Y.emit (Y.map entries)

/-- The elements of a sequence or a set in YAML text. -/
def parseItems (parse : String → Option α) (v : String) : Option (List α) :=
  (Y.load v).bind fun node =>
    (List.range (Y.size node)).mapM fun i => (Y.nth node i).bind fun item => parse (Y.emit item)

/-- The entries of a map in YAML text. -/
def parseEntries (parse : String → Option α) (v : String) : Option (List (Σ _ : String, α)) :=
  (Y.load v).bind fun node => (Y.members node).bind fun entries =>
    entries.mapM fun e => (parse (Y.emit e.2)).map fun x => ⟨e.1, x⟩

/-- `insert`, which keeps the entry that is there. -/
def insertEntries (es : List (Σ _ : String, α)) : Finmap fun _ : String => α :=
  es.foldl (fun m e => if e.1 ∈ m then m else m.insert e.1 e.2) ∅

def insertItems [DecidableEq α] (xs : List α) : Finset α := xs.foldl (fun S x => insert x S) ∅

variable (order : Orders)

/-- `LexicalCast<T, std::string>`. -/
def Ty.toString : (t : Ty) → t.Val → Option String
  | .int => fun (v : Int32) => some (ToString.toString v.toInt)
  | .string => fun v => some v
  | .vector t | .list t => fun v => printItems Y t.toString v
  | .set t => fun v => printItems Y t.toString (order.set t v)
  | .unorderedSet t => fun v => printItems Y t.toString (order.unorderedSet t v)
  | .map t => fun v => printEntries Y t.toString (order.map t v)
  | .unorderedMap t => fun v => printEntries Y t.toString (order.unorderedMap t v)

/-- `LexicalCast<std::string, T>`. -/
def Ty.fromString : (t : Ty) → String → Option t.Val
  | .int => parseInt
  | .string => fun v => some v
  | .vector t | .list t => fun v => parseItems Y t.fromString v
  | .set t | .unorderedSet t => fun v => (parseItems Y t.fromString v).map insertItems
  | .map t | .unorderedMap t => fun v => (parseEntries Y t.fromString v).map insertEntries

/-- `LexicalCast<std::string, T>(LexicalCast<T, std::string>(v))`. -/
def roundTrip (t : Ty) (v : t.Val) : Option t.Val := (t.toString Y order v).bind (t.fromString Y)

end Casts

end LioNet.LexicalCast
