import Mathlib.Data.List.Basic

/-!
# YAML documents

The trees that `YAML::Load` gives back, as far as the program reads them.  A map keeps the order of
the document, and its keys are nodes.  Tags and the style of a scalar (plain or quoted) are not part
of the tree: the program asks a node for its kind, its text and its children only.
-/

namespace LioNet.Yaml

inductive Node
  | null
  | scalar (text : String)
  | seq (items : List Node)
  | map (members : List (Node × Node))
  deriving Repr

/-- `YAML::Node::Scalar`: the text of a scalar, and the empty string for any other node. -/
def Node.scalarText : Node → String
  | .scalar text => text
  | .null | .seq _ | .map _ => ""

end LioNet.Yaml
