import Changeover.Yaml.Token

/-!
# Nodes of YAML

A document is a tree of scalars, sequences and mappings. An alias stands for the node with its
anchor; since that node may hold the alias itself, aliases stay in the tree and are looked up.
-/

namespace Changeover.Yaml

structure Properties where
  anchor : Option Nat := none
  tag : Option String := none
  deriving DecidableEq, Repr

inductive Node where
  | scalar (properties : Properties) (style : Style) (text : String)
  | sequence (properties : Properties) (items : List Node)
  | mapping (properties : Properties) (entries : List (Node × Node))
  | alias (anchor : Nat)
  deriving Repr

namespace Node

def empty (p : Properties := {}) : Node := .scalar p .plain ""

def isEmpty : Node → Bool
  | .scalar _ .plain text => text.isEmpty
  | _ => false

mutual

/-- The nodes that have an anchor, in the order in which they begin. -/
def anchored : Node → List (Nat × Node)
  | n@(.scalar p _ _) => (p.anchor.map (·, n)).toList
  | n@(.sequence p items) => (p.anchor.map (·, n)).toList ++ anchoredItems items
  | n@(.mapping p entries) => (p.anchor.map (·, n)).toList ++ anchoredEntries entries
  | .alias _ => []

def anchoredItems : List Node → List (Nat × Node)
  | [] => []
  | n :: ns => anchored n ++ anchoredItems ns

def anchoredEntries : List (Node × Node) → List (Nat × Node)
  | [] => []
  | (k, v) :: es => anchored k ++ anchored v ++ anchoredEntries es

end

end Node

structure Document where
  root : Node
  anchored : List (Nat × Node)

namespace Document

def ofNode (n : Node) : Document := ⟨n, n.anchored⟩

/-- What a node stands for: of the nodes with the anchor of an alias, the last. -/
def resolve (d : Document) : Node → Node
  | .alias n => (d.anchored.reverse.lookup n).getD (.alias n)
  | n => n

end Document

end Changeover.Yaml
