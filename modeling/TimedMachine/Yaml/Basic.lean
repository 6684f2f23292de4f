import TimedMachine.Yaml.Token

/-!
# YAML nodes

The nodes of a document: scalars, which are not read as truth values or numbers yet, sequences,
mappings and aliases. A mapping keeps its entries in order and may repeat a key, as it is for those
who use it to tell what a repeated key means. `Yaml.anchored` lists the nodes that an alias can
stand for.
-/

namespace TimedMachine

/-- What a node says about itself before its content. -/
structure Yaml.Properties where
  anchor : Option Nat := none
  tag : Option String := none
deriving DecidableEq, Repr, Inhabited

/-- A node. -/
inductive Yaml where
  | aliasOf (number : Nat)
  | scalar (properties : Yaml.Properties) (style : Yaml.Style) (text : String)
  | sequence (properties : Yaml.Properties) (items : List Yaml)
  | mapping (properties : Yaml.Properties) (entries : List (Yaml × Yaml))
deriving Inhabited

namespace Yaml

/-- The node where nothing is written: a plain scalar without text. -/
def empty (properties : Properties) : Yaml := scalar properties .plain ""

/-- A node with the number of its anchor, if it has one. -/
def Properties.named (p : Properties) (y : Yaml) : List (Nat × Yaml) :=
  (p.anchor.map (·, y)).toList

mutual

/-- The nodes with an anchor in a node, with the numbers of the anchors, in the order of the
text. -/
def anchored : Yaml → List (Nat × Yaml)
  | .aliasOf _ => []
  | .scalar p style text => p.named (.scalar p style text)
  | .sequence p items => p.named (.sequence p items) ++ anchoredItems items
  | .mapping p entries => p.named (.mapping p entries) ++ anchoredEntries entries

/-- The nodes with an anchor in some nodes. -/
def anchoredItems : List Yaml → List (Nat × Yaml)
  | [] => []
  | y :: ys => anchored y ++ anchoredItems ys

/-- The nodes with an anchor in the entries of a mapping. -/
def anchoredEntries : List (Yaml × Yaml) → List (Nat × Yaml)
  | [] => []
  | (k, v) :: es => anchored k ++ anchored v ++ anchoredEntries es

end

/-- The node that an alias stands for: the last one with its number. Other nodes stand for
themselves. -/
def resolve? (anchors : List (Nat × Yaml)) : Yaml → Option Yaml
  | .aliasOf n => anchors.reverse.lookup n
  | y => some y

end Yaml

end TimedMachine
