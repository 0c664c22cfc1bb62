import Mathlib.Data.List.Basic

/-!
Trees whose nodes have labels and keyed children, and the events of a traversal
in depth-first order: a leaf, the way down into a node and the way back up.
-/
namespace Keyed

mutual

inductive Tree (κ ι μ : Type) where
  | leaf (a : ι)
  | node (label : μ) (children : Forest κ ι μ)

inductive Forest (κ ι μ : Type) where
  | nil
  | cons (key : κ) (child : Tree κ ι μ) (rest : Forest κ ι μ)

end

inductive Event (κ ι μ : Type) where
  | leaf (key : κ) (a : ι)
  | enter (key : κ) (label : μ)
  | leave
deriving DecidableEq, Repr

variable {κ ι μ : Type}

def Forest.keys : Forest κ ι μ → List κ
  | .nil => []
  | .cons key _ rest => key :: rest.keys

mutual

def Tree.events (key : κ) : Tree κ ι μ → List (Event κ ι μ)
  | .leaf a => [.leaf key a]
  | .node label children => .enter key label :: (children.events ++ [.leave])

def Forest.events : Forest κ ι μ → List (Event κ ι μ)
  | .nil => []
  | .cons key child rest => child.events key ++ rest.events

end

mutual

/-- The number of nodes. -/
def Tree.nodes : Tree κ ι μ → Nat
  | .leaf _ => 0
  | .node _ children => children.nodes + 1

def Forest.nodes : Forest κ ι μ → Nat
  | .nil => 0
  | .cons _ child rest => child.nodes + rest.nodes

end

mutual

/-- The leaves, from first to last. -/
def Tree.leaves : Tree κ ι μ → List ι
  | .leaf a => [a]
  | .node _ children => children.leaves

def Forest.leaves : Forest κ ι μ → List ι
  | .nil => []
  | .cons _ child rest => child.leaves ++ rest.leaves

end

mutual

/-- The longest chain of nodes from the root down. -/
def Tree.depth : Tree κ ι μ → Nat
  | .leaf _ => 0
  | .node _ children => children.depth + 1

def Forest.depth : Forest κ ι μ → Nat
  | .nil => 0
  | .cons _ child rest => max child.depth rest.depth

end

mutual

/-- No node has a key twice. -/
def Tree.Unique : Tree κ ι μ → Prop
  | .leaf _ => True
  | .node _ children => children.keys.Nodup ∧ children.Unique

def Forest.Unique : Forest κ ι μ → Prop
  | .nil => True
  | .cons _ child rest => child.Unique ∧ rest.Unique

end

end Keyed
