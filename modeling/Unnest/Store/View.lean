import Unnest.Store.Edit
import Unnest.Tree.Print

/-! A node of a store seen as a tree, and a tree planted in a store. Without a cycle no branch is
longer than the store, so looking down is bounded by its size. -/

namespace Unnest.Store

variable {α : Type}

/-- The tree below `n`, labelled by the nodes, cut off below `bound` levels. -/
def view? (s : Store) : Nat → NodeId → Option (Tree NodeId)
  | 0, _ => none
  | bound + 1, n =>
    match s.get? n with
    | none => none
    | some (.leaf l) => some (.leaf n l)
    | some (.root cs) => some (.branch n .root (cs.filterMap (s.view? bound)))
    | some (.rule sel cs _) => some (.branch n (.rule sel) (cs.filterMap (s.view? bound)))
    | some (.atRule name params none _) => some (.statement n name params)
    | some (.atRule name params (some cs) _) =>
      some (.branch n (.atRule name params) (cs.filterMap (s.view? bound)))

def tree? (s : Store) (n : NodeId) : Option (Tree NodeId) := s.view? s.size n

def print (s : Store) (n : NodeId) : String := ((s.tree? n).map Tree.print).getD ""

/-- The rules below `n`, and `n` itself if it is one, parents before their nested rules. -/
def rulesUnder (s : Store) (n : NodeId) : List NodeId := ((s.tree? n).map Tree.rules).getD []

def nodesUnder (s : Store) (n : NodeId) : List NodeId := ((s.tree? n).map Tree.labels).getD []

mutual

/-- New nodes for a tree; each label is paired with the node it stands for. -/
def plant (s : Store) : Tree α → Tree (α × NodeId) × Store
  | .leaf a l =>
    let r := s.alloc (.leaf l)
    (.leaf (a, r.1) l, r.2)
  | .statement a name params =>
    let r := s.alloc (.atRule name params none none)
    (.statement (a, r.1) name params, r.2)
  | .branch a h ts =>
    let r := s.alloc (.ofHead h)
    let below := r.2.plantAll r.1 ts
    (.branch (a, r.1) h below.1, below.2)

/-- New nodes for a list of trees, at the end of the children of `p`. -/
def plantAll (s : Store) (p : NodeId) : List (Tree α) → List (Tree (α × NodeId)) × Store
  | [] => ([], s)
  | t :: ts =>
    let first := s.plant t
    let rest := (first.2.adopt p first.1.label.2 (· ++ [first.1.label.2])).plantAll p ts
    (first.1 :: rest.1, rest.2)

end

/-- A store that holds nothing but one document with the given top-level trees, and the document's
root. -/
def ofTrees (ts : List (Tree α)) : NodeId × Store :=
  let root := empty.alloc (.root [])
  (root.1, (root.2.plantAll root.1 ts).2)

def topTrees (s : Store) (n : NodeId) : List (Tree NodeId) :=
  (s.children n).filterMap s.tree?

end Unnest.Store
