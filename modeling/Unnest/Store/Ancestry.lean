import Unnest.Store.Basic

/-! Climbing the links. A node is attached when its chain of containers reaches a root. Without a
cycle a chain is no longer than the store, so the climb is bounded by its size. In a cycle a climb
that is not bounded may go on forever; the bounded one stops there without having found anything. -/

namespace Unnest.Store

/-- The node and the containers above it, nearest first, at most `bound` of them. -/
def climb (s : Store) : Nat → NodeId → List NodeId
  | 0, _ => []
  | bound + 1, n => n :: ((s.parent? n).map (s.climb bound)).getD []

def lineage (s : Store) (n : NodeId) : List NodeId := s.climb s.size n

/-- Whether climbing from `n` reaches a root. -/
def reachesRoot (s : Store) (n : NodeId) : Bool := (s.lineage n).any s.isRoot

/-- Whether a container above `n` is a rule. -/
def isBelowRule (s : Store) (n : NodeId) : Bool := (s.lineage n).tail.any s.isRule

end Unnest.Store
