import Unnest.Store.View

/-! Giving up nodes that nothing holds any more. A node stays as long as it is held or lies below
a held node; links do not hold. -/

namespace Unnest.Store

/-- Only the nodes in `kept` stay. -/
def restrict (s : Store) (kept : List NodeId) : Store :=
  ⟨s.cells.mapIdx fun n x => if kept.contains n then x else none⟩

/-- Gives up every node that is neither in `held` nor below a node of `held`. -/
def reclaim (s : Store) (held : List NodeId) : Store :=
  s.restrict (held.flatMap s.nodesUnder)

theorem get?_restrict (s : Store) (kept : List NodeId) (n : NodeId) :
    (s.restrict kept).get? n = if kept.contains n then s.get? n else none := by
  simp only [get?, restrict, Array.getElem?_mapIdx]
  cases s.cells[n]? <;> split <;> simp

end Unnest.Store
