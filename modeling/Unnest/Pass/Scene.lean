import Unnest.Store.View
import Unnest.Store.Ancestry
import Unnest.Pass.Event

/-! What a pass works on, and the steps it is made of. A step may change the nodes, report an event
or fail; what was changed and reported before a failure stays. -/

namespace Unnest

/-- The nodes, the events so far, and whatever a handler of rules keeps for itself. -/
structure Scene (ρ : Type) where
  store : Store
  log : Array Event
  own : ρ

abbrev Edit (ρ α : Type) := EStateM Error (Scene ρ) α

namespace Edit

variable {ρ α : Type}

def look (f : Store → α) : Edit ρ α := fun sc => .ok (f sc.store) sc

def note (e : Event) : Edit ρ Unit := fun ⟨s, log, own⟩ => .ok () ⟨s, log.push e, own⟩

/-- A change of the store that cannot fail, and what it answers. -/
def change (f : Store → α × Store) : Edit ρ α := fun ⟨s, log, own⟩ =>
  match f s with
  | (a, s) => .ok a ⟨s, log, own⟩

/-- A change of the store that may fail. -/
def attempt (f : Store → Outcome) : Edit ρ Unit := fun ⟨s, log, own⟩ =>
  match f s with
  | .ok _ s => .ok () ⟨s, log, own⟩
  | .error e s => .error e ⟨s, log, own⟩

end Edit

end Unnest
