import Unnest.Pass.Unnest

/-! One pass over a document. The rules are listed before the first one is handed over, so a rule made
during the pass is never handed over; a failure ends the pass where it is. -/

namespace Unnest

open Edit

structure Stats where
  listed : Nat
  dispatched : Nat
  skipped : Nat
deriving DecidableEq

namespace Pass

variable {ρ : Type}

/-- Hands the rule over, with a report. -/
def dispatch (handler : NodeId → Edit ρ Unit) (rule : NodeId) : Edit ρ Unit := do
  match ← look (·.selectors? rule) with
  | some selectors => note (.expanding (Selector.listText selectors))
  | none => pure ()
  handler rule

/-- Hands over the listed rules in turn; the policy decides about rules that have left the tree. -/
def visit (stale : Stale) (handler : NodeId → Edit ρ Unit) :
    List NodeId → Stats → Edit ρ Stats
  | [], st => pure st
  | rule :: rules, st => do
    if stale = .skip ∧ !(← look (·.reachesRoot rule)) then
      note .skipping
      visit stale handler rules { st with skipped := st.skipped + 1 }
    else
      dispatch handler rule
      visit stale handler rules { st with dispatched := st.dispatched + 1 }

def sweep (o : Options) (handler : NodeId → Edit ρ Unit) (doc : NodeId) : Edit ρ Stats := do
  let rules ← look (·.rulesUnder doc)
  note (.started rules.length)
  let st ← visit o.stale handler rules ⟨rules.length, 0, 0⟩
  note (.finished st.dispatched st.skipped)
  return st

def flatten (o : Options) (doc : NodeId) : Edit ρ Stats := sweep o (unnest o) doc

end Pass

end Unnest
