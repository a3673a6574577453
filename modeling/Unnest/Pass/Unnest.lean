import Unnest.Selector.Members
import Unnest.Selector.Nesting
import Unnest.Pass.Options
import Unnest.Pass.Scene

/-! Flattening the nesting directly inside one rule. Nested rules and the at-rules that the options
know leave the rule, in order, each behind the one before; declarations that stood behind one of them
follow in a copy of the rule. What is nested deeper waits for the turn of its own rule. -/

namespace Unnest

open Selector Edit

/-- What a node is to the rule it stands in. -/
inductive Role where
  | nested
  | rootRule
  | bubbling
  | unwrapped
  | movable
  | fixed
deriving DecidableEq

namespace Node

/-- An at-rule has the first role that its name fits. Comments are never moved. -/
def role (o : Options) : Node → Role
  | .rule _ _ _ => .nested
  | .atRule name _ _ _ =>
    if o.namesRootRule name then .rootRule
    else if o.bubbles name then .bubbling
    else if o.unwraps name then .unwrapped
    else .movable
  | .leaf (.declaration _) => .movable
  | .leaf (.raw _) => .movable
  | .leaf (.comment _) => .fixed
  | .root _ => .fixed

def isBubblingBlock (o : Options) : Node → Bool
  | .atRule name _ (some _) _ => o.bubbles name
  | _ => false

def isUnwrappedBlock (o : Options) : Node → Bool
  | .atRule name _ (some _) _ => o.unwraps name
  | _ => false

end Node

namespace Store

def role (s : Store) (o : Options) (n : NodeId) : Role :=
  ((s.get? n).map (Node.role o)).getD .fixed

def isBubblingBlock (s : Store) (o : Options) (n : NodeId) : Bool :=
  (s.get? n).any (Node.isBubblingBlock o)

def isUnwrappedBlock (s : Store) (o : Options) (n : NodeId) : Bool :=
  (s.get? n).any (Node.isUnwrappedBlock o)

def bubblesAlong (s : Store) (o : Options) (n : NodeId) : Bool :=
  s.isRule n || s.isBubblingBlock o n

def liftsAlone (s : Store) (o : Options) (n : NodeId) : Bool :=
  s.isRule n || s.isBubblingBlock o n || s.isUnwrappedBlock o n

end Store

/-- The selectors in front of a root rule's content. Without a prelude, or with a query in
parentheses, the content has none of its own. -/
def rootPrelude (params : String) : Option (List String) :=
  let text := Text.trim params
  if text.isEmpty || text.toList.head? == some '(' then none else some (members text)

namespace Pass

variable {ρ : Type}

def resolve (parents : List String) (rule : NodeId) : Edit ρ Unit :=
  change fun s => ((), s.editSelectors rule (nest parents))

/-- A new rule that takes over `nodes` from `source`. -/
def gather (source : NodeId) (selectors : List String) (nodes : List NodeId) : Edit ρ NodeId := do
  let copy ← change (·.alloc (.rule selectors [] none))
  nodes.forM fun n => do
    let _ ← change (·.remove source n)
    attempt (·.append copy n)
  return copy

/-- Moves the declarations set aside so far into a copy of the rule behind `after`. The next lifted
node follows the copy. -/
def flush (rule : NodeId) (selectors : List String) (pending : List NodeId) (after : NodeId) :
    Edit ρ NodeId := do
  if pending.isEmpty then return after
  else
    let copy ← gather rule selectors pending
    note (.splitOff (listText selectors))
    attempt (·.insertAfter after copy)
    return copy

def lift (after n : NodeId) : Edit ρ NodeId := do
  attempt (·.insertAfter after n)
  return n

/-- Makes the content of a bubbling at-rule independent of the rule around it: nested rules get their
parent's selectors, unless `resolved` says that they need none, and what is neither a rule nor a
bubbling at-rule goes first, into a rule of its own. Looks `depth` levels down. -/
def bubble (o : Options) (selectors : List String) (resolved : Bool) : Nat → NodeId → Edit ρ Unit
  | 0, _ => pure ()
  | depth + 1, atRule => do
    let children ← look (·.children atRule)
    let leftovers ← look fun s => children.filter fun n => !s.bubblesAlong o n
    children.forM fun n => do
      if ← look (·.isRule n) then
        if !resolved then resolve selectors n
      else if ← look (·.isBubblingBlock o n) then bubble o selectors resolved depth n
    if !leftovers.isEmpty then
      let copy ← gather atRule selectors leftovers
      attempt (·.prepend atRule copy)

def bubbleAll (o : Options) (selectors : List String) (resolved : Bool) (atRule : NodeId) :
    Edit ρ Unit := do
  bubble o selectors resolved (← look (·.size)) atRule

/-- One node on its way out of a root rule. -/
def escape (o : Options) (selectors : List String) (prelude : Option (List String))
    (after n : NodeId) : Edit ρ NodeId := do
  if ← look (·.isBubblingBlock o n) then
    bubbleAll o (prelude.getD selectors) prelude.isNone n
  else
    match prelude with
    | some p => resolve p n
    | none => pure ()
  lift after n

/-- Takes a root rule apart behind `after`: what cannot stand alone goes into a rule with the prelude,
or with the selectors of the rule around it if there is none; the rest follows. -/
def dissolve (o : Options) (selectors : List String) (after rootRule : NodeId) :
    Edit ρ NodeId := do
  let prelude ← look fun s =>
    match s.get? rootRule with
    | some (.atRule _ params _ _) => rootPrelude params
    | _ => none
  let parts ← look fun s => (s.children rootRule).partition (s.liftsAlone o)
  let after ←
    if parts.2.isEmpty then pure after
    else gather rootRule (prelude.getD selectors) parts.2 >>= lift after
  let after ← parts.1.foldlM (escape o selectors prelude) after
  let _ ← change (·.detach rootRule)
  return after

/-- How far the children of a rule have been handled. -/
structure Progress where
  after : NodeId
  /-- Whether something has left the rule already. -/
  split : Bool
  /-- Declarations that have to follow the last lifted node. -/
  pending : List NodeId

/-- Takes out of the rule a child that does not belong there. -/
def release (o : Options) (selectors : List String) (after child : NodeId) :
    Role → Edit ρ NodeId
  | .rootRule => dissolve o selectors after child
  | .nested => do
    resolve selectors child
    lift after child
  | .bubbling => do
    bubbleAll o selectors false child
    lift after child
  | _ => lift after child

def handle (o : Options) (rule : NodeId) (selectors : List String) (p : Progress)
    (child : NodeId) : Edit ρ Progress := do
  match ← look (·.role o child) with
  | .fixed => return p
  | .movable => return if p.split then { p with pending := p.pending ++ [child] } else p
  | role =>
    let after ← flush rule selectors p.pending p.after
    return ⟨← release o selectors after child role, true, []⟩

/-- Handles the children in order; a rule that lost everything is dropped unless the options
preserve it. -/
def unnestChildren (o : Options) (rule : NodeId) (selectors : List String) (children : List NodeId) :
    Edit ρ Unit := do
  let p ← children.foldlM (handle o rule selectors) ⟨rule, false, []⟩
  let _ ← flush rule selectors p.pending p.after
  if p.split && !o.preserveEmpty && (← look (·.children rule)).isEmpty then
    note (.dropping (listText selectors))
    let _ ← change (·.detach rule)

/-- The standard handler of a rule. A pass that dispatches stale rules leaves it to the handler to pass
over them. -/
def unnest (o : Options) (rule : NodeId) : Edit ρ Unit := do
  match ← look (·.get? rule) with
  | some (.rule selectors children _) =>
    if o.stale = .dispatch ∧ !(← look (·.reachesRoot rule)) then
      note (.notInTree (listText selectors))
    else
      unnestChildren o rule selectors children
  | some x => throw (.notARule x.kind)
  | none => throw .detached

end Pass

end Unnest
