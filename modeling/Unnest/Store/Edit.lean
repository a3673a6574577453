import Unnest.Error
import Unnest.Store.Basic

/-! Moving nodes. A node given to a container first leaves the one it links to, so a rule or at-rule
is never in two places; leaves have no link and are moved by hand. -/

namespace Unnest

/-- How an operation that may fail leaves the store. -/
abbrev Outcome := EStateM.Result Error Store Unit

namespace Store

/-- Takes the first `n` out of the child list of `p`, and tells whether it was there. -/
def remove (s : Store) (p n : NodeId) : Bool × Store :=
  let found := (s.children p).contains n
  let s := s.modify p (Node.editChildren (·.erase n))
  (found, if found then s.modify n (Node.withLink none) else s)

/-- Takes a rule or at-rule out of its container. A link that leads nowhere is cleared. -/
def detach (s : Store) (n : NodeId) : Bool × Store :=
  match s.parent? n with
  | some p => s.remove p n
  | none => (false, s.modify n (Node.withLink none))

/-- Moves `n` into the child list of `p`, to the place that `add` gives it. -/
def adopt (s : Store) (p n : NodeId) (add : List NodeId → List NodeId) : Store :=
  ((s.detach n).2.modify p (Node.editChildren add)).modify n (Node.withLink (some p))

/-- Moves `n` into `p`; a leaf `p` is refused before anything moves. -/
def insert (s : Store) (p n : NodeId) (add : List NodeId → List NodeId) : Outcome :=
  match s.get? p with
  | none => .error .detached s
  | some x => if x.isContainer then .ok () (s.adopt p n add) else .error (.notAContainer x.kind) s

def append (s : Store) (p n : NodeId) : Outcome := s.insert p n (· ++ [n])

def prepend (s : Store) (p n : NodeId) : Outcome := s.insert p n (n :: ·)

def putAfter (anchor n : NodeId) : List NodeId → List NodeId
  | [] => []
  | c :: cs => if c = anchor then c :: n :: cs else c :: putAfter anchor n cs

/-- Moves `n` behind `anchor` in the container of `anchor`. The node has left its old place when it
turns out that `anchor` has no container. -/
def insertAfter (s : Store) (anchor n : NodeId) : Outcome :=
  if anchor = n then .ok () s
  else
    let s := (s.detach n).2
    match s.parent? anchor with
    | none => .error .detached s
    | some p =>
      let found := (s.children p).contains anchor
      let s := s.modify p (Node.editChildren (putAfter anchor n))
      if found then .ok () (s.modify n (Node.withLink (some p))) else .error .detached s

/-- Adds `n` to the child list of `p` and leaves the links alone. The new length, or nothing if `p`
is a leaf. -/
def push (s : Store) (p n : NodeId) : Option Nat × Store :=
  let s := s.modify p (Node.editChildren (· ++ [n]))
  ((s.children? p).map List.length, s)

/-- Empties the child list of `p` and leaves the links alone. The old length, or nothing if `p` is a
leaf. -/
def clear (s : Store) (p : NodeId) : Option Nat × Store :=
  let old := (s.children p).length
  let s := s.modify p (Node.editChildren fun _ => [])
  ((s.children? p).map fun _ => old, s)

def editSelectors (s : Store) (n : NodeId) (f : List String → List String) : Store :=
  s.modify n (Node.editSelectors f)

end Store

end Unnest
