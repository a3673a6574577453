import Unnest.Tree.Basic

/-! A store of nodes with identity. A container lists its children, and a rule or at-rule links back
to its container. A cell without a node belongs to a node that is gone; a link to such a node leads
nowhere. -/

namespace Unnest

/-- The name of a node for as long as its store lives. -/
abbrev NodeId := Nat

/-- An at-rule without a block is a statement. Leaves and roots have no container to link to. -/
inductive Node where
  | leaf (leaf : Leaf)
  | root (children : List NodeId)
  | rule (selectors : List String) (children : List NodeId) (link : Option NodeId)
  | atRule (name params : String) (block : Option (List NodeId)) (link : Option NodeId)
deriving DecidableEq

namespace Node

def kind : Node → Kind
  | .leaf l => l.kind
  | .root _ => .root
  | .rule _ _ _ => .rule
  | .atRule _ _ _ _ => .atRule

/-- A node without children that starts with the header `h`. -/
def ofHead : Head → Node
  | .root => .root []
  | .rule s => .rule s [] none
  | .atRule n p => .atRule n p (some []) none

def isRoot : Node → Bool
  | .root _ => true
  | _ => false

def isRule : Node → Bool
  | .rule _ _ _ => true
  | _ => false

def isContainer : Node → Bool
  | .leaf _ => false
  | _ => true

/-- Only rules and at-rules know their container. -/
def tracksContainer : Node → Bool
  | .rule _ _ _ => true
  | .atRule _ _ _ _ => true
  | _ => false

def selectors? : Node → Option (List String)
  | .rule s _ _ => some s
  | _ => none

/-- Nothing for leaves and statements. -/
def children? : Node → Option (List NodeId)
  | .leaf _ => none
  | .root cs => some cs
  | .rule _ cs _ => some cs
  | .atRule _ _ block _ => block

def link : Node → Option NodeId
  | .leaf _ => none
  | .root _ => none
  | .rule _ _ l => l
  | .atRule _ _ _ l => l

def withLink (l : Option NodeId) : Node → Node
  | .leaf x => .leaf x
  | .root cs => .root cs
  | .rule s cs _ => .rule s cs l
  | .atRule n p block _ => .atRule n p block l

/-- Editing the child list of a statement gives it a block first; a leaf stays as it is. -/
def editChildren (f : List NodeId → List NodeId) : Node → Node
  | .leaf x => .leaf x
  | .root cs => .root (f cs)
  | .rule s cs l => .rule s (f cs) l
  | .atRule n p block l => .atRule n p (some (f (block.getD []))) l

def editSelectors (f : List String → List String) : Node → Node
  | .rule s cs l => .rule (f s) cs l
  | x => x

@[simp] theorem link_withLink (x : Node) (l : Option NodeId) :
    (x.withLink l).link = if x.tracksContainer then l else none := by
  cases x <;> rfl

@[simp] theorem children?_withLink (x : Node) (l : Option NodeId) :
    (x.withLink l).children? = x.children? := by
  cases x <;> rfl

@[simp] theorem link_editChildren (x : Node) (f : List NodeId → List NodeId) :
    (x.editChildren f).link = x.link := by
  cases x <;> rfl

@[simp] theorem link_editSelectors (x : Node) (f : List String → List String) :
    (x.editSelectors f).link = x.link := by
  cases x <;> rfl

@[simp] theorem children?_editSelectors (x : Node) (f : List String → List String) :
    (x.editSelectors f).children? = x.children? := by
  cases x <;> rfl

end Node

structure Store where
  cells : Array (Option Node)

namespace Store

def empty : Store := ⟨#[]⟩

def size (s : Store) : Nat := s.cells.size

/-- Nothing for a node that is gone or never was. -/
def get? (s : Store) (n : NodeId) : Option Node := s.cells[n]?.join

def modify (s : Store) (n : NodeId) (f : Node → Node) : Store :=
  ⟨s.cells.modify n (Option.map f)⟩

/-- A new node, and the name it has. -/
def alloc (s : Store) (x : Node) : NodeId × Store :=
  (s.cells.size, ⟨s.cells.push (some x)⟩)

def children? (s : Store) (n : NodeId) : Option (List NodeId) :=
  (s.get? n).bind Node.children?

/-- The child list, empty for nodes without one. -/
def children (s : Store) (n : NodeId) : List NodeId := (s.children? n).getD []

def isRoot (s : Store) (n : NodeId) : Bool := (s.get? n).any Node.isRoot

def isRule (s : Store) (n : NodeId) : Bool := (s.get? n).any Node.isRule

def selectors? (s : Store) (n : NodeId) : Option (List String) :=
  (s.get? n).bind Node.selectors?

/-- Whether the node was given a container, which may be gone by now. -/
def hasLink (s : Store) (n : NodeId) : Bool := ((s.get? n).bind Node.link).isSome

/-- The container a rule or at-rule links to, while that container is there. -/
def parent? (s : Store) (n : NodeId) : Option NodeId :=
  ((s.get? n).bind Node.link).filter fun p => (s.get? p).isSome

theorem get?_modify (s : Store) (n m : NodeId) (f : Node → Node) :
    (s.modify n f).get? m = if n = m then (s.get? m).map f else s.get? m := by
  simp only [get?, modify, Array.getElem?_modify]
  split
  · cases s.cells[m]? <;> rfl
  · rfl

theorem get?_alloc (s : Store) (x : Node) (m : NodeId) :
    (s.alloc x).2.get? m = if m = s.size then some x else s.get? m := by
  unfold get? alloc size
  rw [Array.getElem?_push]
  by_cases h : m = s.cells.size <;> simp [h]

theorem get?_eq_none_of_size_le {s : Store} {n : NodeId} (h : s.size ≤ n) : s.get? n = none := by
  have : s.cells[n]? = none := Array.getElem?_eq_none h
  simp [get?, this]

@[simp] theorem size_modify (s : Store) (n : NodeId) (f : Node → Node) :
    (s.modify n f).size = s.size := by
  simp [size, modify]

@[simp] theorem size_alloc (s : Store) (x : Node) : (s.alloc x).2.size = s.size + 1 := by
  simp [size, alloc]

end Store

end Unnest
