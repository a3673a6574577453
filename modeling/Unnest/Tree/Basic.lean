import Unnest.Leaf

/-! Style trees as values. Every node carries a label; plain trees have the label `()`, and a tree
read off a store has its node identities. Labels never matter for what a tree says. -/

namespace Unnest

/-- What stands before a block. -/
inductive Head where
  | root
  | rule (selectors : List String)
  | atRule (name params : String)
deriving DecidableEq

/-- A statement is an at-rule without a block, such as `@import "a.css";`. -/
inductive Tree (α : Type) where
  | leaf (label : α) (leaf : Leaf)
  | statement (label : α) (name params : String)
  | branch (label : α) (head : Head) (children : List (Tree α))

def Head.kind : Head → Kind
  | .root => .root
  | .rule _ => .rule
  | .atRule _ _ => .atRule

def Head.isRule : Head → Bool
  | .rule _ => true
  | _ => false

namespace Tree

variable {α β : Type}

def label : Tree α → α
  | .leaf a _ => a
  | .statement a _ _ => a
  | .branch a _ _ => a

mutual

def map (f : α → β) : Tree α → Tree β
  | .leaf a l => .leaf (f a) l
  | .statement a n p => .statement (f a) n p
  | .branch a h ts => .branch (f a) h (mapAll f ts)

def mapAll (f : α → β) : List (Tree α) → List (Tree β)
  | [] => []
  | t :: ts => t.map f :: mapAll f ts

end

mutual

/-- All labels, parents before their children. -/
def labels : Tree α → List α
  | .leaf a _ => [a]
  | .statement a _ _ => [a]
  | .branch a _ ts => a :: labelsAll ts

def labelsAll : List (Tree α) → List α
  | [] => []
  | t :: ts => t.labels ++ labelsAll ts

end

mutual

/-- The labels of the rules, parents before their nested rules. -/
def rules : Tree α → List α
  | .leaf _ _ => []
  | .statement _ _ _ => []
  | .branch a h ts => if h.isRule then a :: rulesAll ts else rulesAll ts

def rulesAll : List (Tree α) → List α
  | [] => []
  | t :: ts => t.rules ++ rulesAll ts

end

theorem mapAll_eq (f : α → β) (ts : List (Tree α)) : mapAll f ts = ts.map (map f) := by
  induction ts with
  | nil => rfl
  | cons t ts ih => simp [mapAll, ih]

theorem labelsAll_eq (ts : List (Tree α)) : labelsAll ts = ts.flatMap labels := by
  induction ts with
  | nil => rfl
  | cons t ts ih => simp [labelsAll, ih]

theorem rulesAll_eq (ts : List (Tree α)) : rulesAll ts = ts.flatMap rules := by
  induction ts with
  | nil => rfl
  | cons t ts ih => simp [rulesAll, ih]

end Tree

end Unnest
