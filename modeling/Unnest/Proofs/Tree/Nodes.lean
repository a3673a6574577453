import Unnest.Proofs.Store.Holds

/-! The nodes of a tree, each as the tree it is the top of, and what a node says on its own. A pass
moves nodes and resolves the selectors of rules; the face of a node is what it leaves alone. -/

namespace Unnest

/-- What a node says on its own, but for the selectors of a rule. -/
inductive Face where
  | leaf (l : Leaf)
  | root
  | rule
  | atRule (name params : String) (block : Bool)
deriving DecidableEq

namespace Tree

variable {α β : Type}

def face : Tree α → Face
  | .leaf _ l => .leaf l
  | .statement _ n p => .atRule n p false
  | .branch _ .root _ => .root
  | .branch _ (.rule _) _ => .rule
  | .branch _ (.atRule n p) _ => .atRule n p true

mutual

/-- The tree and all the trees in it, parents before their children. -/
def nodes : Tree α → List (Tree α)
  | .leaf a l => [.leaf a l]
  | .statement a n p => [.statement a n p]
  | .branch a h ts => .branch a h ts :: nodesAll ts

def nodesAll : List (Tree α) → List (Tree α)
  | [] => []
  | t :: ts => t.nodes ++ nodesAll ts

end

theorem nodes_eq (t : Tree α) : t.nodes = t :: nodesAll t.children := by
  cases t <;> rfl

theorem nodesAll_append (ts us : List (Tree α)) :
    nodesAll (ts ++ us) = nodesAll ts ++ nodesAll us := by
  induction ts with
  | nil => rfl
  | cons t ts ih => simp [nodesAll, ih]

theorem mem_nodesAll {u : Tree α} {ts : List (Tree α)} :
    u ∈ nodesAll ts ↔ ∃ t ∈ ts, u ∈ t.nodes := by
  induction ts with
  | nil => simp [nodesAll]
  | cons t ts ih => simp [nodesAll, ih]

theorem face_eq_rule_iff (t : Tree α) : t.face = .rule ↔ t.isRule = true := by
  rcases t with ⟨a, l⟩ | ⟨a, n, p⟩ | ⟨a, _ | s | ⟨n, p⟩, ts⟩ <;> simp [face, isRule]

theorem eq_leaf_of_face {t : Tree α} {l : Leaf} (h : t.face = .leaf l) : t = .leaf t.label l := by
  rcases t with ⟨a, m⟩ | ⟨a, n, p⟩ | ⟨a, _ | s | ⟨n, p⟩, ts⟩ <;> simp_all [face, label]

@[simp] theorem label_map (f : α → β) (t : Tree α) : (t.map f).label = f t.label := by
  cases t <;> rfl

@[simp] theorem face_map (f : α → β) (t : Tree α) : (t.map f).face = t.face := by
  rcases t with ⟨a, l⟩ | ⟨a, n, p⟩ | ⟨a, _ | s | ⟨n, p⟩, ts⟩ <;> rfl

@[simp] theorem isRule_map (f : α → β) (t : Tree α) : (t.map f).isRule = t.isRule := by
  rcases t with ⟨a, l⟩ | ⟨a, n, p⟩ | ⟨a, _ | s | ⟨n, p⟩, ts⟩ <;> rfl

theorem mem_mapAll {f : α → β} {u : Tree β} {ts : List (Tree α)} :
    u ∈ mapAll f ts ↔ ∃ t ∈ ts, t.map f = u := by
  rw [mapAll_eq, List.mem_map]

@[simp] theorem children_map (f : α → β) (t : Tree α) :
    (t.map f).children = mapAll f t.children := by
  cases t <;> rfl

mutual

theorem map_label_nodes : (t : Tree α) → t.nodes.map label = t.labels
  | .leaf _ _ => rfl
  | .statement _ _ _ => rfl
  | .branch a _ ts => congrArg (a :: ·) (map_label_nodesAll ts)

theorem map_label_nodesAll : (ts : List (Tree α)) → (nodesAll ts).map label = labelsAll ts
  | [] => rfl
  | t :: ts => by
    rw [nodesAll, labelsAll, List.map_append, map_label_nodes t, map_label_nodesAll ts]

end

mutual

/-- The rules are listed in the order of the nodes. -/
theorem rules_eq_nodes : (t : Tree α) → t.rules = (t.nodes.filter isRule).map label
  | .leaf _ _ => rfl
  | .statement _ _ _ => rfl
  | .branch _ .root ts => rulesAll_eq_nodes ts
  | .branch a (.rule _) ts => congrArg (a :: ·) (rulesAll_eq_nodes ts)
  | .branch _ (.atRule _ _) ts => rulesAll_eq_nodes ts

theorem rulesAll_eq_nodes : (ts : List (Tree α)) →
    rulesAll ts = ((nodesAll ts).filter isRule).map label
  | [] => rfl
  | t :: ts => by
    rw [rulesAll, nodesAll, List.filter_append, List.map_append, rules_eq_nodes t,
      rulesAll_eq_nodes ts]

end

mutual

theorem nodes_map (f : α → β) : (t : Tree α) → (t.map f).nodes = t.nodes.map (Tree.map f)
  | .leaf _ _ => rfl
  | .statement _ _ _ => rfl
  | .branch a h ts => congrArg (Tree.branch (f a) h (mapAll f ts) :: ·) (nodesAll_mapAll f ts)

theorem nodesAll_mapAll (f : α → β) : (ts : List (Tree α)) →
    nodesAll (mapAll f ts) = (nodesAll ts).map (Tree.map f)
  | [] => rfl
  | t :: ts => by
    rw [mapAll, nodesAll, nodesAll, nodes_map f t, nodesAll_mapAll f ts, List.map_append]

end

theorem mem_rulesAll {a : α} {ts : List (Tree α)} :
    a ∈ rulesAll ts ↔ ∃ t ∈ nodesAll ts, t.isRule = true ∧ t.label = a := by
  simp [rulesAll_eq_nodes, and_assoc]

end Tree

namespace Store

open Tree

variable {s : Store}

mutual

theorem Holds.of_mem_nodes : {t : Tree NodeId} → {p : NodeId} → s.Holds p t →
    ∀ u ∈ t.nodes, ∃ q, s.Holds q u
  | .leaf _ _, p, h, _, hu => ⟨p, List.mem_singleton.1 hu ▸ h⟩
  | .statement _ _ _, p, h, _, hu => ⟨p, List.mem_singleton.1 hu ▸ h⟩
  | .branch _ (.rule _) _, p, h, u, hu => by
    rcases List.mem_cons.1 hu with rfl | hu
    · exact ⟨p, h⟩
    · exact h.2.of_mem_nodes u hu
  | .branch _ (.atRule _ _) _, p, h, u, hu => by
    rcases List.mem_cons.1 hu with rfl | hu
    · exact ⟨p, h⟩
    · exact h.2.of_mem_nodes u hu

theorem HoldsAll.of_mem_nodes : {ts : List (Tree NodeId)} → {p : NodeId} → s.HoldsAll p ts →
    ∀ u ∈ nodesAll ts, ∃ q, s.Holds q u
  | _ :: _, _, h, u, hu =>
    (List.mem_append.1 hu).elim (h.1.of_mem_nodes u) (h.2.of_mem_nodes u)

end

end Store

end Unnest
