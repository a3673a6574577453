import Mathlib.Data.List.Nodup
import Mathlib.Data.List.Perm.Subperm
import Unnest.Store.View
import Unnest.Store.Ancestry

/-! When a store holds a tree: each node of the tree lists its children, links to its container and
says what the tree says. A document is a root over a list of such trees in which no node stands
twice. What the bounded walks of a store find in a document is the whole of it. -/

namespace Unnest

namespace Tree

variable {α β : Type}

def children : Tree α → List (Tree α)
  | .leaf _ _ => []
  | .statement _ _ _ => []
  | .branch _ _ ts => ts

def isLeaf : Tree α → Bool
  | .leaf _ _ => true
  | _ => false

def isRoot : Tree α → Bool
  | .branch _ .root _ => true
  | _ => false

def isRule : Tree α → Bool
  | .branch _ (.rule _) _ => true
  | _ => false

/-- The node that stands for the top of the tree in the container `p`. -/
def cell (p : NodeId) : Tree NodeId → Node
  | .leaf _ l => .leaf l
  | .statement _ n q => .atRule n q none (some p)
  | .branch _ .root ts => .root (ts.map label)
  | .branch _ (.rule s) ts => .rule s (ts.map label) (some p)
  | .branch _ (.atRule n q) ts => .atRule n q (some (ts.map label)) (some p)

theorem label_mem_labels (t : Tree α) : t.label ∈ t.labels := by
  cases t <;> simp [label, labels]

theorem labels_eq (t : Tree α) : t.labels = t.label :: labelsAll t.children := by
  cases t <;> simp [label, labels, children, labelsAll]

theorem label_mem_labelsAll {t : Tree α} {ts : List (Tree α)} (h : t ∈ ts) :
    t.label ∈ labelsAll ts := by
  rw [labelsAll_eq, List.mem_flatMap]
  exact ⟨t, h, t.label_mem_labels⟩

theorem map_label_sublist (ts : List (Tree α)) : (ts.map label).Sublist (labelsAll ts) := by
  induction ts with
  | nil => exact List.Sublist.refl _
  | cons t ts ih =>
    rw [List.map_cons, labelsAll, labels_eq, List.cons_append]
    exact (ih.trans (List.sublist_append_right _ _)).cons_cons _

theorem labelsAll_append (ts us : List (Tree α)) :
    labelsAll (ts ++ us) = labelsAll ts ++ labelsAll us := by
  simp [labelsAll_eq]

theorem mapAll_append (f : α → β) (ts us : List (Tree α)) :
    mapAll f (ts ++ us) = mapAll f ts ++ mapAll f us := by
  simp [mapAll_eq]

theorem isEmpty_mapAll (f : α → β) (ts : List (Tree α)) : (mapAll f ts).isEmpty = ts.isEmpty := by
  cases ts <;> rfl

theorem rulesAll_append (ts us : List (Tree α)) :
    rulesAll (ts ++ us) = rulesAll ts ++ rulesAll us := by
  simp [rulesAll_eq]

@[simp] theorem rules_root (a : α) (ts : List (Tree α)) :
    (Tree.branch a .root ts).rules = rulesAll ts := rfl

@[simp] theorem rules_rule (a : α) (s : List String) (ts : List (Tree α)) :
    (Tree.branch a (.rule s) ts).rules = a :: rulesAll ts := rfl

@[simp] theorem rules_atRule (a : α) (n q : String) (ts : List (Tree α)) :
    (Tree.branch a (.atRule n q) ts).rules = rulesAll ts := rfl

@[simp] theorem rulesAll_singleton (t : Tree α) : rulesAll [t] = t.rules := by
  simp [rulesAll]

mutual

theorem rules_sublist : (t : Tree α) → t.rules.Sublist t.labels
  | .leaf _ _ => List.nil_sublist _
  | .statement _ _ _ => List.nil_sublist _
  | .branch a h ts => by
    rw [rules, labels]
    split
    · exact (rulesAll_sublist ts).cons_cons a
    · exact (rulesAll_sublist ts).cons a

theorem rulesAll_sublist : (ts : List (Tree α)) → (rulesAll ts).Sublist (labelsAll ts)
  | [] => List.Sublist.refl _
  | t :: ts => (rules_sublist t).append (rulesAll_sublist ts)

end

end Tree

namespace Store

open Tree

mutual

/-- The store holds `t` in the container `p`. A root stands in no container. -/
def Holds (s : Store) (p : NodeId) : Tree NodeId → Prop
  | .leaf n l => s.get? n = some (.leaf l)
  | .statement n a q => s.get? n = some (.atRule a q none (some p))
  | .branch _ .root _ => False
  | .branch n (.rule sel) ts =>
    s.get? n = some (.rule sel (ts.map label) (some p)) ∧ HoldsAll s n ts
  | .branch n (.atRule a q) ts =>
    s.get? n = some (.atRule a q (some (ts.map label)) (some p)) ∧ HoldsAll s n ts

def HoldsAll (s : Store) (p : NodeId) : List (Tree NodeId) → Prop
  | [] => True
  | t :: ts => Holds s p t ∧ HoldsAll s p ts

end

/-- A document: a root on top and nowhere else, every node below it in one child list and there
once, and every rule and at-rule linked to its container. -/
structure IsDocument (s : Store) (doc : NodeId) (ts : List (Tree NodeId)) : Prop where
  top : s.get? doc = some (.root (ts.map label))
  below : s.HoldsAll doc ts
  once : (doc :: labelsAll ts).Nodup

variable {s : Store} {p : NodeId}

theorem holds_iff (t : Tree NodeId) :
    s.Holds p t ↔ s.get? t.label = some (t.cell p) ∧ t.isRoot = false ∧
      s.HoldsAll t.label t.children := by
  rcases t with ⟨n, l⟩ | ⟨n, a, q⟩ | ⟨n, _ | sel | ⟨a, q⟩, ts⟩ <;>
    simp [Holds, HoldsAll, cell, Tree.isRoot, label, Tree.children]

theorem holdsAll_iff (ts : List (Tree NodeId)) : s.HoldsAll p ts ↔ ∀ t ∈ ts, s.Holds p t := by
  induction ts with
  | nil => simp [HoldsAll]
  | cons t ts ih => simp [HoldsAll, ih]

theorem holdsAll_append (ts us : List (Tree NodeId)) :
    s.HoldsAll p (ts ++ us) ↔ s.HoldsAll p ts ∧ s.HoldsAll p us := by
  simp only [holdsAll_iff, List.mem_append]
  exact ⟨fun h => ⟨fun t ht => h t (.inl ht), fun t ht => h t (.inr ht)⟩,
    fun h t ht => ht.elim (h.1 t) (h.2 t)⟩

theorem lt_size_of_get? {n : NodeId} {x : Node} (h : s.get? n = some x) : n < s.size := by
  by_contra hn
  rw [get?_eq_none_of_size_le (Nat.le_of_not_lt hn)] at h
  exact absurd h (by simp)

mutual

theorem Holds.congr {s' : Store} : {t : Tree NodeId} → {p : NodeId} → s.Holds p t →
    (∀ n ∈ t.labels, s'.get? n = s.get? n) → s'.Holds p t
  | .leaf n l, _, h, hs => (hs n (by simp [labels])).trans h
  | .statement n a q, _, h, hs => (hs n (by simp [labels])).trans h
  | .branch n (.rule sel) ts, _, h, hs =>
    ⟨(hs n (by simp [labels])).trans h.1, h.2.congr fun m hm => hs m (by simp [labels, hm])⟩
  | .branch n (.atRule a q) ts, _, h, hs =>
    ⟨(hs n (by simp [labels])).trans h.1, h.2.congr fun m hm => hs m (by simp [labels, hm])⟩

theorem HoldsAll.congr {s' : Store} : {ts : List (Tree NodeId)} → {p : NodeId} → s.HoldsAll p ts →
    (∀ n ∈ labelsAll ts, s'.get? n = s.get? n) → s'.HoldsAll p ts
  | [], _, _, _ => trivial
  | _ :: _, _, h, hs =>
    ⟨h.1.congr fun m hm => hs m (by simp [labelsAll, hm]),
      h.2.congr fun m hm => hs m (by simp [labelsAll, hm])⟩

end

mutual

theorem Holds.lt_size : {t : Tree NodeId} → {p : NodeId} → s.Holds p t →
    ∀ n ∈ t.labels, n < s.size
  | .leaf n l, _, h, m, hm => by
    obtain rfl : m = n := by simpa [labels] using hm
    exact lt_size_of_get? h
  | .statement n a q, _, h, m, hm => by
    obtain rfl : m = n := by simpa [labels] using hm
    exact lt_size_of_get? h
  | .branch n (.rule sel) ts, _, h, m, hm => by
    rcases List.mem_cons.1 hm with rfl | hm
    · exact lt_size_of_get? h.1
    · exact h.2.lt_size m hm
  | .branch n (.atRule a q) ts, _, h, m, hm => by
    rcases List.mem_cons.1 hm with rfl | hm
    · exact lt_size_of_get? h.1
    · exact h.2.lt_size m hm

theorem HoldsAll.lt_size : {ts : List (Tree NodeId)} → {p : NodeId} → s.HoldsAll p ts →
    ∀ n ∈ labelsAll ts, n < s.size
  | [], _, _, m, hm => by simp [labelsAll] at hm
  | t :: ts, _, h, m, hm => by
    rcases List.mem_append.1 hm with hm | hm
    · exact h.1.lt_size m hm
    · exact h.2.lt_size m hm

end

/-- Nodes without repetition are no more than the store has. -/
theorem length_le_size {ns : List NodeId} (hn : ns.Nodup) (h : ∀ n ∈ ns, n < s.size) :
    ns.length ≤ s.size := by
  have hsub : ns ⊆ List.range s.size := fun n hm => List.mem_range.2 (h n hm)
  simpa using (hn.subperm hsub).length_le

mutual

theorem view?_of_holds : {t : Tree NodeId} → {p : NodeId} → {bound : Nat} → s.Holds p t →
    t.labels.length ≤ bound → s.view? bound t.label = some t
  | .leaf n l, _, 0, h, hb => by simp [labels] at hb
  | .leaf n l, _, bound + 1, h, hb => by simp [view?, label, show s.get? n = _ from h]
  | .statement n a q, _, 0, h, hb => by simp [labels] at hb
  | .statement n a q, _, bound + 1, h, hb => by simp [view?, label, show s.get? n = _ from h]
  | .branch n (.rule sel) ts, _, 0, h, hb => by simp [labels] at hb
  | .branch n (.rule sel) ts, _, bound + 1, h, hb => by
    have hts := viewAll_of_holdsAll h.2 (Nat.le_of_succ_le_succ (by simpa [labels] using hb))
    simp [view?, label, h.1, hts]
  | .branch n (.atRule a q) ts, _, 0, h, hb => by simp [labels] at hb
  | .branch n (.atRule a q) ts, _, bound + 1, h, hb => by
    have hts := viewAll_of_holdsAll h.2 (Nat.le_of_succ_le_succ (by simpa [labels] using hb))
    simp [view?, label, h.1, hts]

theorem viewAll_of_holdsAll : {ts : List (Tree NodeId)} → {p : NodeId} → {bound : Nat} →
    s.HoldsAll p ts → (labelsAll ts).length ≤ bound →
    (ts.map label).filterMap (s.view? bound) = ts
  | [], _, _, _, _ => rfl
  | t :: ts, _, bound, h, hb => by
    rw [labelsAll, List.length_append] at hb
    have ht : s.view? bound t.label = some t := view?_of_holds h.1 (by omega)
    have hts : (ts.map label).filterMap (s.view? bound) = ts :=
      viewAll_of_holdsAll h.2 (by omega)
    rw [List.map_cons, List.filterMap_cons_some ht, hts]

end

theorem IsDocument.lt_size {doc : NodeId} {ts : List (Tree NodeId)} (h : s.IsDocument doc ts) :
    ∀ n ∈ doc :: labelsAll ts, n < s.size := by
  intro n hn
  rcases List.mem_cons.1 hn with rfl | hn
  · exact lt_size_of_get? h.top
  · exact h.below.lt_size n hn

theorem IsDocument.length_le {doc : NodeId} {ts : List (Tree NodeId)} (h : s.IsDocument doc ts) :
    (labelsAll ts).length + 1 ≤ s.size :=
  length_le_size h.once h.lt_size

theorem IsDocument.tree?_eq {doc : NodeId} {ts : List (Tree NodeId)} (h : s.IsDocument doc ts) :
    s.tree? doc = some (.branch doc .root ts) := by
  obtain ⟨bound, hb⟩ : ∃ bound, s.size = bound + 1 :=
    ⟨s.size - 1, by have := h.length_le; omega⟩
  have hts : (ts.map label).filterMap (s.view? bound) = ts :=
    viewAll_of_holdsAll h.below (by have := h.length_le; omega)
  unfold tree?
  rw [hb, view?, h.top]
  simp [hts]

theorem IsDocument.rulesUnder_eq {doc : NodeId} {ts : List (Tree NodeId)}
    (h : s.IsDocument doc ts) : s.rulesUnder doc = rulesAll ts := by
  simp [rulesUnder, h.tree?_eq, Tree.rules_root]

theorem IsDocument.rules_nodup {doc : NodeId} {ts : List (Tree NodeId)}
    (h : s.IsDocument doc ts) : (rulesAll ts).Nodup :=
  (List.nodup_cons.1 h.once).2.sublist (rulesAll_sublist ts)

theorem parent?_of_link {n : NodeId} {x y : Node} (hx : s.get? n = some x)
    (hl : x.link = some p) (hy : s.get? p = some y) : s.parent? n = some p := by
  simp [parent?, hx, hl, hy]

mutual

theorem Holds.isRule_of_mem : {t : Tree NodeId} → {p : NodeId} → s.Holds p t →
    ∀ n ∈ t.rules, s.isRule n = true
  | .leaf _ _, _, _, _, hn => by simp [rules] at hn
  | .statement _ _ _, _, _, _, hn => by simp [rules] at hn
  | .branch a (.rule _) ts, _, h, n, hn => by
    rcases List.mem_cons.1 (show n ∈ a :: rulesAll ts from hn) with rfl | hn
    · simp [isRule, h.1, Node.isRule]
    · exact h.2.isRule_of_mem n hn
  | .branch _ (.atRule _ _) _, _, h, n, hn => h.2.isRule_of_mem n hn

theorem HoldsAll.isRule_of_mem : {ts : List (Tree NodeId)} → {p : NodeId} → s.HoldsAll p ts →
    ∀ n ∈ rulesAll ts, s.isRule n = true
  | [], _, _, _, hn => by simp [rulesAll] at hn
  | _ :: _, _, h, n, hn =>
    (List.mem_append.1 hn).elim (h.1.isRule_of_mem n) (h.2.isRule_of_mem n)

end

/-- Climbing at least `k` levels from `n` meets a root. -/
def RootsWithin (s : Store) (k : Nat) (n : NodeId) : Prop :=
  ∀ j, k ≤ j → (s.climb j n).any s.isRoot = true

theorem rootsWithin_of_parent {n : NodeId} {k : Nat} (h : s.RootsWithin k p)
    (hp : s.parent? n = some p) : s.RootsWithin (k + 1) n := by
  intro j hj
  obtain ⟨i, rfl⟩ : ∃ i, j = i + 1 := ⟨j - 1, by omega⟩
  simp [climb, hp, h i (by omega)]

theorem RootsWithin.mono {n : NodeId} {k l : Nat} (h : s.RootsWithin k n) (hkl : k ≤ l) :
    s.RootsWithin l n :=
  fun j hj => h j (Nat.le_trans hkl hj)

mutual

theorem Holds.rootsWithin : {t : Tree NodeId} → {p : NodeId} → {k : Nat} → {y : Node} →
    s.Holds p t → s.get? p = some y → s.RootsWithin k p →
    ∀ n ∈ t.rules, s.RootsWithin (k + t.labels.length) n
  | .leaf _ _, _, _, _, _, _, _, _, hn => by simp [rules] at hn
  | .statement _ _ _, _, _, _, _, _, _, _, hn => by simp [rules] at hn
  | .branch a (.rule sel) ts, p, k, _, h, hy, hk, n, hn => by
    have ha := rootsWithin_of_parent hk (parent?_of_link h.1 rfl hy)
    rcases List.mem_cons.1 (show n ∈ a :: rulesAll ts from hn) with rfl | hn
    · exact ha.mono (by simp [labels])
    · exact (h.2.rootsWithin h.1 ha n hn).mono (by simp [labels]; omega)
  | .branch a (.atRule m q) ts, p, k, _, h, hy, hk, n, hn => by
    have ha := rootsWithin_of_parent hk (parent?_of_link h.1 rfl hy)
    have hn : n ∈ rulesAll ts := hn
    exact (h.2.rootsWithin h.1 ha n hn).mono (by simp [labels]; omega)

theorem HoldsAll.rootsWithin : {ts : List (Tree NodeId)} → {p : NodeId} → {k : Nat} → {y : Node} →
    s.HoldsAll p ts → s.get? p = some y → s.RootsWithin k p →
    ∀ n ∈ rulesAll ts, s.RootsWithin (k + (labelsAll ts).length) n
  | [], _, _, _, _, _, _, _, hn => by simp [rulesAll] at hn
  | t :: ts, _, _, _, h, hy, hk, n, hn => by
    rcases List.mem_append.1 hn with hn | hn
    · exact (h.1.rootsWithin hy hk n hn).mono (by simp [labelsAll])
    · exact (h.2.rootsWithin hy hk n hn).mono (by simp [labelsAll])

end

/-- The rules of a document are attached. -/
theorem IsDocument.reachesRoot {doc : NodeId} {ts : List (Tree NodeId)}
    (h : s.IsDocument doc ts) {n : NodeId} (hn : n ∈ rulesAll ts) : s.reachesRoot n = true := by
  have hdoc : s.RootsWithin 1 doc := by
    intro j hj
    obtain ⟨i, rfl⟩ : ∃ i, j = i + 1 := ⟨j - 1, by omega⟩
    simp [climb, isRoot, h.top, Node.isRoot]
  exact h.below.rootsWithin h.top hdoc n hn s.size (by have := h.length_le; omega)

end Store

end Unnest
