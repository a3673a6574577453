import Unnest.Proofs.Store.Holds

/-! What the moves of a store do to its cells. A move changes the cells it is about and no others; a
container is given by what it is without its children (`withChildren`). -/

namespace Unnest

namespace Node

/-- The node with another child list; a leaf has none. -/
def withChildren (cs : List NodeId) (x : Node) : Node := x.editChildren fun _ => cs

@[simp] theorem editChildren_withChildren (x : Node) (cs : List NodeId)
    (f : List NodeId → List NodeId) :
    (x.withChildren cs).editChildren f = x.withChildren (f cs) := by
  cases x <;> rfl

@[simp] theorem link_withChildren (x : Node) (cs : List NodeId) :
    (x.withChildren cs).link = x.link := by
  cases x <;> rfl

@[simp] theorem isContainer_withChildren (x : Node) (cs : List NodeId) :
    (x.withChildren cs).isContainer = x.isContainer := by
  cases x <;> rfl

theorem children?_withChildren {x : Node} (h : x.isContainer = true) (cs : List NodeId) :
    (x.withChildren cs).children? = some cs := by
  cases x with
  | leaf l => simp [isContainer] at h
  | root _ => rfl
  | rule _ _ _ => rfl
  | atRule _ _ _ _ => rfl

theorem withLink_of_link {x : Node} {l : Option NodeId} (h : x.link = l) : x.withLink l = x := by
  subst h
  cases x <;> rfl

@[simp] theorem withLink_withLink (x : Node) (l m : Option NodeId) :
    (x.withLink l).withLink m = x.withLink m := by
  cases x <;> rfl

end Node

namespace Tree

theorem withLink_cell {t : Tree NodeId} (h : t.isRoot = false) (p q : NodeId) :
    (t.cell p).withLink (some q) = t.cell q := by
  rcases t with ⟨n, l⟩ | ⟨n, a, b⟩ | ⟨n, _ | s | ⟨a, b⟩, ts⟩
  · rfl
  · rfl
  · simp [isRoot] at h
  · rfl
  · rfl

theorem link_cell {t : Tree NodeId} (h : t.isRoot = false) (hl : t.isLeaf = false) (p : NodeId) :
    (t.cell p).link = some p := by
  rcases t with ⟨n, l⟩ | ⟨n, a, b⟩ | ⟨n, _ | s | ⟨a, b⟩, ts⟩
  · simp [isLeaf] at hl
  · rfl
  · simp [isRoot] at h
  · rfl
  · rfl

end Tree

namespace Store

open Tree

variable {s : Store}

/-- Outside `ns` the two stores have the same cells. -/
def SameBut (ns : List NodeId) (s s' : Store) : Prop := ∀ m, m ∉ ns → s'.get? m = s.get? m

theorem children_of_get? {p : NodeId} {x : Node} {cs : List NodeId}
    (h : s.get? p = some (x.withChildren cs)) (hx : x.isContainer = true) : s.children p = cs := by
  simp [Store.children, children?, h, Node.children?_withChildren hx]

theorem putAfter_append (anchor n : NodeId) {before after : List NodeId}
    (h : anchor ∉ before) :
    putAfter anchor n (before ++ anchor :: after) = before ++ anchor :: n :: after := by
  induction before with
  | nil => simp [putAfter]
  | cons b before ih =>
    have hb : b ≠ anchor := fun he => h (by simp [he])
    simp [putAfter, hb, ih fun hm => h (List.mem_cons_of_mem _ hm)]

/-- A child leaves its container. -/
theorem remove_cells {q n : NodeId} {y : Node} {cs : List NodeId} {x : Node}
    (hq : s.get? q = some (y.withChildren cs)) (hy : y.isContainer = true) (hn : n ∈ cs)
    (hx : s.get? n = some x) (hne : n ≠ q) :
    (s.remove q n).2.size = s.size ∧ (s.remove q n).2.get? n = some (x.withLink none) ∧
      (s.remove q n).2.get? q = some (y.withChildren (cs.erase n)) ∧
      SameBut [n, q] s (s.remove q n).2 := by
  have hfound : (s.children q).contains n = true := by
    simpa [children_of_get? hq hy] using hn
  simp only [remove, hfound, if_true]
  refine ⟨by simp, ?_, ?_, fun m hm => ?_⟩
  · simp [get?_modify, hx, hne.symm]
  · simp [get?_modify, hq, hne]
  · simp only [List.mem_cons, List.not_mem_nil, or_false, not_or] at hm
    simp [get?_modify, Ne.symm hm.1, Ne.symm hm.2]

/-- A node without a living container keeps no link. -/
theorem detach_cells_of_no_link {n : NodeId} {x : Node} (hx : s.get? n = some x)
    (hl : x.link = none) :
    (s.detach n).2.size = s.size ∧ ∀ m, (s.detach n).2.get? m = s.get? m := by
  have hp : s.parent? n = none := by simp [parent?, hx, hl]
  simp only [detach, hp]
  refine ⟨by simp, fun m => ?_⟩
  rw [get?_modify]
  split
  · next h => subst h; simp [hx, Node.withLink_of_link hl]
  · rfl

theorem detach_eq_remove {n q : NodeId} {x y : Node} (hx : s.get? n = some x)
    (hl : x.link = some q) (hq : s.get? q = some y) : s.detach n = s.remove q n := by
  simp [detach, parent?_of_link hx hl hq]

/-- A node without a container goes to the place in `p` that `add` gives it. -/
theorem adopt_cells {p n : NodeId} {x y : Node} {cs : List NodeId} (hx : s.get? n = some x)
    (hl : x.link = none) (hp : s.get? p = some (y.withChildren cs)) (hne : n ≠ p)
    (add : List NodeId → List NodeId) :
    (s.adopt p n add).size = s.size ∧ (s.adopt p n add).get? n = some (x.withLink (some p)) ∧
      (s.adopt p n add).get? p = some (y.withChildren (add cs)) ∧
      SameBut [n, p] s (s.adopt p n add) := by
  obtain ⟨hsize, hsame⟩ := detach_cells_of_no_link hx hl
  refine ⟨by simp [adopt, hsize], ?_, ?_, fun m hm => ?_⟩
  · simp [adopt, get?_modify, hsame, hx, hne.symm]
  · simp [adopt, get?_modify, hsame, hp, hne]
  · simp only [List.mem_cons, List.not_mem_nil, or_false, not_or] at hm
    simp [adopt, get?_modify, hsame, Ne.symm hm.1, Ne.symm hm.2]

theorem insert_cells {p n : NodeId} {x y : Node} {cs : List NodeId} (hx : s.get? n = some x)
    (hl : x.link = none) (hp : s.get? p = some (y.withChildren cs)) (hy : y.isContainer = true)
    (hne : n ≠ p) (add : List NodeId → List NodeId) :
    ∃ s', s.insert p n add = .ok () s' ∧ s'.size = s.size ∧
      s'.get? n = some (x.withLink (some p)) ∧ s'.get? p = some (y.withChildren (add cs)) ∧
      SameBut [n, p] s s' :=
  ⟨s.adopt p n add, by simp [insert, hp, hy], adopt_cells hx hl hp hne add⟩

/-- A node that has left its old place goes behind `anchor` in the container of `anchor`. -/
theorem insertAfter_cells {anchor n p : NodeId} {x y z : Node} {before after : List NodeId}
    (hx : (s.detach n).2.get? n = some x) (hz : (s.detach n).2.get? anchor = some z)
    (hlink : z.link = some p)
    (hp : (s.detach n).2.get? p = some (y.withChildren (before ++ anchor :: after)))
    (hy : y.isContainer = true) (hb : anchor ∉ before) (hna : n ≠ anchor) (hnp : n ≠ p) :
    ∃ s', s.insertAfter anchor n = .ok () s' ∧ s'.size = (s.detach n).2.size ∧
      s'.get? n = some (x.withLink (some p)) ∧
      s'.get? p = some (y.withChildren (before ++ anchor :: n :: after)) ∧
      SameBut [n, p] (s.detach n).2 s' := by
  have hparent := parent?_of_link hz hlink hp
  have hfound : ((s.detach n).2.children p).contains anchor = true := by
    simp [children_of_get? hp hy]
  have hput : putAfter anchor n (before ++ anchor :: after) = before ++ anchor :: n :: after :=
    putAfter_append anchor n hb
  refine ⟨((s.detach n).2.modify p (Node.editChildren (putAfter anchor n))).modify n
    (Node.withLink (some p)), ?_, by simp, ?_, ?_, fun m hm => ?_⟩
  · simp only [insertAfter, if_neg hna.symm, hparent, hfound, if_true]
  · simp [get?_modify, hx, hnp.symm]
  · simp [get?_modify, hp, hput, hnp]
  · simp only [List.mem_cons, List.not_mem_nil, or_false, not_or] at hm
    simp [get?_modify, Ne.symm hm.1, Ne.symm hm.2]

/-- A child of `q` moves behind `anchor`, which stands in `p` and may be `q` itself. -/
theorem insertAfter_child_cells {anchor n p q : NodeId} {x y z w : Node}
    {cs before after : List NodeId} (hx : s.get? n = some x) (hl : x.link = some q)
    (hq : s.get? q = some (w.withChildren cs)) (hw : w.isContainer = true) (hn : n ∈ cs)
    (hz : s.get? anchor = some z) (hlink : z.link = some p)
    (hp : s.get? p = some (y.withChildren (before ++ anchor :: after)))
    (hy : y.isContainer = true) (hb : anchor ∉ before) (hna : n ≠ anchor) (hnp : n ≠ p)
    (hnq : n ≠ q) (hpq : p ≠ q) :
    ∃ s', s.insertAfter anchor n = .ok () s' ∧ s'.size = s.size ∧
      s'.get? n = some (x.withLink (some p)) ∧
      s'.get? p = some (y.withChildren (before ++ anchor :: n :: after)) ∧
      s'.get? q = some (w.withChildren (cs.erase n)) ∧ SameBut [n, p, q] s s' := by
  have hd : (s.detach n).2 = (s.remove q n).2 := by rw [detach_eq_remove hx hl hq]
  obtain ⟨hsize, hn', hq', hsame⟩ := remove_cells hq hw hn hx hnq
  rw [← hd] at hsize hn' hq' hsame
  -- the anchor keeps its link even if it is `q`, which has just lost a child
  obtain ⟨z', hz', hlink'⟩ : ∃ z', (s.detach n).2.get? anchor = some z' ∧ z'.link = some p := by
    by_cases ha : anchor = q
    · subst ha
      refine ⟨_, hq', ?_⟩
      rw [hz] at hq
      obtain rfl := Option.some.inj hq
      simpa using hlink
    · exact ⟨z, by rw [hsame anchor (by simp [ha, hna.symm]), hz], hlink⟩
  obtain ⟨s', hok, hsize', h1, h2, hsame'⟩ := insertAfter_cells hn' hz' hlink'
    (by rw [hsame p (by simp [hpq, hnp.symm]), hp]) hy hb hna hnp
  refine ⟨s', hok, hsize'.trans hsize, by simpa using h1, h2, ?_, fun m hm => ?_⟩
  · rw [hsame' q (by simp [hnq.symm, hpq.symm]), hq']
  · simp only [List.mem_cons, List.not_mem_nil, or_false, not_or] at hm
    rw [hsame' m (by simp [hm.1, hm.2.1]), hsame m (by simp [hm.1, hm.2.2])]

/-- A node that stands nowhere moves behind `anchor`. -/
theorem insertAfter_new_cells {anchor n p : NodeId} {x y z : Node} {before after : List NodeId}
    (hx : s.get? n = some x) (hl : x.link = none) (hz : s.get? anchor = some z)
    (hlink : z.link = some p) (hp : s.get? p = some (y.withChildren (before ++ anchor :: after)))
    (hy : y.isContainer = true) (hb : anchor ∉ before) (hna : n ≠ anchor) (hnp : n ≠ p) :
    ∃ s', s.insertAfter anchor n = .ok () s' ∧ s'.size = s.size ∧
      s'.get? n = some (x.withLink (some p)) ∧
      s'.get? p = some (y.withChildren (before ++ anchor :: n :: after)) ∧
      SameBut [n, p] s s' := by
  obtain ⟨hsize, hsame⟩ := detach_cells_of_no_link hx hl
  obtain ⟨s', hok, hsize', h1, h2, hsame'⟩ := insertAfter_cells (by rw [hsame, hx])
    (by rw [hsame, hz]) hlink (by rw [hsame, hp]) hy hb hna hnp
  exact ⟨s', hok, hsize'.trans hsize, h1, h2, fun m hm => by rw [hsame' m hm, hsame]⟩

end Store

end Unnest
