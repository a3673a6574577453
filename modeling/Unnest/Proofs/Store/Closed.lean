import Unnest.Proofs.Store.Order

/-! Giving up nodes keeps a store in order: what stays is closed under child lists, so no list loses
a node that stays. The bounded walk of `view?` goes all the way down, because on the way down fewer
and fewer nodes have a lower rank. -/

namespace Unnest.Store

open Unnest.Tree

variable {s : Store} {rank : NodeId → ℚ}

/-- What the nodes in `ns` list is in `ns` too. -/
def Closed (s : Store) (ns : List NodeId) : Prop := ∀ p ∈ ns, ∀ n ∈ s.children p, n ∈ ns

/-- How many nodes rank lower than `n`. -/
def depth (rank : NodeId → ℚ) (s : Store) (n : NodeId) : Nat :=
  ((List.range s.size).filter fun m => decide (rank m < rank n)).length

theorem depth_lt_size (rank : NodeId → ℚ) {n : NodeId} (h : n < s.size) :
    s.depth rank n < s.size := by
  have hlt := List.length_filter_lt_length_iff_exists (p := fun m => decide (rank m < rank n))
    (l := List.range s.size)
  rw [List.length_range] at hlt
  exact hlt.2 ⟨n, List.mem_range.2 h, by simp⟩

theorem depth_lt_of_lt {m n : NodeId} (h : rank n < rank m) (hn : n < s.size) :
    s.depth rank n < s.depth rank m := by
  have hsub : ((List.range s.size).filter fun k => decide (rank k < rank n)) =
      ((List.range s.size).filter fun k => decide (rank k < rank m)).filter
        fun k => decide (rank k < rank n) := by
    rw [List.filter_filter]
    refine List.filter_congr fun k _ => ?_
    by_cases hk : rank k < rank n
    · simp [hk, hk.trans h]
    · simp [hk]
  rw [depth, hsub, depth]
  refine List.length_filter_lt_length_iff_exists.2 ⟨n, ?_, by simp⟩
  exact List.mem_filter.2 ⟨List.mem_range.2 hn, by simpa using h⟩

theorem Ordered.depth_lt (h : Ordered rank s) {p n : NodeId} (hn : n ∈ s.children p) :
    s.depth rank n < s.depth rank p :=
  depth_lt_of_lt (h.falls p n hn) (lt_size_of_isSome (h.alive p n hn))

theorem closed_labelsAll {cs : List NodeId} {f : NodeId → Option (Tree NodeId)}
    (hf : ∀ c ∈ cs, ∃ t, f c = some t ∧ t.label = c ∧ s.Closed t.labels) :
    (∀ c ∈ cs, c ∈ labelsAll (cs.filterMap f)) ∧ s.Closed (labelsAll (cs.filterMap f)) := by
  have hin : ∀ c ∈ cs, ∀ t, f c = some t → ∀ m ∈ t.labels, m ∈ labelsAll (cs.filterMap f) := by
    intro c hc t ht m hm
    rw [labelsAll_eq, List.mem_flatMap]
    exact ⟨t, List.mem_filterMap.2 ⟨c, hc, ht⟩, hm⟩
  constructor
  · intro c hc
    obtain ⟨t, ht, hl, -⟩ := hf c hc
    exact hin c hc t ht c (hl ▸ t.label_mem_labels)
  · intro p hp n hn
    rw [labelsAll_eq, List.mem_flatMap] at hp
    obtain ⟨t, ht, hp⟩ := hp
    obtain ⟨c, hc, hct⟩ := List.mem_filterMap.1 ht
    obtain ⟨u, hu, -, hclosed⟩ := hf c hc
    obtain rfl := Option.some.inj (hct.symm.trans hu)
    exact hin c hc t hct n (hclosed p hp n hn)

/-- A walk that may go far enough down finds all that lies below. -/
theorem Ordered.view?_closed (h : Ordered rank s) (bound : Nat) {n : NodeId}
    (hn : (s.get? n).isSome = true) (hb : s.depth rank n < bound) :
    ∃ t, s.view? bound n = some t ∧ t.label = n ∧ s.Closed t.labels := by
  induction bound generalizing n with
  | zero => omega
  | succ bound ih =>
    have hchild : ∀ c ∈ s.children n,
        ∃ t, s.view? bound c = some t ∧ t.label = c ∧ s.Closed t.labels := fun c hc =>
      ih (h.alive n c hc) (Nat.lt_of_lt_of_le (h.depth_lt hc) (Nat.le_of_lt_succ hb))
    have hbelow := closed_labelsAll hchild
    have hleaf : s.children n = [] → s.Closed [n] := by
      intro hnil p hp c hc
      rw [List.mem_singleton.1 hp, hnil] at hc
      cases hc
    have hbranch : s.Closed (n :: labelsAll ((s.children n).filterMap (s.view? bound))) := by
      intro p hp c hc
      rcases List.mem_cons.1 hp with rfl | hp
      · exact List.mem_cons_of_mem _ (hbelow.1 c hc)
      · exact List.mem_cons_of_mem _ (hbelow.2 p hp c hc)
    obtain ⟨x, hx⟩ := Option.isSome_iff_exists.1 hn
    have hchildren : s.children n = x.children?.getD [] := by
      rw [Store.children, children?, hx]
      rfl
    rw [view?, hx]
    cases x with
    | leaf l => exact ⟨_, rfl, rfl, hleaf hchildren⟩
    | root cs =>
      obtain rfl : s.children n = cs := hchildren
      exact ⟨_, rfl, rfl, hbranch⟩
    | rule sel cs l =>
      obtain rfl : s.children n = cs := hchildren
      exact ⟨_, rfl, rfl, hbranch⟩
    | atRule a q block l =>
      cases block with
      | none => exact ⟨_, rfl, rfl, hleaf hchildren⟩
      | some cs =>
        obtain rfl : s.children n = cs := hchildren
        exact ⟨_, rfl, rfl, hbranch⟩

theorem Ordered.nodesUnder_closed (h : Ordered rank s) (n : NodeId) :
    s.Closed (s.nodesUnder n) := by
  unfold nodesUnder tree?
  cases hn : s.get? n with
  | none =>
    have hview : ∀ bound, s.view? bound n = none := by
      intro bound
      cases bound with
      | zero => rfl
      | succ bound => simp [view?, hn]
    simp [hview, Closed]
  | some x =>
    obtain ⟨t, ht, -, hclosed⟩ := h.view?_closed s.size (by simp [hn])
      (depth_lt_size rank (lt_size_of_get? hn))
    rw [ht]
    exact hclosed

theorem children_restrict (s : Store) (kept : List NodeId) (p : NodeId) :
    (s.restrict kept).children p = if p ∈ kept then s.children p else [] := by
  unfold Store.children children?
  rw [get?_restrict]
  by_cases hp : p ∈ kept <;> simp [hp]

theorem tracks_restrict {kept : List NodeId} {n : NodeId}
    (h : (s.restrict kept).tracksContainer n = true) : n ∈ kept ∧ s.tracksContainer n = true := by
  unfold tracksContainer at h ⊢
  rw [get?_restrict] at h
  by_cases hn : n ∈ kept
  · exact ⟨hn, by simpa [hn] using h⟩
  · simp [hn] at h

theorem parent?_restrict {kept : List NodeId} {n : NodeId} (hn : n ∈ kept) (p : NodeId) :
    (s.restrict kept).parent? n = some p ↔ p ∈ kept ∧ s.parent? n = some p := by
  have hl : (s.restrict kept).link? n = s.link? n := by
    unfold link?
    rw [get?_restrict]
    simp [hn]
  rw [parent?_eq, parent?_eq, hl, Option.filter_eq_some_iff, Option.filter_eq_some_iff,
    get?_restrict]
  by_cases hp : p ∈ kept <;> simp [hp]

theorem Ordered.restrict (h : Ordered rank s) {kept : List NodeId} (hkept : s.Closed kept) :
    Ordered rank (s.restrict kept) := by
  have hmem : ∀ p m, m ∈ (s.restrict kept).children p → p ∈ kept ∧ m ∈ s.children p := by
    intro p m hm
    rw [children_restrict] at hm
    split at hm
    · next hp => exact ⟨hp, hm⟩
    · cases hm
  refine ⟨fun p m hm => ?_, fun m p hp => ?_, fun m p hm => ?_, fun m p hm => ?_, fun p m hm => ?_⟩
  · obtain ⟨hp, hm⟩ := hmem p m hm
    rw [get?_restrict, if_pos (List.contains_iff_mem.2 (hkept p hp m hm))]
    exact h.alive p m hm
  · have hsize : (s.restrict kept).size = s.size := by simp [Store.restrict, Store.size]
    rw [hsize]
    refine h.known m p ?_
    unfold link? at hp ⊢
    rw [get?_restrict] at hp
    split at hp
    · exact hp
    · cases hp
  · obtain ⟨hkm, hm⟩ := tracks_restrict hm
    rw [parent?_restrict hkm, ← h.agree m p hm, children_restrict]
    split <;> simp_all
  · obtain ⟨-, hm⟩ := tracks_restrict hm
    rw [children_restrict]
    split
    · exact h.once m p hm
    · simp
  · exact h.falls p m (hmem p m hm).2

theorem Ordered.reclaim (h : Ordered rank s) (held : List NodeId) :
    Ordered rank (s.reclaim held) := by
  refine h.restrict fun p hp n hn => ?_
  obtain ⟨m, hm, hp⟩ := List.mem_flatMap.1 hp
  exact List.mem_flatMap.2 ⟨m, hm, h.nodesUnder_closed m p hp n hn⟩

end Unnest.Store
