import Mathlib.Algebra.Order.Field.Basic
import Unnest.Proofs.Store.Order

/-! Moves within a store in order, and what they leave where it is. A pass moves nodes upwards only:
out of a container of some rank into a copy that ranks between the two, or behind a node whose
container ranks higher than the rule in hand. What links to a container of at least a given rank
stays, but for nodes that are named. -/

namespace Unnest

namespace Store

variable {s s₁ s₂ : Store} {rank rank₁ rank₂ : NodeId → ℚ} {c : ℚ} {ns ns' : List NodeId}
  {q r n after : NodeId}

/-- From `s` to `s'` only new nodes, nodes in `ns` and nodes in containers that rank below `c` have
got another container. -/
structure Moved (c : ℚ) (ns : List NodeId) (rank : NodeId → ℚ) (s : Store) (rank' : NodeId → ℚ)
    (s' : Store) : Prop where
  ordered : Ordered rank' s'
  ranks : ∀ n, n < s.size → rank' n = rank n
  size : s.size ≤ s'.size
  alive : ∀ n, (s.get? n).isSome = true → (s'.get? n).isSome = true
  tracks : ∀ n, n < s.size → s'.tracksContainer n = s.tracksContainer n
  stays : ∀ n, n < s.size → n ∉ ns → (∀ p, s.parent? n = some p → c ≤ rank p) →
    s'.parent? n = s.parent? n

theorem Moved.refl (h : Ordered rank s) : Moved c ns rank s rank s :=
  ⟨h, fun _ _ => rfl, Nat.le_refl _, fun _ => id, fun _ _ => rfl, fun _ _ _ _ => rfl⟩

theorem Moved.trans (h : Moved c ns rank s rank₁ s₁) (h' : Moved c ns' rank₁ s₁ rank₂ s₂)
    (hns : ∀ n ∈ ns', n < s.size → n ∈ ns) : Moved c ns rank s rank₂ s₂ where
  ordered := h'.ordered
  ranks n hn := (h'.ranks n (Nat.lt_of_lt_of_le hn h.size)).trans (h.ranks n hn)
  size := Nat.le_trans h.size h'.size
  alive n hn := h'.alive n (h.alive n hn)
  tracks n hn := (h'.tracks n (Nat.lt_of_lt_of_le hn h.size)).trans (h.tracks n hn)
  stays n hn hnot hhigh := by
    have hsame := h.stays n hn hnot hhigh
    rw [← hsame]
    refine h'.stays n (Nat.lt_of_lt_of_le hn h.size) (fun hm => hnot (hns n hm hn)) fun p hp => ?_
    rw [hsame] at hp
    rw [h.ranks p (lt_size_of_isSome (isSome_of_parent? hp))]
    exact hhigh p hp

/-- What came only with the first moves need not be named. -/
theorem Moved.trans_new {n : NodeId} (h : Moved c ns rank s rank₁ s₁)
    (h' : Moved c [n] rank₁ s₁ rank₂ s₂) (hn : s.size ≤ n) : Moved c ns rank s rank₂ s₂ :=
  h.trans h' fun m hm hlt => by
    rw [List.mem_singleton.1 hm] at hlt
    exact absurd hlt (Nat.not_lt.2 hn)

/-- A node that has left a low container need not be named. -/
theorem Moved.unname (h : Moved c ns rank s rank₁ s₁)
    (hns : ∀ n ∈ ns, s.tracksContainer n = true → ∃ p, s.parent? n = some p ∧ rank p < c) :
    Moved c ns' rank s rank₁ s₁ where
  ordered := h.ordered
  ranks := h.ranks
  size := h.size
  alive := h.alive
  tracks := h.tracks
  stays n hn _ hhigh := by
    by_cases hm : n ∈ ns
    · cases ht : s.tracksContainer n with
      | true =>
        obtain ⟨p, hp, hlow⟩ := hns n hm ht
        exact absurd hlow (not_lt.2 (hhigh p hp))
      | false =>
        rw [parent?_of_not_tracks ht, parent?_of_not_tracks (by rwa [h.tracks n hn])]
    · exact h.stays n hn hm hhigh

theorem Moved.widen (h : Moved c ns rank s rank₁ s₁) (hns : ns ⊆ ns') :
    Moved c ns' rank s rank₁ s₁ :=
  { h with stays := fun n hn hnot => h.stays n hn fun hm => hnot (hns hm) }

theorem Moved.raise {c' : ℚ} (h : Moved c ns rank s rank₁ s₁) (hc : c ≤ c') :
    Moved c' ns rank s rank₁ s₁ :=
  { h with stays := fun n hn hnot hhigh =>
      h.stays n hn hnot fun p hp => le_trans hc (hhigh p hp) }

/-- The nodes in `ns` are there, rank below `q` and stand in `q`, rules and at-rules once. -/
structure Stock (rank : NodeId → ℚ) (s : Store) (q : NodeId) (ns : List NodeId) : Prop where
  known : q < s.size
  alive : ∀ n ∈ ns, (s.get? n).isSome = true
  falls : ∀ n ∈ ns, rank n < rank q
  stand : ∀ n ∈ ns, s.tracksContainer n = true → s.parent? n = some q
  once : ∀ n ∈ ns, s.tracksContainer n = true → ns.count n ≤ 1

theorem Ordered.stock (h : Ordered rank s) (hq : q < s.size) :
    Stock rank s q (s.children q) where
  known := hq
  alive := h.alive q
  falls := h.falls q
  stand n hn ht := (h.agree n q ht).1 hn
  once n _ ht := h.once n q ht

theorem Stock.sublist (h : Stock rank s q ns) (hs : ns'.Sublist ns) : Stock rank s q ns' where
  known := h.known
  alive n hn := h.alive n (hs.subset hn)
  falls n hn := h.falls n (hs.subset hn)
  stand n hn := h.stand n (hs.subset hn)
  once n hn ht := Nat.le_trans (hs.count_le n) (h.once n (hs.subset hn) ht)

theorem Stock.perm (h : Stock rank s q ns) (hp : ns.Perm ns') : Stock rank s q ns' where
  known := h.known
  alive n hn := h.alive n (hp.mem_iff.2 hn)
  falls n hn := h.falls n (hp.mem_iff.2 hn)
  stand n hn := h.stand n (hp.mem_iff.2 hn)
  once n hn ht := hp.count_eq n ▸ h.once n (hp.mem_iff.2 hn) ht

theorem Stock.not_mem (h : Stock rank s q (ns ++ ns')) (hn : n ∈ ns')
    (ht : s.tracksContainer n = true) : n ∉ ns := by
  intro hm
  have hcount := h.once n (List.mem_append_right ns hn) ht
  rw [List.count_append] at hcount
  have h₁ := List.count_pos_iff.2 hm
  have h₂ := List.count_pos_iff.2 hn
  omega

theorem Stock.low (h : Stock rank s q ns) (hq : rank q < c) :
    ∀ n ∈ ns, s.tracksContainer n = true → ∃ p, s.parent? n = some p ∧ rank p < c :=
  fun n hn ht => ⟨q, h.stand n hn ht, hq⟩

/-- What is moved away from a container leaves the others there. -/
theorem Stock.moved (h : Stock rank s q (ns ++ ns')) (hm : Moved c ns rank s rank₁ s₁)
    (hc : c ≤ rank q) : Stock rank₁ s₁ q ns' := by
  have hrest := h.sublist (List.sublist_append_right ns ns')
  have hlt : ∀ n ∈ ns', n < s.size := fun n hn => lt_size_of_isSome (hrest.alive n hn)
  refine ⟨Nat.lt_of_lt_of_le h.known hm.size, fun n hn => hm.alive n (hrest.alive n hn),
    fun n hn => ?_, fun n hn ht => ?_, fun n hn ht => ?_⟩
  · rw [hm.ranks n (hlt n hn), hm.ranks q h.known]
    exact hrest.falls n hn
  · rw [hm.tracks n (hlt n hn)] at ht
    have hstand := hrest.stand n hn ht
    rw [hm.stays n (hlt n hn) (h.not_mem hn ht) fun p hp => ?_, hstand]
    obtain rfl := Option.some.inj (hstand.symm.trans hp)
    exact hc
  · rw [hm.tracks n (hlt n hn)] at ht
    exact hrest.once n hn ht

theorem Stock.kept (h : Stock rank s q ns) (hm : Moved c [] rank s rank₁ s₁) (hc : c ≤ rank q) :
    Stock rank₁ s₁ q ns :=
  Stock.moved (show Stock rank s q ([] ++ ns) from h) hm hc

/-- What goes behind `after` leaves the rule `r` upwards. -/
structure Anchored (rank : NodeId → ℚ) (s : Store) (r after : NodeId) : Prop where
  known : after < s.size
  above : ∀ p, s.parent? after = some p → rank r < rank p

theorem Anchored.not_mem (h : Anchored rank s r after) (hs : Stock rank s q ns)
    (hq : rank q ≤ rank r) (ht : s.tracksContainer after = true) : after ∉ ns :=
  fun hm => absurd (h.above q (hs.stand after hm ht)) (not_lt.2 hq)

theorem Anchored.moved (h : Anchored rank s r after) (hr : r < s.size)
    (hm : Moved c ns rank s rank₁ s₁) (hc : c ≤ rank r)
    (hns : s.tracksContainer after = true → after ∉ ns) : Anchored rank₁ s₁ r after := by
  refine ⟨Nat.lt_of_lt_of_le h.known hm.size, fun p hp => ?_⟩
  have ht : s.tracksContainer after = true := by
    rw [← hm.tracks after h.known]
    exact Ordered.tracks_of_parent? hp
  rw [hm.stays after h.known (hns ht) fun p hp => le_trans hc (le_of_lt (h.above p hp))] at hp
  rw [hm.ranks r hr, hm.ranks p (lt_size_of_isSome (isSome_of_parent? hp))]
  exact h.above p hp

/-! The single moves. -/

theorem Moved.of_alike (h : Ordered rank s₁) (ha : Alike s s₁)
    (hp : ∀ m, m ∉ ns → s₁.parent? m = s.parent? m) : Moved c ns rank s rank s₁ where
  ordered := h
  ranks _ _ := rfl
  size := Nat.le_of_eq ha.size.symm
  alive m hm := by rwa [ha.isSome]
  tracks m _ := ha.tracks m
  stays m _ hm _ := hp m hm

theorem Ordered.moved_editSelectors (h : Ordered rank s) (n : NodeId)
    (f : List String → List String) : Moved c ns rank s rank (s.editSelectors n f) := by
  have ha : Alike s (s.editSelectors n f) :=
    alike_modify s n (Node.tracksContainer_editSelectors · f) (Node.isContainer_editSelectors · f)
  exact Moved.of_alike (h.editSelectors n f) ha fun m _ =>
    parent?_congr ha (link?_modify s n m (Node.link_editSelectors · f))

theorem Ordered.moved_remove (h : Ordered rank s) (p n : NodeId) :
    Moved c [n] rank s rank (s.remove p n).2 :=
  Moved.of_alike (h.remove p n) (alike_remove s p n) fun m hm => by
    rw [parent?_remove, if_neg fun hc => hm (List.mem_singleton.2 hc.1)]

theorem Ordered.moved_detach (h : Ordered rank s) (n : NodeId) :
    Moved c [n] rank s rank (s.detach n).2 :=
  Moved.of_alike (h.detach n) (alike_detach s n) fun _ hm =>
    parent?_detach_ne s (List.ne_of_not_mem_cons hm)

theorem Ordered.moved_alloc (h : Ordered rank s) {x : Node} (hx : x.isNew = true) (v : ℚ) :
    Moved c ns rank s (Function.update rank s.size v) (s.alloc x).2 where
  ordered := h.alloc hx v
  ranks n hn := Function.update_of_ne (Nat.ne_of_lt hn) v rank
  size := by simp
  alive n hn := by rwa [isSome_alloc_of_ne s x (Nat.ne_of_lt (lt_size_of_isSome hn))]
  tracks n hn := tracks_alloc_of_ne s x (Nat.ne_of_lt hn)
  stays n hn _ _ := by
    have hl : x.link = none := by
      simp only [Node.isNew, Bool.and_eq_true, Option.isNone_iff_eq_none] at hx
      exact hx.1
    rw [h.parent?_alloc hl, if_neg (Nat.ne_of_lt hn)]

theorem Ordered.moved_insert (h : Ordered rank s) (hn : (s.get? n).isSome = true)
    {add : List NodeId → List NodeId} (hadd : ∀ cs, (add cs).Perm (n :: cs))
    (hr : s.isContainer q = true → rank n < rank q) (hok : s.insert q n add = .ok () s₁) :
    Moved c [n] rank s rank s₁ := by
  have hstore : (s.insert q n add).store = s₁ := by rw [hok]; rfl
  have hord := h.insert hn hadd hr
  rw [hstore] at hord
  unfold Store.insert at hok
  split at hok
  · cases hok
  · next x hx =>
    split at hok
    · next hc =>
      have hq : (s.detach n).2.isContainer q = true := by
        rw [(alike_detach s n).isContainer, Store.isContainer, hx]
        exact hc
      obtain rfl : s.adopt q n add = s₁ := by
        injection hok
      refine Moved.of_alike hord ((alike_detach s n).trans (alike_place _ q n add)) fun m hm => ?_
      have hm := List.ne_of_not_mem_cons hm
      rw [adopt_eq, parent?_place hq, if_neg fun hc => hm hc.1, parent?_detach_ne s hm]
    · cases hok

/-- Behind `after` a node has the container of `after`. -/
theorem Ordered.moved_insertAfter (h : Ordered rank s) (hn : (s.get? n).isSome = true)
    (hr : ∀ p, s.parent? after = some p → rank n < rank p)
    (hok : s.insertAfter after n = .ok () s₁) :
    Moved c [n] rank s rank s₁ ∧ ∀ p, s₁.parent? n = some p → s.parent? after = some p := by
  have hord := h.insertAfter hn fun _ => hr
  rw [show (s.insertAfter after n).store = s₁ by rw [hok]; rfl] at hord
  by_cases hne : after = n
  · rw [Store.insertAfter, if_pos hne] at hok
    obtain rfl : s = s₁ := by injection hok
    exact ⟨Moved.refl h, fun p hp => hne ▸ hp⟩
  · rw [h.insertAfter_eq hne] at hok
    cases hp : s.parent? after with
    | none => simp [hp] at hok
    | some p =>
      rw [hp] at hok
      obtain rfl : (s.detach n).2.place p n (putAfter after n) = s₁ := by injection hok
      have hc : (s.detach n).2.isContainer p = true := by
        rw [(alike_detach s n).isContainer]
        exact h.isContainer_of_parent? hp
      refine ⟨Moved.of_alike hord ((alike_detach s n).trans (alike_place _ p n _)) fun m hm => ?_,
        fun p' hp' => ?_⟩
      · have hm := List.ne_of_not_mem_cons hm
        rw [parent?_place hc, if_neg fun hc => hm hc.1, parent?_detach_ne s hm]
      · have ht := Ordered.tracks_of_parent? hp'
        rw [(alike_place _ p n _).tracks] at ht
        rwa [parent?_place hc, if_pos ⟨rfl, ht⟩] at hp'

/-- Room for a rank above the nodes of a list and below their container. -/
theorem exists_rank_between {b : ℚ} (h : ∀ n ∈ ns, rank n < b) :
    ∃ v, v < b ∧ ∀ n ∈ ns, rank n < v := by
  induction ns with
  | nil => exact ⟨b - 1, by linarith, by simp⟩
  | cons n ns ih =>
    obtain ⟨v, hv, hall⟩ := ih fun m hm => h m (List.mem_cons_of_mem n hm)
    obtain ⟨w, hnw, hwb⟩ := exists_between (h n List.mem_cons_self)
    refine ⟨max v w, max_lt hv hwb, List.forall_mem_cons.2 ⟨lt_max_of_lt_right hnw, fun m hm => ?_⟩⟩
    exact lt_max_of_lt_left (hall m hm)

end Store

end Unnest
