import Unnest.Proofs.Store.Order

/-! Where a moved node lands. A move takes the node out of one list and puts it into one list, which
may be the same: a place beside `anchor` is therefore a place in the list that the node has already
left, whether it stood before `anchor`, behind it or elsewhere (`without`). -/

namespace Unnest.Store

variable {s s' : Store} {n p q anchor : NodeId}

/-- The list with every `n` taken out. -/
def without (n : NodeId) (cs : List NodeId) : List NodeId := cs.filter (· != n)

theorem without_of_not_mem {cs : List NodeId} (h : n ∉ cs) : without n cs = cs := by
  apply List.filter_eq_self.2
  intro c hc
  simpa using fun he : c = n => h (he ▸ hc)

theorem without_eq_erase {cs : List NodeId} (h : cs.count n ≤ 1) : without n cs = cs.erase n := by
  induction cs with
  | nil => rfl
  | cons c cs ih =>
    by_cases hc : c = n
    · subst hc
      have hrest : c ∉ cs := by
        rw [List.count_cons_self] at h
        exact List.count_eq_zero.1 (by omega)
      rw [List.erase_cons_head]
      simpa [without] using without_of_not_mem hrest
    · rw [List.count_cons_of_ne hc] at h
      rw [List.erase_cons_tail (by simpa using hc), ← ih h]
      simp [without, hc]

theorem mem_without {cs : List NodeId} {m : NodeId} : m ∈ without n cs ↔ m ∈ cs ∧ m ≠ n := by
  simp [without]

/-! What the steps of a move do to child lists, there or not. -/

theorem children?_detach_of_ne {m : NodeId} (h : s.parent? n ≠ some m) :
    (s.detach n).2.children? m = s.children? m := by
  unfold detach
  cases hp : s.parent? n with
  | none => exact children?_modify s n m (Node.children?_withLink · none)
  | some p =>
    have hne : m ≠ p := fun he => h (he ▸ hp)
    rw [children?_remove, if_neg fun hc => hne hc.1]

theorem children?_eq_some (h : n ∈ s.children p) : s.children? p = some (s.children p) := by
  unfold Store.children at *
  cases hc : s.children? p with
  | none => simp [hc] at h
  | some cs => rfl

theorem children?_eq_none (h : s.isContainer p = false) : s.children? p = none := by
  unfold Store.isContainer at h
  unfold children?
  cases hx : s.get? p with
  | none => rfl
  | some x => cases x <;> simp_all [Node.isContainer, Node.children?]

/-! Where links and child lists agree, a node that leaves its container leaves one place. -/

theorem Coherent.mem_of_parent? (h : s.Coherent) (hp : s.isContainer p = true)
    (hn : s.parent? n = some p) : n ∈ s.children p :=
  (h.linked n p (Ordered.tracks_of_parent? hn) hp).2 hn

theorem Coherent.count_le (h : s.Coherent) (hn : s.tracksContainer n = true) (p : NodeId) :
    (s.children p).count n ≤ 1 := by
  by_cases hm : n ∈ s.children p
  · exact (h.once n p hn hm).le
  · rw [List.count_eq_zero_of_not_mem hm]
    exact Nat.zero_le 1

theorem Coherent.children_detach (h : s.Coherent) (hn : s.tracksContainer n = true) (p : NodeId) :
    (s.detach n).2.children p = without n (s.children p) := by
  rw [Store.children_detach]
  split
  · exact (without_eq_erase (h.count_le hn p)).symm
  · next hp =>
    refine (without_of_not_mem fun hm => hp ?_).symm
    exact (h.linked n p hn (isContainer_of_mem hm)).1 hm

theorem Coherent.children?_detach (h : s.Coherent) (hq : s.parent? n = some q) :
    (s.detach n).2.children? q = (s.children? q).map (without n) := by
  unfold detach
  rw [hq]
  dsimp only
  rw [children?_remove]
  cases hc : s.isContainer q with
  | false => simp [children?_eq_none hc]
  | true =>
    have hm : n ∈ s.children q := h.mem_of_parent? hc hq
    have hn : s.tracksContainer n = true := Ordered.tracks_of_parent? hq
    simp [children?_eq_some hm, without_eq_erase (h.count_le hn q)]

/-- What a move of `n` into `p` leaves: `p` has the list `cs`, the container that `n` comes from has
lost `n` and nothing else, and all other lists and links are as before. If `n` comes from `p` itself,
it is `cs` that tells what `p` has lost. -/
structure Lands (s : Store) (n p : NodeId) (cs : List NodeId) (s' : Store) : Prop where
  list : s'.children? p = some cs
  container : s'.parent? n = some p
  old : ∀ q, s.parent? n = some q → q ≠ p → s'.children? q = (s.children? q).map (without n)
  lists : ∀ m, m ≠ p → s.parent? n ≠ some m → s'.children? m = s.children? m
  links : ∀ m, m ≠ n → s'.link? m = s.link? m
  containers : ∀ m, m ≠ n → s'.parent? m = s.parent? m

theorem Coherent.lands_adopt (h : s.Coherent) (hn : s.tracksContainer n = true)
    (hp : s.isContainer p = true) (add : List NodeId → List NodeId) :
    Lands s n p (add (without n (s.children p))) (s.adopt p n add) := by
  have halike := alike_detach s n
  have hp' : (s.detach n).2.isContainer p = true := by rw [halike.isContainer, hp]
  have hn' : (s.detach n).2.tracksContainer n = true := by rw [halike.tracks, hn]
  rw [adopt_eq]
  refine ⟨?_, ?_, fun q hq hne => ?_, fun m hm hold => ?_, fun m hm => ?_, fun m hm => ?_⟩
  · rw [children?_place, if_pos ⟨rfl, hp'⟩, h.children_detach hn]
  · rw [parent?_place hp', if_pos ⟨rfl, hn'⟩]
  · rw [children?_place, if_neg fun hc => hne hc.1, h.children?_detach hq]
  · rw [children?_place, if_neg fun hc => hm hc.1, children?_detach_of_ne hold]
  · rw [link?_place, if_neg fun hc => hm hc.1, link?_detach_ne s hm]
  · rw [parent?_place hp', if_neg fun hc => hm hc.1, parent?_detach_ne s hm]

theorem insert_eq (hp : s.isContainer p = true) (n : NodeId) (add : List NodeId → List NodeId) :
    s.insert p n add = .ok () (s.adopt p n add) := by
  obtain ⟨x, hx⟩ := Option.isSome_iff_exists.1 (isSome_of_isContainer hp)
  have hxc : x.isContainer = true := by simpa [Store.isContainer, hx] using hp
  simp [insert, hx, hxc]

/-- The anchor is still there when the node has left, and the node goes behind it. -/
theorem Coherent.insertAfter_eq (h : s.Coherent) (hn : s.tracksContainer n = true)
    (hq : s.isContainer q = true) (ha : s.parent? anchor = some q) (hne : anchor ≠ n) :
    s.insertAfter anchor n = .ok () (s.adopt q n (putAfter anchor n)) := by
  have hleft : anchor ∈ (s.detach n).2.children q := by
    rw [h.children_detach hn, mem_without]
    exact ⟨h.mem_of_parent? hq ha, hne⟩
  unfold insertAfter
  rw [if_neg hne]
  dsimp only
  rw [parent?_detach_ne s hne, ha]
  dsimp only
  rw [if_pos (List.contains_iff_mem.2 hleft)]
  rfl

/-- A rule or at-rule goes where it is sent, whichever place it comes from: to the end or the start
of a container, or right behind a rule or at-rule in the container of that one. -/
theorem moves_land (h : s.Coherent) (hn : s.tracksContainer n = true)
    (hp : s.isContainer p = true) (hq : s.isContainer q = true) (ha : s.parent? anchor = some q)
    (hne : anchor ≠ n) :
    (∃ s', s.append p n = .ok () s' ∧ Lands s n p (without n (s.children p) ++ [n]) s') ∧
    (∃ s', s.prepend p n = .ok () s' ∧ Lands s n p (n :: without n (s.children p)) s') ∧
    ∃ s' before after, s.insertAfter anchor n = .ok () s' ∧
      without n (s.children q) = before ++ anchor :: after ∧
      Lands s n q (before ++ anchor :: n :: after) s' := by
  refine ⟨?_, ?_, ?_⟩
  · exact ⟨_, insert_eq hp n _, h.lands_adopt hn hp (· ++ [n])⟩
  · exact ⟨_, insert_eq hp n _, h.lands_adopt hn hp (n :: ·)⟩
  · have hmem : anchor ∈ without n (s.children q) :=
      mem_without.2 ⟨h.mem_of_parent? hq ha, hne⟩
    obtain ⟨before, after, hlist, hbefore⟩ := List.eq_append_cons_of_mem hmem
    have hput : putAfter anchor n (before ++ anchor :: after) = before ++ anchor :: n :: after :=
      putAfter_append anchor n hbefore
    have hlands := h.lands_adopt hn hq (putAfter anchor n)
    rw [hlist, hput] at hlands
    exact ⟨_, before, after, h.insertAfter_eq hn hq ha hne, hlist, hlands⟩

/-- A document with the rules `a` and `b`. -/
def pairStore : Store :=
  ⟨#[some (.root [1, 2]), some (.rule ["a"] [] (some 0)), some (.rule ["b"] [] (some 0))]⟩

theorem pairStore_coherent : pairStore.Coherent := by
  let s₀ : Store := ⟨#[some (.root []), some (.rule ["a"] [] none), some (.rule ["b"] [] none)]⟩
  let s₁ : Store :=
    ⟨#[some (.root [1]), some (.rule ["a"] [] (some 0)), some (.rule ["b"] [] none)]⟩
  have h₀ : s₀.InOrder := (((inOrder_empty.alloc (x := .root []) rfl).alloc
    (x := .rule ["a"] [] none) rfl).alloc (x := .rule ["b"] [] none) rfl)
  have h₁ : s₁.InOrder := h₀.append (p := 0) (n := 1) rfl (not_reaches rfl (by decide))
  have h₂ : pairStore.InOrder := h₁.append (p := 0) (n := 2) rfl (not_reaches rfl (by decide))
  exact h₂.coherent

/-- The rule `a` goes into `b` at its end or start, or behind `b` in the list it stands in already. -/
theorem moves_land_in_pair :
    pairStore.Coherent ∧ pairStore.tracksContainer 1 = true ∧ pairStore.isContainer 2 = true ∧
    pairStore.isContainer 0 = true ∧ pairStore.parent? 2 = some 0 ∧
    (∃ s', pairStore.append 2 1 = .ok () s' ∧ Lands pairStore 1 2 [1] s') ∧
    (∃ s', pairStore.prepend 2 1 = .ok () s' ∧ Lands pairStore 1 2 [1] s') ∧
    ∃ s' before after, pairStore.insertAfter 2 1 = .ok () s' ∧ [2] = before ++ 2 :: after ∧
      Lands pairStore 1 0 (before ++ 2 :: 1 :: after) s' :=
  ⟨pairStore_coherent, rfl, rfl, rfl, rfl,
    moves_land pairStore_coherent rfl rfl rfl rfl (show 2 ≠ 1 by decide)⟩

end Unnest.Store
