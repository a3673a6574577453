import Mathlib.Algebra.Order.Ring.Rat
import Mathlib.Logic.Relation
import Mathlib.Tactic.Linarith
import Unnest.Store.Reclaim
import Unnest.Proofs.Store.Cells

/-! Links and child lists. Where only moves change a store, a rule or at-rule stands in the list of
the container it links to, once and nowhere else, and no container lies below itself. The proofs
keep a rank for each node, lower for a child than for its container; a move keeps the ranks it finds
if what it moves ranks below the new container, and a move of `n` into `p` finds such ranks unless
`p` is `n` or lies below it (`Ordered.exists_lt`). -/

namespace Unnest

namespace Node

/-- A node as it is made, without children and without a container. -/
def isNew (x : Node) : Bool := x.link.isNone && (x.children?.getD []).isEmpty

@[simp] theorem tracksContainer_withLink (x : Node) (l : Option NodeId) :
    (x.withLink l).tracksContainer = x.tracksContainer := by
  cases x <;> rfl

@[simp] theorem tracksContainer_editChildren (x : Node) (f : List NodeId → List NodeId) :
    (x.editChildren f).tracksContainer = x.tracksContainer := by
  cases x <;> rfl

@[simp] theorem tracksContainer_editSelectors (x : Node) (f : List String → List String) :
    (x.editSelectors f).tracksContainer = x.tracksContainer := by
  cases x <;> rfl

@[simp] theorem isContainer_withLink (x : Node) (l : Option NodeId) :
    (x.withLink l).isContainer = x.isContainer := by
  cases x <;> rfl

@[simp] theorem isContainer_editChildren (x : Node) (f : List NodeId → List NodeId) :
    (x.editChildren f).isContainer = x.isContainer := by
  cases x <;> rfl

@[simp] theorem isContainer_editSelectors (x : Node) (f : List String → List String) :
    (x.editSelectors f).isContainer = x.isContainer := by
  cases x <;> rfl

theorem children?_editChildren (x : Node) (f : List NodeId → List NodeId) :
    (x.editChildren f).children? =
      if x.isContainer then some (f (x.children?.getD [])) else x.children? := by
  cases x <;> rfl

theorem link_eq_none {x : Node} (h : x.tracksContainer = false) : x.link = none := by
  cases x <;> simp_all [tracksContainer, link]

end Node

/-- What an operation leaves, failed or not. -/
def Outcome.store : Outcome → Store
  | .ok _ s => s
  | .error _ s => s

namespace Store

/-- Whether `n` is a rule or an at-rule. -/
def tracksContainer (s : Store) (n : NodeId) : Bool := (s.get? n).any Node.tracksContainer

def isContainer (s : Store) (n : NodeId) : Bool := (s.get? n).any Node.isContainer

/-- The container that `n` was given, there or gone. -/
def link? (s : Store) (n : NodeId) : Option NodeId := (s.get? n).bind Node.link

def Lists (s : Store) (p n : NodeId) : Prop := n ∈ s.children p

/-- `n` is `p` or lies below it. -/
def Reaches (s : Store) : NodeId → NodeId → Prop := Relation.ReflTransGen s.Lists

/-- Links and child lists of living nodes agree, and no node lies below itself. -/
structure Coherent (s : Store) : Prop where
  linked : ∀ n p, s.tracksContainer n = true → s.isContainer p = true →
    (n ∈ s.children p ↔ s.parent? n = some p)
  once : ∀ n p, s.tracksContainer n = true → n ∈ s.children p → (s.children p).count n = 1
  single : ∀ n p q, s.tracksContainer n = true → n ∈ s.children p → n ∈ s.children q → p = q
  acyclic : ∀ n, ¬ Relation.TransGen s.Lists n n

/-- Links and child lists agree, and ranks fall from a container to its children. -/
structure Ordered (rank : NodeId → ℚ) (s : Store) : Prop where
  alive : ∀ p, ∀ n ∈ s.children p, (s.get? n).isSome = true
  known : ∀ n p, s.link? n = some p → p < s.size
  agree : ∀ n p, s.tracksContainer n = true → (n ∈ s.children p ↔ s.parent? n = some p)
  once : ∀ n p, s.tracksContainer n = true → (s.children p).count n ≤ 1
  falls : ∀ p, ∀ n ∈ s.children p, rank n < rank p

def InOrder (s : Store) : Prop := ∃ rank, Ordered rank s

variable {s s' : Store} {rank : NodeId → ℚ} {n p : NodeId}

/-! What the steps of a move do to lists and links. -/

theorem parent?_eq (s : Store) (n : NodeId) :
    s.parent? n = (s.link? n).filter fun p => (s.get? p).isSome := rfl

theorem link?_of_not_tracks (h : s.tracksContainer n = false) : s.link? n = none := by
  unfold tracksContainer at h
  unfold link?
  cases hx : s.get? n with
  | none => rfl
  | some x => exact Node.link_eq_none (by simpa [hx] using h)

theorem parent?_of_not_tracks (h : s.tracksContainer n = false) : s.parent? n = none := by
  rw [parent?_eq, link?_of_not_tracks h]
  rfl

theorem lt_size_of_isSome (h : (s.get? n).isSome = true) : n < s.size := by
  obtain ⟨x, hx⟩ := Option.isSome_iff_exists.1 h
  exact lt_size_of_get? hx

theorem isSome_of_parent? (h : s.parent? n = some p) : (s.get? p).isSome = true := by
  rw [parent?_eq, Option.filter_eq_some_iff] at h
  exact h.2

theorem children_eq_nil (h : s.isContainer p = false) : s.children p = [] := by
  unfold isContainer at h
  unfold Store.children children?
  cases hx : s.get? p with
  | none => rfl
  | some x => cases x <;> simp_all [Node.isContainer, Node.children?]

/-- The two stores have nodes of the same kinds. -/
structure Alike (s s' : Store) : Prop where
  size : s'.size = s.size
  isSome : ∀ n, (s'.get? n).isSome = (s.get? n).isSome
  tracks : ∀ n, s'.tracksContainer n = s.tracksContainer n
  isContainer : ∀ n, s'.isContainer n = s.isContainer n

theorem Alike.refl (s : Store) : Alike s s := ⟨rfl, fun _ => rfl, fun _ => rfl, fun _ => rfl⟩

theorem Alike.trans {s₁ s₂ : Store} (h : Alike s s₁) (h' : Alike s₁ s₂) : Alike s s₂ :=
  ⟨h'.size.trans h.size, fun n => (h'.isSome n).trans (h.isSome n),
    fun n => (h'.tracks n).trans (h.tracks n), fun n => (h'.isContainer n).trans (h.isContainer n)⟩

theorem alike_modify (s : Store) (n : NodeId) {f : Node → Node}
    (ht : ∀ x, (f x).tracksContainer = x.tracksContainer)
    (hc : ∀ x, (f x).isContainer = x.isContainer) : Alike s (s.modify n f) := by
  refine ⟨size_modify .., fun m => ?_, fun m => ?_, fun m => ?_⟩
  · rw [get?_modify]
    split <;> simp
  · unfold tracksContainer
    rw [get?_modify]
    split <;> cases s.get? m <;> simp [ht]
  · unfold Store.isContainer
    rw [get?_modify]
    split <;> cases s.get? m <;> simp [hc]

theorem link?_modify (s : Store) (n m : NodeId) {f : Node → Node} (h : ∀ x, (f x).link = x.link) :
    (s.modify n f).link? m = s.link? m := by
  unfold link?
  rw [get?_modify]
  split <;> cases s.get? m <;> simp [h]

theorem children?_modify (s : Store) (n p : NodeId) {f : Node → Node}
    (h : ∀ x, (f x).children? = x.children?) : (s.modify n f).children? p = s.children? p := by
  unfold children?
  rw [get?_modify]
  split <;> cases s.get? p <;> simp [h]

theorem children_modify (s : Store) (n p : NodeId) {f : Node → Node}
    (h : ∀ x, (f x).children? = x.children?) : (s.modify n f).children p = s.children p := by
  rw [Store.children, children?_modify s n p h, Store.children]

theorem children?_modify_editChildren (s : Store) (p q : NodeId)
    (f : List NodeId → List NodeId) :
    (s.modify p (Node.editChildren f)).children? q =
      if q = p ∧ s.isContainer p = true then some (f (s.children p)) else s.children? q := by
  unfold Store.children children? Store.isContainer
  rw [get?_modify]
  by_cases h : p = q
  · subst h
    cases hx : s.get? p with
    | none => simp
    | some x => cases hc : x.isContainer <;> simp [Node.children?_editChildren, hc]
  · simp [h, Ne.symm h]

theorem link?_modify_withLink (s : Store) (n m : NodeId) (l : Option NodeId) :
    (s.modify n (Node.withLink l)).link? m =
      if m = n ∧ s.tracksContainer n = true then l else s.link? m := by
  unfold link? tracksContainer
  rw [get?_modify]
  by_cases h : n = m
  · subst h
    cases hx : s.get? n with
    | none => simp
    | some x =>
      cases ht : x.tracksContainer with
      | true => simp [ht]
      | false => simp [ht, Node.link_eq_none ht]
  · simp [h, Ne.symm h]

theorem parent?_congr (h : Alike s s') (hl : s'.link? n = s.link? n) :
    s'.parent? n = s.parent? n := by
  rw [parent?_eq, parent?_eq, hl]
  simp only [h.isSome]

theorem alike_remove (s : Store) (p n : NodeId) : Alike s (s.remove p n).2 := by
  have h := alike_modify s p (Node.tracksContainer_editChildren · (·.erase n))
    (Node.isContainer_editChildren · (·.erase n))
  unfold remove
  dsimp only
  split
  · exact h.trans (alike_modify _ n (Node.tracksContainer_withLink · none)
      (Node.isContainer_withLink · none))
  · exact h

theorem children?_remove (s : Store) (p n q : NodeId) :
    (s.remove p n).2.children? q =
      if q = p ∧ s.isContainer p = true then some ((s.children p).erase n) else s.children? q := by
  rw [← children?_modify_editChildren s p q (·.erase n)]
  unfold remove
  dsimp only
  split
  · exact children?_modify _ _ _ (Node.children?_withLink · none)
  · rfl

theorem children_remove (s : Store) (p n q : NodeId) :
    (s.remove p n).2.children q = if q = p then (s.children p).erase n else s.children q := by
  rw [Store.children, children?_remove]
  cases hp : s.isContainer p with
  | true => split <;> simp_all [Store.children]
  | false =>
    by_cases hq : q = p
    · subst hq
      have hnil : (s.children? q).getD [] = [] := children_eq_nil hp
      simp [hnil, Store.children]
    · simp [hq, Store.children]

theorem link?_remove (s : Store) (p n m : NodeId) :
    (s.remove p n).2.link? m = if m = n ∧ n ∈ s.children p then none else s.link? m := by
  have hedit : ∀ m, (s.modify p (Node.editChildren (·.erase n))).link? m = s.link? m := fun m =>
    link?_modify _ _ _ (Node.link_editChildren · _)
  have htracks := (alike_modify s p (Node.tracksContainer_editChildren · (·.erase n))
    (Node.isContainer_editChildren · _)).tracks n
  unfold remove
  dsimp only
  by_cases hn : n ∈ s.children p
  · rw [if_pos (List.contains_iff_mem.2 hn), link?_modify_withLink, hedit, htracks]
    cases ht : s.tracksContainer n with
    | true => simp [hn]
    | false =>
      by_cases hm : m = n
      · simp [hm, hn, link?_of_not_tracks ht]
      · simp [hm]
  · rw [if_neg (by simpa using hn), hedit]
    simp [hn]

theorem parent?_remove (s : Store) (p n m : NodeId) :
    (s.remove p n).2.parent? m = if m = n ∧ n ∈ s.children p then none else s.parent? m := by
  rw [parent?_eq, link?_remove]
  simp only [(alike_remove s p n).isSome]
  split <;> rfl

/-- A change that neither lists nor links notice. -/
theorem Ordered.congr (h : Ordered rank s) (ha : Alike s s')
    (hc : ∀ p, s'.children p = s.children p) (hl : ∀ n, s'.link? n = s.link? n) :
    Ordered rank s' := by
  refine ⟨fun p n hn => ?_, fun n p hp => ?_, fun n p hn => ?_, fun n p hn => ?_, fun p n hn => ?_⟩
  · rw [ha.isSome]
    exact h.alive p n (by rwa [hc] at hn)
  · rw [ha.size]
    exact h.known n p (by rwa [hl] at hp)
  · rw [hc, parent?_congr ha (hl n)]
    exact h.agree n p (by rwa [ha.tracks] at hn)
  · rw [hc]
    exact h.once n p (by rwa [ha.tracks] at hn)
  · exact h.falls p n (by rwa [hc] at hn)

theorem Ordered.editSelectors (h : Ordered rank s) (n : NodeId) (f : List String → List String) :
    Ordered rank (s.editSelectors n f) :=
  h.congr (alike_modify s n (Node.tracksContainer_editSelectors · f)
      (Node.isContainer_editSelectors · f))
    (fun p => children_modify s n p (Node.children?_editSelectors · f))
    (fun m => link?_modify s n m (Node.link_editSelectors · f))

theorem Ordered.remove (h : Ordered rank s) (p n : NodeId) : Ordered rank (s.remove p n).2 := by
  have ha := alike_remove s p n
  have hsub : ∀ q m, m ∈ (s.remove p n).2.children q → m ∈ s.children q := by
    intro q m hm
    rw [children_remove] at hm
    split at hm
    · next hq => exact hq ▸ List.mem_of_mem_erase hm
    · exact hm
  refine ⟨fun q m hm => ?_, fun m q hq => ?_, fun m q hm => ?_, fun m q hm => ?_, fun q m hm => ?_⟩
  · rw [ha.isSome]
    exact h.alive q m (hsub q m hm)
  · rw [link?_remove] at hq
    rw [ha.size]
    split at hq
    · cases hq
    · exact h.known m q hq
  · rw [ha.tracks] at hm
    rw [children_remove, parent?_remove]
    by_cases hfound : m = n ∧ n ∈ s.children p
    · -- the node stood in `p` only, and there once
      rw [if_pos hfound]
      obtain ⟨rfl, hn⟩ := hfound
      have hp := (h.agree m p hm).1 hn
      have hnot : m ∉ (s.children p).erase m := fun hin => by
        have hpos := List.count_pos_iff.2 hin
        have hcount := h.once m p hm
        rw [List.count_erase_self] at hpos
        omega
      split
      · simp [hnot]
      · next hq => simp [h.agree m q hm, hp, Ne.symm hq]
    · rw [if_neg hfound, ← h.agree m q hm]
      split
      · next hq =>
        subst hq
        by_cases hmn : m = n
        · rw [List.erase_of_not_mem fun hn => hfound ⟨hmn, hn⟩]
        · exact List.mem_erase_of_ne hmn
      · rfl
  · rw [ha.tracks] at hm
    rw [children_remove]
    split
    · exact Nat.le_trans (List.erase_sublist.count_le m) (h.once m p hm)
    · exact h.once m q hm
  · exact h.falls q m (hsub q m hm)

theorem alike_detach (s : Store) (n : NodeId) : Alike s (s.detach n).2 := by
  unfold detach
  cases s.parent? n with
  | some p => exact alike_remove s p n
  | none =>
    exact alike_modify s n (Node.tracksContainer_withLink · none) (Node.isContainer_withLink · none)

theorem children_detach (s : Store) (n q : NodeId) :
    (s.detach n).2.children q =
      if s.parent? n = some q then (s.children q).erase n else s.children q := by
  unfold detach
  cases hp : s.parent? n with
  | some p =>
    rw [children_remove]
    by_cases hq : q = p
    · simp [hq]
    · simp [hq, Ne.symm hq]
  | none =>
    rw [if_neg (by simp)]
    exact children_modify s n q (Node.children?_withLink · none)

theorem link?_detach_ne (s : Store) {n m : NodeId} (hm : m ≠ n) :
    (s.detach n).2.link? m = s.link? m := by
  unfold detach
  cases s.parent? n with
  | some p => rw [link?_remove, if_neg fun h => hm h.1]
  | none => rw [link?_modify_withLink, if_neg fun h => hm h.1]

theorem parent?_detach_ne (s : Store) {n m : NodeId} (hm : m ≠ n) :
    (s.detach n).2.parent? m = s.parent? m :=
  parent?_congr (alike_detach s n) (link?_detach_ne s hm)

theorem Ordered.tracks_of_parent? (h : s.parent? n = some p) : s.tracksContainer n = true := by
  cases ht : s.tracksContainer n with
  | true => rfl
  | false => simp [parent?_of_not_tracks ht] at h

theorem Ordered.link?_detach_self (h : Ordered rank s) (n : NodeId) :
    (s.detach n).2.link? n = none := by
  unfold detach
  cases hp : s.parent? n with
  | some p =>
    have hn := (h.agree n p (Ordered.tracks_of_parent? hp)).2 hp
    rw [link?_remove, if_pos ⟨rfl, hn⟩]
  | none =>
    rw [link?_modify_withLink]
    cases ht : s.tracksContainer n with
    | true => simp
    | false => simpa using link?_of_not_tracks ht

theorem Ordered.detach (h : Ordered rank s) (n : NodeId) : Ordered rank (s.detach n).2 := by
  cases hp : s.parent? n with
  | some p =>
    unfold Store.detach
    rw [hp]
    exact h.remove p n
  | none =>
    have ha := alike_detach s n
    have hc : ∀ q, (s.detach n).2.children q = s.children q := fun q => by
      rw [children_detach, hp, if_neg (by simp)]
    refine ⟨fun q m hm => ?_, fun m q hq => ?_, fun m q hm => ?_, fun m q hm => ?_,
      fun q m hm => h.falls q m (by rwa [hc] at hm)⟩
    · rw [ha.isSome]
      exact h.alive q m (by rwa [hc] at hm)
    · by_cases hmn : m = n
      · subst hmn
        rw [h.link?_detach_self] at hq
        cases hq
      · rw [link?_detach_ne s hmn] at hq
        rw [ha.size]
        exact h.known m q hq
    · rw [ha.tracks] at hm
      rw [hc, h.agree m q hm]
      by_cases hmn : m = n
      · subst hmn
        rw [hp, parent?_eq, h.link?_detach_self]
        rfl
      · rw [parent?_detach_ne s hmn]
    · rw [hc]
      exact h.once m q (by rwa [ha.tracks] at hm)

/-- A node is put into the child list of `p` and linked to it. -/
def place (s : Store) (p n : NodeId) (add : List NodeId → List NodeId) : Store :=
  (s.modify p (Node.editChildren add)).modify n (Node.withLink (some p))

theorem alike_place (s : Store) (p n : NodeId) (add : List NodeId → List NodeId) :
    Alike s (s.place p n add) :=
  (alike_modify s p (Node.tracksContainer_editChildren · add)
    (Node.isContainer_editChildren · add)).trans
    (alike_modify _ n (Node.tracksContainer_withLink · _) (Node.isContainer_withLink · _))

theorem children?_place (s : Store) (p n q : NodeId) (add : List NodeId → List NodeId) :
    (s.place p n add).children? q =
      if q = p ∧ s.isContainer p = true then some (add (s.children p)) else s.children? q := by
  unfold place
  rw [children?_modify _ _ _ (Node.children?_withLink · _), children?_modify_editChildren]

theorem children_place {add : List NodeId → List NodeId} (hp : s.isContainer p = true)
    (q : NodeId) :
    (s.place p n add).children q = if q = p then add (s.children p) else s.children q := by
  rw [Store.children, children?_place, hp]
  simp only [and_true]
  split <;> rfl

theorem link?_place (s : Store) (p n m : NodeId) (add : List NodeId → List NodeId) :
    (s.place p n add).link? m =
      if m = n ∧ s.tracksContainer n = true then some p else s.link? m := by
  unfold place
  rw [link?_modify_withLink, link?_modify _ _ _ (Node.link_editChildren · add),
    (alike_modify s p (Node.tracksContainer_editChildren · add)
      (Node.isContainer_editChildren · add)).tracks]

theorem isSome_of_isContainer (h : s.isContainer p = true) : (s.get? p).isSome = true := by
  unfold Store.isContainer at h
  cases hx : s.get? p with
  | none => simp [hx] at h
  | some x => rfl

theorem parent?_place (hp : s.isContainer p = true) (m : NodeId)
    (add : List NodeId → List NodeId) :
    (s.place p n add).parent? m =
      if m = n ∧ s.tracksContainer n = true then some p else s.parent? m := by
  rw [parent?_eq, link?_place]
  simp only [(alike_place s p n add).isSome]
  split
  · simp [isSome_of_isContainer hp]
  · rfl

/-- A node that stands nowhere goes into a container of higher rank. -/
theorem Ordered.place {add : List NodeId → List NodeId} (h : Ordered rank s)
    (hl : s.link? n = none) (hn : (s.get? n).isSome = true) (hp : s.isContainer p = true)
    (hr : rank n < rank p) (hadd : (add (s.children p)).Perm (n :: s.children p)) :
    Ordered rank (s.place p n add) := by
  have ha := alike_place s p n add
  have hnone : ∀ q, s.tracksContainer n = true → n ∉ s.children q := by
    intro q ht hm
    rw [h.agree n q ht, parent?_eq, hl] at hm
    cases hm
  have hmem : ∀ q m, m ∈ (s.place p n add).children q → (m = n ∧ q = p) ∨ m ∈ s.children q := by
    intro q m hm
    rw [children_place hp] at hm
    split at hm
    · next hq =>
      rw [hadd.mem_iff, List.mem_cons] at hm
      exact hm.imp (⟨·, hq⟩) (hq ▸ ·)
    · exact .inr hm
  refine ⟨fun q m hm => ?_, fun m q hq => ?_, fun m q hm => ?_, fun m q hm => ?_, fun q m hm => ?_⟩
  · rw [ha.isSome]
    rcases hmem q m hm with ⟨rfl, -⟩ | hm
    · exact hn
    · exact h.alive q m hm
  · rw [link?_place] at hq
    rw [ha.size]
    split at hq
    · obtain rfl := Option.some.inj hq
      exact lt_size_of_isSome (isSome_of_isContainer hp)
    · exact h.known m q hq
  · rw [ha.tracks] at hm
    rw [children_place hp]
    by_cases hmn : m = n
    · subst hmn
      rw [parent?_place hp, if_pos (show m = m ∧ _ from ⟨rfl, hm⟩)]
      by_cases hq : q = p
      · simp [hq, hadd.mem_iff]
      · simp [hq, hnone q hm, Ne.symm hq]
    · rw [parent?_place hp, if_neg (show ¬ (m = n ∧ _) from fun hc => hmn hc.1), ← h.agree m q hm]
      by_cases hq : q = p
      · rw [if_pos hq, hadd.mem_iff, List.mem_cons, or_iff_right hmn, hq]
      · rw [if_neg hq]
  · rw [ha.tracks] at hm
    rw [children_place hp]
    split
    · rw [hadd.count_eq]
      by_cases hmn : m = n
      · subst hmn
        simp [List.count_eq_zero_of_not_mem (hnone p hm)]
      · rw [List.count_cons_of_ne (Ne.symm hmn)]
        exact h.once m p hm
    · exact h.once m q hm
  · rcases hmem q m hm with ⟨rfl, rfl⟩ | hm
    · exact hr
    · exact h.falls q m hm

/-! The moves themselves. A failed one leaves what it has done so far. -/

theorem adopt_eq (s : Store) (p n : NodeId) (add : List NodeId → List NodeId) :
    s.adopt p n add = (s.detach n).2.place p n add := rfl

theorem Ordered.insert (h : Ordered rank s) (hn : (s.get? n).isSome = true)
    {add : List NodeId → List NodeId} (hadd : ∀ cs, (add cs).Perm (n :: cs))
    (hr : s.isContainer p = true → rank n < rank p) : Ordered rank (s.insert p n add).store := by
  have ha := alike_detach s n
  unfold Store.insert
  cases hp : s.get? p with
  | none => exact h
  | some x =>
    dsimp only
    split
    · next hx =>
      have hpc : s.isContainer p = true := by simpa [Store.isContainer, hp] using hx
      refine Ordered.place (h.detach n) (h.link?_detach_self n) (by rwa [ha.isSome])
        (by rwa [ha.isContainer]) (hr hpc) (hadd _)
    · exact h

theorem putAfter_perm {anchor : NodeId} (n : NodeId) {cs : List NodeId} (h : anchor ∈ cs) :
    (putAfter anchor n cs).Perm (n :: cs) := by
  induction cs with
  | nil => cases h
  | cons c cs ih =>
    rw [putAfter]
    split
    · exact List.Perm.swap n c cs
    · next hc =>
      have hin := (List.mem_cons.1 h).resolve_left (Ne.symm hc)
      exact ((ih hin).cons c).trans (List.Perm.swap n c cs)

/-- Taking another node out leaves `anchor` in its list. -/
theorem Ordered.mem_children_detach (h : Ordered rank s) {anchor : NodeId} (hne : anchor ≠ n)
    (hp : s.parent? anchor = some p) : anchor ∈ (s.detach n).2.children p := by
  have htracks : (s.detach n).2.tracksContainer anchor = true := by
    rw [(alike_detach s n).tracks]
    exact tracks_of_parent? hp
  rw [(h.detach n).agree anchor p htracks, parent?_detach_ne s hne, hp]

/-- In a store in order a node goes behind `anchor` whenever `anchor` has a container. -/
theorem Ordered.insertAfter_eq (h : Ordered rank s) {anchor : NodeId} (hne : anchor ≠ n) :
    s.insertAfter anchor n =
      match s.parent? anchor with
      | none => .error .detached (s.detach n).2
      | some p => .ok () ((s.detach n).2.place p n (putAfter anchor n)) := by
  unfold insertAfter
  rw [if_neg hne]
  dsimp only
  rw [parent?_detach_ne s hne]
  cases hp : s.parent? anchor with
  | none => rfl
  | some p =>
    dsimp only
    rw [if_pos (List.contains_iff_mem.2 (h.mem_children_detach hne hp))]
    rfl

theorem isContainer_of_mem (h : n ∈ s.children p) : s.isContainer p = true := by
  cases hp : s.isContainer p with
  | true => rfl
  | false => simp [children_eq_nil hp] at h

theorem Ordered.isContainer_of_parent? (h : Ordered rank s) (hp : s.parent? n = some p) :
    s.isContainer p = true :=
  isContainer_of_mem ((h.agree n p (tracks_of_parent? hp)).2 hp)

theorem Ordered.lt_of_parent? (h : Ordered rank s) (hp : s.parent? n = some p) :
    rank n < rank p :=
  h.falls p n ((h.agree n p (tracks_of_parent? hp)).2 hp)

theorem Ordered.insertAfter (h : Ordered rank s) {anchor : NodeId}
    (hn : (s.get? n).isSome = true)
    (hr : anchor ≠ n → ∀ p, s.parent? anchor = some p → rank n < rank p) :
    Ordered rank (s.insertAfter anchor n).store := by
  by_cases hne : anchor = n
  · rw [Store.insertAfter, if_pos hne]
    exact h
  · have ha := alike_detach s n
    rw [h.insertAfter_eq hne]
    cases hp : s.parent? anchor with
    | none => exact h.detach n
    | some p =>
      have hcontainer : (s.detach n).2.isContainer p = true := by
        rw [ha.isContainer]
        exact h.isContainer_of_parent? hp
      exact (h.detach n).place (h.link?_detach_self n) (by rwa [ha.isSome]) hcontainer
        (hr hne p hp) (putAfter_perm n (h.mem_children_detach hne hp))

theorem link?_alloc (s : Store) {x : Node} (hx : x.link = none) (m : NodeId) :
    (s.alloc x).2.link? m = if m = s.size then none else s.link? m := by
  unfold link?
  rw [get?_alloc]
  split <;> simp [hx]

theorem children_alloc (s : Store) {x : Node} (hx : x.children?.getD [] = []) (p : NodeId) :
    (s.alloc x).2.children p = if p = s.size then [] else s.children p := by
  unfold Store.children children?
  rw [get?_alloc]
  split <;> simp [hx]

theorem tracks_alloc_of_ne (s : Store) (x : Node) {m : NodeId} (hm : m ≠ s.size) :
    (s.alloc x).2.tracksContainer m = s.tracksContainer m := by
  unfold tracksContainer
  rw [get?_alloc, if_neg hm]

theorem isSome_alloc_of_ne (s : Store) (x : Node) {m : NodeId} (hm : m ≠ s.size) :
    ((s.alloc x).2.get? m).isSome = (s.get? m).isSome := by
  rw [get?_alloc, if_neg hm]

/-- Nothing links to a node that is made only now. -/
theorem Ordered.parent?_alloc (h : Ordered rank s) {x : Node} (hx : x.link = none) (m : NodeId) :
    (s.alloc x).2.parent? m = if m = s.size then none else s.parent? m := by
  rw [parent?_eq, link?_alloc s hx]
  split
  · rfl
  · rw [parent?_eq]
    cases hl : s.link? m with
    | none => rfl
    | some p =>
      have hne : p ≠ s.size := Nat.ne_of_lt (h.known m p hl)
      simp [Option.filter, isSome_alloc_of_ne s x hne]

/-- A new node may have any rank. -/
theorem Ordered.alloc (h : Ordered rank s) {x : Node} (hx : x.isNew = true) (v : ℚ) :
    Ordered (Function.update rank s.size v) (s.alloc x).2 := by
  obtain ⟨hl, hc⟩ : x.link = none ∧ x.children?.getD [] = [] := by
    simpa [Node.isNew] using hx
  have hold : ∀ p, ∀ m ∈ s.children p, m ≠ s.size ∧ p ≠ s.size := fun p m hm =>
    ⟨Nat.ne_of_lt (lt_size_of_isSome (h.alive p m hm)),
      Nat.ne_of_lt (lt_size_of_isSome (isSome_of_isContainer (isContainer_of_mem hm)))⟩
  have hmem : ∀ p m, m ∈ (s.alloc x).2.children p → m ∈ s.children p := by
    intro p m hm
    rw [children_alloc s hc] at hm
    split at hm
    · cases hm
    · exact hm
  have hnew : ∀ p, s.size ∉ (s.alloc x).2.children p := fun p hm => (hold p _ (hmem p _ hm)).1 rfl
  refine ⟨fun p m hm => ?_, fun m p hp => ?_, fun m p hm => ?_, fun m p hm => ?_, fun p m hm => ?_⟩
  · have hm := hmem p m hm
    rw [isSome_alloc_of_ne s x (hold p m hm).1]
    exact h.alive p m hm
  · rw [link?_alloc s hl] at hp
    rw [size_alloc]
    split at hp
    · cases hp
    · exact Nat.lt_succ_of_lt (h.known m p hp)
  · rw [h.parent?_alloc hl]
    by_cases hms : m = s.size
    · subst hms
      simp [hnew p]
    · rw [if_neg hms, children_alloc s hc]
      rw [tracks_alloc_of_ne s x hms] at hm
      split
      · next hp =>
        subst hp
        refine iff_of_false List.not_mem_nil fun he => ?_
        exact absurd (lt_size_of_isSome (isSome_of_parent? he)) (Nat.lt_irrefl _)
      · exact h.agree m p hm
  · by_cases hms : m = s.size
    · rw [hms, List.count_eq_zero_of_not_mem (hnew p)]
      omega
    · rw [tracks_alloc_of_ne s x hms] at hm
      rw [children_alloc s hc]
      split
      · simp
      · exact h.once m p hm
  · have hm := hmem p m hm
    obtain ⟨hms, hps⟩ := hold p m hm
    rw [Function.update_of_ne hms, Function.update_of_ne hps]
    exact h.falls p m hm

/-- Ranks for putting `n` into `p`: what is at or below `n` sinks. -/
theorem Ordered.exists_lt (h : Ordered rank s) (hnp : ¬ s.Reaches n p) :
    ∃ rank', Ordered rank' s ∧ rank' n < rank' p := by
  classical
  let d := max 0 (rank n - rank p) + 1
  refine ⟨fun m => if s.Reaches n m then rank m - d else rank m,
    ⟨h.alive, h.known, h.agree, h.once, fun q m hm => ?_⟩, ?_⟩
  · have hd : 0 < d := by positivity
    have hfalls := h.falls q m hm
    by_cases hq : s.Reaches n q
    · have hm' : s.Reaches n m := Relation.ReflTransGen.tail hq hm
      simpa [hq, hm'] using hfalls
    · simp only [hq, if_false]
      split <;> linarith
  · have hd : rank n - rank p < d := lt_of_le_of_lt (le_max_right 0 _) (lt_add_one _)
    have hn : s.Reaches n n := Relation.ReflTransGen.refl
    simp only [hn, hnp, if_true, if_false]
    linarith

theorem Ordered.lt_of_transGen (h : Ordered rank s) (hnp : Relation.TransGen s.Lists p n) :
    rank n < rank p := by
  induction hnp with
  | single hm => exact h.falls p _ hm
  | tail _ hm ih => exact lt_trans (h.falls _ _ hm) ih

theorem Ordered.coherent (h : Ordered rank s) : Coherent s := by
  refine ⟨fun n p hn _ => h.agree n p hn, fun n p hn hm => ?_, fun n p q hn hp hq => ?_,
    fun n hn => lt_irrefl _ (h.lt_of_transGen hn)⟩
  · have hpos := List.count_pos_iff.2 hm
    have hle := h.once n p hn
    omega
  · rw [h.agree n p hn] at hp
    rw [h.agree n q hn, hp] at hq
    exact Option.some.inj hq

theorem InOrder.coherent (h : s.InOrder) : s.Coherent := by
  obtain ⟨rank, h⟩ := h
  exact h.coherent

theorem inOrder_empty : Store.empty.InOrder :=
  have hnone : ∀ n : NodeId, ∀ m, m ∉ Store.empty.children n := fun _ _ h => by cases h
  have htracks : ∀ n, Store.empty.tracksContainer n ≠ true := fun _ h => by cases h
  ⟨fun _ => 0, fun _ _ h => absurd h (hnone _ _), fun _ _ h => (by cases h),
    fun _ _ h => absurd h (htracks _), fun _ _ h => absurd h (htracks _),
    fun _ _ h => absurd h (hnone _ _)⟩

/-! Steps that keep a store in order: a node is made, and a node goes where nothing below it is. -/

theorem InOrder.alloc (h : s.InOrder) {x : Node} (hx : x.isNew = true) : (s.alloc x).2.InOrder := by
  obtain ⟨rank, h⟩ := h
  exact ⟨_, h.alloc hx 0⟩

theorem InOrder.insert (h : s.InOrder) (hn : (s.get? n).isSome = true) (hp : ¬ s.Reaches n p)
    {add : List NodeId → List NodeId} (hadd : ∀ cs, (add cs).Perm (n :: cs)) :
    (s.insert p n add).store.InOrder := by
  obtain ⟨rank, h⟩ := h
  obtain ⟨rank', h', hlt⟩ := h.exists_lt hp
  exact ⟨rank', h'.insert hn hadd fun _ => hlt⟩

theorem InOrder.append (h : s.InOrder) (hn : (s.get? n).isSome = true) (hp : ¬ s.Reaches n p) :
    (s.append p n).store.InOrder :=
  h.insert hn hp fun cs => List.perm_append_singleton n cs

theorem InOrder.prepend (h : s.InOrder) (hn : (s.get? n).isSome = true) (hp : ¬ s.Reaches n p) :
    (s.prepend p n).store.InOrder :=
  h.insert hn hp fun _ => .refl _

theorem InOrder.insertAfter (h : s.InOrder) {anchor : NodeId} (hn : (s.get? n).isSome = true)
    (hp : anchor ≠ n → ∀ p, s.parent? anchor = some p → ¬ s.Reaches n p) :
    (s.insertAfter anchor n).store.InOrder := by
  obtain ⟨rank, h⟩ := h
  by_cases hgo : ∃ p, anchor ≠ n ∧ s.parent? anchor = some p
  · obtain ⟨p, hne, hpar⟩ := hgo
    obtain ⟨rank', h', hlt⟩ := h.exists_lt (hp hne p hpar)
    exact ⟨rank', h'.insertAfter hn fun _ p' hp' => Option.some.inj (hpar.symm.trans hp') ▸ hlt⟩
  · exact ⟨rank, h.insertAfter hn fun hne p hpar => absurd ⟨p, hne, hpar⟩ hgo⟩

theorem not_reaches (hn : s.children n = []) (hne : n ≠ p) :
    ¬ s.Reaches n p := by
  intro h
  rcases Relation.ReflTransGen.cases_head h with he | ⟨m, hm, _⟩
  · exact hne he
  · rw [Store.Lists, hn] at hm
    cases hm

end Store

end Unnest
