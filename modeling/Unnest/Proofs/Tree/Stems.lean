import Unnest.Proofs.Tree.Selectors

/-! Where the nodes come from that a rule taken apart leaves in its place, while the rules in it wait
for their own turns. A node is a copy of the rule or one from before, and one from before keeps its
selectors unless only bubbling at-rules and root rules stood between it and the rule (`Stems`). What
follows the rule has come out of it or out of a root rule in it (`mem_left`, `trees_share`), and what
has come out of the rule itself is in order (`order_left`). -/

namespace Unnest.Tree

open Selector

variable {α β : Type} {o : Options} {fresh : α}

/-- A root rule, with a block or without. -/
def isRootRule (o : Options) : Tree α → Bool
  | .statement _ n _ => o.namesRootRule n
  | .branch _ (.atRule n _) _ => o.namesRootRule n
  | _ => false

mutual

/-- The rules that are found without passing another rule or an at-rule that neither bubbles nor is
a root rule. -/
def reached (o : Options) : Tree α → List α
  | .leaf _ _ => []
  | .statement _ _ _ => []
  | .branch _ .root _ => []
  | .branch a (.rule _) _ => [a]
  | .branch _ (.atRule n _) ts => if o.namesRootRule n || o.bubbles n then reachedAll o ts else []

def reachedAll (o : Options) : List (Tree α) → List α
  | [] => []
  | t :: ts => reached o t ++ reachedAll o ts

end

mutual

theorem reached_map (o : Options) (f : α → β) : (t : Tree α) →
    reached o (t.map f) = (reached o t).map f
  | .leaf _ _ => rfl
  | .statement _ _ _ => rfl
  | .branch _ .root _ => rfl
  | .branch _ (.rule _) _ => rfl
  | .branch _ (.atRule n _) ts => by
    rw [Tree.map, reached, reached, reachedAll_mapAll o f ts]
    split <;> rfl

theorem reachedAll_mapAll (o : Options) (f : α → β) : (ts : List (Tree α)) →
    reachedAll o (mapAll f ts) = (reachedAll o ts).map f
  | [] => rfl
  | t :: ts => by
    rw [mapAll, reachedAll, reachedAll, reached_map o f t, reachedAll_mapAll o f ts,
      List.map_append]

end

/-- One of the trees `us`, or a copy of a rule around some of them. -/
def Gathers (fresh : α) (s : List String) (us : List (Tree α)) (t : Tree α) : Prop :=
  t ∈ us ∨ ∃ ts, ts ⊆ us ∧ t = .branch fresh (.rule s) ts

theorem mem_nodes_of_gathers {s : List String} {ts us : List (Tree α)} {u : Tree α}
    (h : ∀ t ∈ ts, Gathers fresh s us t) (hu : u ∈ nodesAll ts) :
    u.label = fresh ∨ u ∈ nodesAll us := by
  obtain ⟨t, ht, hu⟩ := mem_nodesAll.1 hu
  rcases h t ht with ht | ⟨vs, hvs, rfl⟩
  · exact .inr (mem_nodesAll.2 ⟨t, ht, hu⟩)
  · rcases List.mem_cons.1 hu with rfl | hu
    · exact .inl rfl
    · obtain ⟨v, hv, hu⟩ := mem_nodesAll.1 hu
      exact .inr (mem_nodesAll.2 ⟨v, hvs hv, hu⟩)

namespace Share

section Gathers

variable {s : List String} {split : Bool} {ts pending us : List (Tree α)} {shares : List (Share α)}

theorem gathers_copy (h : ts ⊆ us) : ∀ t ∈ copy fresh s ts, Gathers fresh s us t := by
  intro t ht
  unfold copy at ht
  split at ht
  · cases ht
  · exact .inr ⟨ts, h, List.mem_singleton.1 ht⟩

theorem kept_subset (h : ∀ x ∈ shares, x.trees ⊆ us) : kept split shares ⊆ us := by
  induction shares generalizing split with
  | nil => exact List.nil_subset us
  | cons x shares ih =>
    obtain ⟨hx, hrest⟩ := List.forall_mem_cons.1 h
    cases x with
    | fixed ts => exact List.append_subset.2 ⟨hx, ih hrest⟩
    | movable ts =>
      rw [kept]
      split
      · exact ih hrest
      · exact List.append_subset.2 ⟨hx, ih hrest⟩
    | lifted ts => exact ih hrest

theorem gathers_left (hp : pending ⊆ us) (h : ∀ x ∈ shares, x.trees ⊆ us) :
    ∀ t ∈ left fresh s split pending shares, Gathers fresh s us t := by
  induction shares generalizing split pending with
  | nil => exact gathers_copy hp
  | cons x shares ih =>
    obtain ⟨hx, hrest⟩ := List.forall_mem_cons.1 h
    cases x with
    | fixed ts => exact ih hp hrest
    | movable ts =>
      refine ih ?_ hrest
      split
      · exact List.append_subset.2 ⟨hp, hx⟩
      · exact hp
    | lifted ts =>
      rw [left]
      refine List.forall_mem_append.2 ⟨List.forall_mem_append.2 ⟨gathers_copy hp, ?_⟩, ?_⟩
      · exact fun t ht => .inl (hx ht)
      · exact ih (List.nil_subset us) hrest

theorem leftovers_subset (h : ∀ x ∈ shares, x.trees ⊆ us) : leftovers shares ⊆ us := by
  induction shares with
  | nil => exact List.nil_subset us
  | cons x shares ih =>
    obtain ⟨hx, hrest⟩ := List.forall_mem_cons.1 h
    cases x with
    | fixed ts => exact List.append_subset.2 ⟨hx, ih hrest⟩
    | movable ts => exact List.append_subset.2 ⟨hx, ih hrest⟩
    | lifted ts => exact ih hrest

theorem goers_subset (h : ∀ x ∈ shares, x.trees ⊆ us) : goers shares ⊆ us := by
  induction shares with
  | nil => exact List.nil_subset us
  | cons x shares ih =>
    obtain ⟨hx, hrest⟩ := List.forall_mem_cons.1 h
    cases x with
    | fixed ts => exact ih hrest
    | movable ts => exact ih hrest
    | lifted ts => exact List.append_subset.2 ⟨hx, ih hrest⟩

theorem gathers_wrap (h : ∀ x ∈ shares, x.trees ⊆ us) :
    ∀ t ∈ wrap fresh s shares, Gathers fresh s us t := by
  rw [wrap]
  refine List.forall_mem_append.2 ⟨gathers_copy (leftovers_subset h), fun t ht => .inl ?_⟩
  exact goers_subset h ht

end Gathers

theorem trees_subset (shares : List (Share α)) : ∀ x ∈ shares, x.trees ⊆ shares.flatMap trees :=
  fun x hx _ ht => List.mem_flatMap.2 ⟨x, hx, ht⟩

end Share

open Share

/-- The node `u` is a copy of a rule or one of the nodes of `ts`, and then it has kept its selectors
unless it is among those that are reached. -/
def Stems (o : Options) (fresh : α) (ts : List (Tree α)) (u : Tree α) : Prop :=
  u.label = fresh ∨ ∃ v ∈ nodesAll ts, v.label = u.label ∧
    (u.ownSelectors = v.ownSelectors ∨ u.label ∈ reachedAll o ts)

theorem Stems.refl {ts : List (Tree α)} {u : Tree α} (h : u ∈ nodesAll ts) : Stems o fresh ts u :=
  .inr ⟨u, h, rfl, .inl rfl⟩

theorem Stems.mono {ts us : List (Tree α)} {u : Tree α} (h : Stems o fresh ts u)
    (hn : nodesAll ts ⊆ nodesAll us) (hr : reachedAll o ts ⊆ reachedAll o us) :
    Stems o fresh us u := by
  rcases h with h | ⟨v, hv, hl, hs⟩
  · exact .inl h
  · exact .inr ⟨v, hn hv, hl, hs.imp_right fun h => hr h⟩

theorem Stems.head {t u : Tree α} (ts : List (Tree α)) (h : Stems o fresh [t] u) :
    Stems o fresh (t :: ts) u := by
  refine h.mono ?_ ?_
  · rw [nodesAll, nodesAll, nodesAll, List.append_nil]
    exact List.subset_append_left _ _
  · rw [reachedAll, reachedAll, reachedAll, List.append_nil]
    exact List.subset_append_left _ _

theorem Stems.tail {ts : List (Tree α)} {u : Tree α} (t : Tree α) (h : Stems o fresh ts u) :
    Stems o fresh (t :: ts) u :=
  h.mono (List.subset_append_right _ _) (List.subset_append_right _ _)

/-- A bubbling at-rule or a root rule does not hide what is in it. -/
theorem Stems.block {a : α} {n p : String} {ts : List (Tree α)} {u : Tree α}
    (hn : (o.namesRootRule n || o.bubbles n) = true) (h : Stems o fresh ts u) :
    Stems o fresh [.branch a (.atRule n p) ts] u := by
  refine h.mono ?_ ?_
  · rw [nodesAll, nodesAll, List.append_nil, nodes]
    exact List.subset_cons_self _ _
  · rw [reachedAll, reachedAll, List.append_nil, reached, if_pos hn]
    exact List.Subset.refl _

/-- A rule may have got other selectors; what is in it waits. -/
theorem stems_rule {a : α} {r s : List String} {ts : List (Tree α)} {u : Tree α}
    (h : u ∈ nodesAll [.branch a (.rule s) ts]) : Stems o fresh [.branch a (.rule r) ts] u := by
  rw [nodesAll, nodesAll, List.append_nil, nodes] at h
  rcases List.mem_cons.1 h with rfl | h
  · exact .inr ⟨.branch a (.rule r) ts, by simp [nodesAll, nodes], rfl,
      .inr (by simp [reachedAll, reached, label])⟩
  · exact Stems.refl (by simp [nodesAll, nodes, h])

theorem stems_wrap {s : List String} {ts : List (Tree α)} {shares : List (Share α)} {u : Tree α}
    (h : ∀ v ∈ nodesAll (shares.flatMap trees), Stems o fresh ts v)
    (hu : u ∈ nodesAll (wrap fresh s shares)) : Stems o fresh ts u := by
  rcases mem_nodes_of_gathers (gathers_wrap (trees_subset shares)) hu with hf | hu
  · exact .inl hf
  · exact h u hu

theorem stems_bubbling {a : α} {n p : String} {s : List String} {ts : List (Tree α)}
    {shares : List (Share α)} {u : Tree α} (hn : o.bubbles n = true)
    (h : ∀ v ∈ nodesAll (shares.flatMap trees), Stems o fresh ts v)
    (hu : u ∈ nodesAll [.branch a (.atRule n p) (wrap fresh s shares)]) :
    Stems o fresh [.branch a (.atRule n p) ts] u := by
  rw [nodesAll, nodesAll, List.append_nil, nodes] at hu
  rcases List.mem_cons.1 hu with rfl | hu
  · exact .inr ⟨.branch a (.atRule n p) ts, by simp [nodesAll, nodes], rfl, .inl rfl⟩
  · exact (stems_wrap h hu).block (by simp [hn])

mutual

theorem stems_inside (unwrap : Bool) (s : List String) (merge : Bool) : (t : Tree α) →
    ∀ u ∈ nodesAll (inside o fresh (fun _ => false) unwrap s merge t).trees, Stems o fresh [t] u
  | .leaf _ _, _, hu => Stems.refl hu
  | .statement _ _ _, _, hu => Stems.refl hu
  | .branch a .root ts, u, hu => by
    rw [inside, flatAll_still] at hu
    exact Stems.refl hu
  | .branch a (.rule r) ts, u, hu => by
    simp only [inside, place, flatAll_still] at hu
    split at hu <;> exact stems_rule hu
  | .branch a (.atRule n p) ts, u, hu => by
    simp only [inside, flatAll_still] at hu
    split_ifs at hu with hb
    · exact stems_bubbling hb (stems_insideAll false s merge ts) hu
    · exact Stems.refl hu
    · exact Stems.refl hu

theorem stems_insideAll (unwrap : Bool) (s : List String) (merge : Bool) : (ts : List (Tree α)) →
    ∀ u ∈ nodesAll ((insideAll o fresh (fun _ => false) unwrap s merge ts).flatMap trees),
      Stems o fresh ts u
  | [], _, hu => nomatch hu
  | t :: ts, u, hu => by
    rw [insideAll, List.flatMap_cons, nodesAll_append, List.mem_append] at hu
    rcases hu with hu | hu
    · exact (stems_inside unwrap s merge t u hu).head ts
    · exact (stems_insideAll unwrap s merge ts u hu).tail t

end

theorem stems_share (s : List String) (t : Tree α) :
    ∀ u ∈ nodesAll (share o fresh (fun _ => false) s t).trees, Stems o fresh [t] u := by
  intro u hu
  rcases t with ⟨a, _ | _ | _⟩ | ⟨a, n, p⟩ | ⟨a, _ | r | ⟨n, p⟩, ts⟩
  · exact Stems.refl hu
  · exact Stems.refl hu
  · exact Stems.refl hu
  · simp only [share] at hu
    split_ifs at hu
    · cases hu
    · exact Stems.refl hu
    · exact Stems.refl hu
  · rw [share, flatAll_still] at hu
    exact Stems.refl hu
  · simp only [share, place, flatAll_still] at hu
    exact stems_rule hu
  · simp only [share, flatAll_still] at hu
    split_ifs at hu with hroot hb
    · exact (stems_wrap (stems_insideAll true _ _ ts) hu).block (by simp [hroot])
    · exact stems_bubbling hb (stems_insideAll false s true ts) hu
    · exact Stems.refl hu
    · exact Stems.refl hu

theorem stems_shareAll (s : List String) (ts : List (Tree α)) :
    ∀ u ∈ nodesAll ((shareAll o fresh (fun _ => false) s ts).flatMap trees),
      Stems o fresh ts u := by
  induction ts with
  | nil => exact fun u hu => nomatch hu
  | cons t ts ih =>
    intro u hu
    rw [shareAll, List.flatMap_cons, nodesAll_append, List.mem_append] at hu
    rcases hu with hu | hu
    · exact (stems_share s t u hu).head ts
    · exact (ih u hu).tail t

theorem stems_kept {s : List String} {ts : List (Tree α)} {u : Tree α}
    (h : u ∈ nodesAll (kept false (shareAll o fresh (fun _ => false) s ts))) :
    Stems o fresh ts u := by
  obtain ⟨t, ht, hu⟩ := mem_nodesAll.1 h
  exact stems_shareAll s ts u (mem_nodesAll.2 ⟨t, kept_subset (trees_subset _) ht, hu⟩)

theorem stems_left {s : List String} {ts : List (Tree α)} {u : Tree α}
    (h : u ∈ nodesAll (left fresh s false [] (shareAll o fresh (fun _ => false) s ts))) :
    Stems o fresh ts u := by
  rcases mem_nodes_of_gathers (gathers_left (List.nil_subset _) (trees_subset _)) h with h | h
  · exact .inl h
  · exact stems_shareAll s ts u h

theorem stems_apart {a : α} {s : List String} {ts : List (Tree α)} {u : Tree α}
    (h : u ∈ nodesAll (apart o fresh a s (shareAll o fresh (fun _ => false) s ts))) :
    u.label = a ∨ Stems o fresh ts u := by
  rw [apart, nodesAll_append, List.mem_append] at h
  rcases h with h | h
  · split at h
    · cases h
    · rw [nodesAll, nodesAll, List.append_nil, nodes] at h
      rcases List.mem_cons.1 h with rfl | h
      · exact .inl rfl
      · exact .inr (stems_kept h)
  · exact .inr (stems_left h)

/-! What stands beside the rule afterwards. -/

theorem label_of_mem_inside {unwrap merge : Bool} {s : List String} {t u : Tree α}
    (h : u ∈ (inside o fresh (fun _ => false) unwrap s merge t).trees) : u.label = t.label := by
  rcases t with ⟨a, l⟩ | ⟨a, n, p⟩ | ⟨a, _ | r | ⟨n, p⟩, ts⟩
  · rw [List.mem_singleton.1 h]
  · rw [List.mem_singleton.1 h]
  · rw [List.mem_singleton.1 h]
    rfl
  · simp only [inside, place] at h
    split at h <;> rw [List.mem_singleton.1 h] <;> rfl
  · simp only [inside] at h
    split_ifs at h <;> rw [List.mem_singleton.1 h] <;> rfl

/-- A child leaves as it is, if at all, but for a root rule: its content goes instead. -/
theorem trees_share (o : Options) (fresh : α) (s : List String) (t : Tree α) :
    (((share o fresh (fun _ => false) s t).trees).map label).Sublist [t.label] ∨
      (t.isRootRule o = true ∧ ∀ u ∈ (share o fresh (fun _ => false) s t).trees,
        (u.label = fresh ∧ u.isRule = true) ∨ ∃ d ∈ t.children, u.label = d.label) := by
  rcases t with ⟨a, _ | _ | _⟩ | ⟨a, n, p⟩ | ⟨a, _ | r | ⟨n, p⟩, ts⟩
  · exact .inl (List.Sublist.refl _)
  · exact .inl (List.Sublist.refl _)
  · exact .inl (List.Sublist.refl _)
  · simp only [share]
    split_ifs
    · exact .inl (List.nil_sublist _)
    · exact .inl (List.Sublist.refl _)
    · exact .inl (List.Sublist.refl _)
  · exact .inl (List.Sublist.refl _)
  · exact .inl (List.Sublist.refl _)
  · simp only [share]
    split_ifs with hroot
    · refine .inr ⟨hroot, fun u hu => ?_⟩
      rcases gathers_wrap (trees_subset _) u hu with hu | ⟨vs, -, rfl⟩
      · obtain ⟨x, hx, hu⟩ := List.mem_flatMap.1 hu
        rw [insideAll_eq] at hx
        obtain ⟨d, hd, rfl⟩ := List.mem_map.1 hx
        exact .inr ⟨d, hd, label_of_mem_inside hu⟩
      · exact .inl ⟨rfl, rfl⟩
    · exact .inl (List.Sublist.refl _)
    · exact .inl (List.Sublist.refl _)
    · exact .inl (List.Sublist.refl _)

/-- What leaves a rule is a copy of it, a child of it or a child of a root rule in it. -/
theorem mem_left {s : List String} {ts : List (Tree α)} {u : Tree α}
    (h : u ∈ left fresh s false [] (shareAll o fresh (fun _ => false) s ts)) :
    (u.label = fresh ∧ u.isRule = true) ∨ (∃ t ∈ ts, u.label = t.label) ∨
      ∃ t ∈ ts, t.isRootRule o = true ∧ ∃ d ∈ t.children, u.label = d.label := by
  rcases gathers_left (List.nil_subset _) (trees_subset _) u h with h | ⟨vs, -, rfl⟩
  · obtain ⟨x, hx, hu⟩ := List.mem_flatMap.1 h
    rw [shareAll_eq] at hx
    obtain ⟨t, ht, rfl⟩ := List.mem_map.1 hx
    rcases trees_share o fresh s t with hsub | ⟨hroot, hall⟩
    · have hl := hsub.subset (List.mem_map_of_mem hu)
      exact .inr (.inl ⟨t, ht, List.mem_singleton.1 hl⟩)
    · exact (hall u hu).imp_right fun hd => .inr ⟨t, ht, hroot, hd⟩
  · exact .inl ⟨rfl, rfl⟩

section Order

variable {C : β → Bool} {s : List String}

theorem filterMap_label_copy (ts : List (Tree (Option β))) :
    (copy none s ts).filterMap label = [] := by
  unfold copy
  split <;> rfl

/-- The children that have left are in the order they had, among whatever has come with them. -/
theorem order_left {ts pending : List (Tree (Option β))} {split : Bool}
    (hC : ∀ t ∈ ts, t.isRootRule o = true → ∀ d ∈ t.children, ∀ b, d.label = some b → C b = false) :
    (((left none s split pending (shareAll o none (fun _ => false) s ts)).filterMap label).filter
      C).Sublist (ts.filterMap label) := by
  induction ts generalizing split pending with
  | nil => simp [shareAll, left, filterMap_label_copy]
  | cons t ts ih =>
    obtain ⟨ht, hts⟩ := List.forall_mem_cons.1 hC
    have hskip : (ts.filterMap label).Sublist ((t :: ts).filterMap label) :=
      (List.sublist_cons_self t ts).filterMap label
    have htrees := trees_share o none s t
    rw [shareAll]
    cases hx : share o none (fun _ => false) s t with
    | fixed us => exact (ih hts).trans hskip
    | movable us => exact (ih hts).trans hskip
    | lifted us =>
      rw [hx] at htrees
      have hus : ((us.filterMap label).filter C).Sublist ([t].filterMap label) := by
        rcases htrees with hsub | ⟨hroot, hall⟩
        · have hmap := hsub.filterMap id
          rw [List.filterMap_map, ← List.map_singleton (f := label), List.filterMap_map] at hmap
          exact List.filter_sublist.trans hmap
        · have hnone : (us.filterMap label).filter C = [] := by
            rw [List.filter_eq_nil_iff]
            intro b hb
            obtain ⟨u, hu, hub⟩ := List.mem_filterMap.1 hb
            rcases hall u hu with ⟨hf, -⟩ | ⟨d, hd, hl⟩
            · rw [hf] at hub
              cases hub
            · simpa using ht hroot d hd b (hl ▸ hub)
          rw [hnone]
          exact List.nil_sublist _
      rw [left, List.filterMap_append, List.filterMap_append, filterMap_label_copy, List.nil_append,
        List.filter_append, ← List.singleton_append, List.filterMap_append]
      exact hus.append (ih hts)

end Order

end Unnest.Tree
