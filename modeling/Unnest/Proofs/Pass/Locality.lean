import Unnest.Proofs.Tree.Stems
import Unnest.Proofs.Store.Closed
import Unnest.Proofs.Pass.Conservation

/-! One turn is local. What leaves a rule goes right behind it in the list of its container, and all
nodes but the container and those below the rule are left alone. Of the rules below, only those get
other selectors that are not shielded by another rule or by an at-rule that stays one (`Exposed`). -/

namespace Unnest

open Store

@[simp] theorem Node.withChildren_withChildren (x : Node) (cs ds : List NodeId) :
    (x.withChildren cs).withChildren ds = x.withChildren ds := by
  cases x <;> rfl

namespace Tree

theorem isRootRule_eq (o : Options) (p : NodeId) (t : Tree NodeId) :
    t.isRootRule o = decide ((t.cell p).role o = .rootRule) := by
  have hname : ∀ n : String, o.namesRootRule n = decide ((if o.namesRootRule n then Role.rootRule
      else if o.bubbles n then .bubbling else if o.unwraps n then .unwrapped else .movable) =
        .rootRule) := by
    intro n
    split_ifs <;> simp_all
  rcases t with ⟨a, _ | _ | _⟩ | ⟨a, n, q⟩ | ⟨a, _ | s | ⟨n, q⟩, ts⟩
  · rfl
  · rfl
  · rfl
  · exact hname n
  · rfl
  · rfl
  · exact hname n

@[simp] theorem isRootRule_map {α β : Type} (o : Options) (f : α → β) (t : Tree α) :
    (t.map f).isRootRule o = t.isRootRule o := by
  rcases t with ⟨a, l⟩ | ⟨a, n, p⟩ | ⟨a, _ | s | ⟨n, p⟩, ts⟩ <;> rfl

end Tree

namespace Store

open Unnest.Tree

variable {o : Options} {s : Store} {p r n m : NodeId} {t : Tree NodeId}

theorem Holds.selectors?_eq (h : s.Holds p t) (ht : t.isRule = true) :
    s.selectors? t.label = some t.ownSelectors := by
  unfold Store.selectors?
  rw [((holds_iff t).1 h).1]
  rcases t with ⟨a, l⟩ | ⟨a, n, q⟩ | ⟨a, _ | sel | ⟨n, q⟩, ts⟩
  · exact absurd ht Bool.false_ne_true
  · exact absurd ht Bool.false_ne_true
  · exact absurd ht Bool.false_ne_true
  · rfl
  · exact absurd ht Bool.false_ne_true

/-- A node below `r` with no more than bubbling at-rules and root rules between them. -/
inductive Exposed (o : Options) (s : Store) (r : NodeId) : NodeId → Prop where
  | child {n : NodeId} (h : n ∈ s.children r) : Exposed o s r n
  | through {a n : NodeId} (ha : Exposed o s r a)
      (hrole : s.role o a = .bubbling ∨ s.role o a = .rootRule) (h : n ∈ s.children a) :
      Exposed o s r n

mutual

theorem Holds.exposed : {t : Tree NodeId} → {p : NodeId} → s.Holds p t → Exposed o s r t.label →
    ∀ n ∈ reached o t, Exposed o s r n
  | .leaf _ _, _, _, _, _, hn | .statement _ _ _, _, _, _, _, hn => nomatch hn
  | .branch _ (.rule _) _, _, _, ht, n, hn => List.mem_singleton.1 hn ▸ ht
  | .branch a (.atRule m q) ts, p, h, ht, n, hn => by
    rw [reached] at hn
    split at hn
    · next hm =>
      have hrole : s.role o a = .bubbling ∨ s.role o a = .rootRule := by
        rw [show s.role o a = _ from h.role_eq o]
        simp only [cell, Node.role]
        split_ifs with hroot hb
        · exact .inr rfl
        · exact .inl rfl
        all_goals simp_all
      refine h.2.exposed (fun u hu => .through ht hrole ?_) n hn
      exact (show s.children a = _ from h.children_eq) ▸ List.mem_map_of_mem hu
    · cases hn

theorem HoldsAll.exposed : {ts : List (Tree NodeId)} → {p : NodeId} → s.HoldsAll p ts →
    (∀ t ∈ ts, Exposed o s r t.label) → ∀ n ∈ reachedAll o ts, Exposed o s r n
  | [], _, _, _, _, hn => nomatch hn
  | _ :: _, _, h, hts, n, hn => by
    obtain ⟨ht, hts⟩ := List.forall_mem_cons.1 hts
    exact (List.mem_append.1 hn).elim (h.1.exposed ht n) (h.2.exposed hts n)

end

theorem Holds.closed_of_below (h : s.Holds p t) (hts : s.Closed (labelsAll t.children)) :
    s.Closed t.labels := by
  intro m hm n hn
  rw [labels_eq] at hm ⊢
  rcases List.mem_cons.1 hm with rfl | hm
  · rw [h.children_eq] at hn
    exact List.mem_cons_of_mem _ ((map_label_sublist _).subset hn)
  · exact List.mem_cons_of_mem _ (hts m hm n hn)

mutual

theorem Holds.closed : {t : Tree NodeId} → {p : NodeId} → s.Holds p t → s.Closed t.labels
  | .leaf _ _, _, h | .statement _ _ _, _, h => h.closed_of_below fun _ hm => nomatch hm
  | .branch _ (.rule _) _, _, h | .branch _ (.atRule _ _) _, _, h =>
    h.closed_of_below h.2.closed

theorem HoldsAll.closed : {ts : List (Tree NodeId)} → {p : NodeId} → s.HoldsAll p ts →
    s.Closed (labelsAll ts)
  | [], _, _, _, hm, _, _ => nomatch hm
  | _ :: _, _, h, m, hm, n, hn => by
    rcases List.mem_append.1 hm with hm | hm
    · exact List.mem_append_left _ (h.1.closed m hm n hn)
    · exact List.mem_append_right _ (h.2.closed m hm n hn)

end

theorem Closed.mem_of_reaches {ns : List NodeId} (h : s.Closed ns) (hn : n ∈ ns)
    (hm : s.Reaches n m) : m ∈ ns := by
  induction hm with
  | refl => exact hn
  | tail _ hlist ih => exact h _ ih _ hlist

theorem Holds.reaches_of_below (h : s.Holds p t)
    (hts : ∀ m ∈ labelsAll t.children, ∃ u ∈ t.children, s.Reaches u.label m) :
    ∀ m ∈ t.labels, s.Reaches t.label m := by
  intro m hm
  rw [labels_eq] at hm
  rcases List.mem_cons.1 hm with rfl | hm
  · exact .refl
  · obtain ⟨u, hu, hreach⟩ := hts m hm
    have hlist : s.Lists t.label u.label := by
      rw [Lists, h.children_eq]
      exact List.mem_map_of_mem hu
    exact .head hlist hreach

mutual

theorem Holds.reaches : {t : Tree NodeId} → {p : NodeId} → s.Holds p t →
    ∀ m ∈ t.labels, s.Reaches t.label m
  | .leaf _ _, _, h | .statement _ _ _, _, h => h.reaches_of_below fun _ hm => nomatch hm
  | .branch _ (.rule _) _, _, h | .branch _ (.atRule _ _) _, _, h =>
    h.reaches_of_below h.2.reaches

theorem HoldsAll.reaches : {ts : List (Tree NodeId)} → {p : NodeId} → s.HoldsAll p ts →
    ∀ m ∈ labelsAll ts, ∃ t ∈ ts, s.Reaches t.label m
  | [], _, _, _, hm => nomatch hm
  | t :: ts, _, h, m, hm => by
    rcases List.mem_append.1 hm with hm | hm
    · exact ⟨t, List.mem_cons_self, h.1.reaches m hm⟩
    · obtain ⟨u, hu, hreach⟩ := h.2.reaches m hm
      exact ⟨u, List.mem_cons_of_mem t hu, hreach⟩

end

/-- What lies below the top of a tree is what the tree says. -/
theorem Holds.reaches_iff (h : s.Holds p t) : s.Reaches t.label m ↔ m ∈ t.labels :=
  ⟨h.closed.mem_of_reaches t.label_mem_labels, h.reaches m⟩

theorem Part.top_not_mem {y : Node} {before after : List NodeId} {hd : Head}
    {us : List (Tree NodeId)} (h : s.Part p y before after [.branch r hd us]) :
    r ∉ labelsAll us := by
  have honce := h.nodup
  simp only [labelsAll, labels, List.append_nil, List.nodup_cons] at honce
  exact honce.1

mutual

/-- A rule of a part is a part of its own container. -/
theorem Part.ofRule : (t : Tree NodeId) → {p : NodeId} → {y : Node} → {before after : List NodeId} →
    s.Part p y before after [t] → r ∈ t.rules →
    ∃ q z front back sel us, s.Part q z front back [.branch r (.rule sel) us]
  | .leaf _ _, _, _, _, _, _, hr => nomatch hr
  | .statement _ _ _, _, _, _, _, _, hr => nomatch hr
  | .branch _ .root _, _, _, _, _, h, _ => h.holds.1.elim
  | .branch _ (.rule _) us, _, _, _, _, h, hr => by
    rw [rules_rule] at hr
    rcases List.mem_cons.1 hr with rfl | hr
    · exact ⟨_, _, _, _, _, _, h⟩
    · exact Part.ofRules us h.below hr
  | .branch _ (.atRule _ _) us, _, _, _, _, h, hr => Part.ofRules us h.below hr

theorem Part.ofRules : (ts : List (Tree NodeId)) → {p : NodeId} → {y : Node} →
    {before after : List NodeId} → s.Part p y before after ts → r ∈ rulesAll ts →
    ∃ q z front back sel us, s.Part q z front back [.branch r (.rule sel) us]
  | [], _, _, _, _, _, hr => nomatch hr
  | t :: ts, _, _, _, _, h, hr =>
    (List.mem_append.1 hr).elim (Part.ofRule t h.head) (Part.ofRules ts h.tail)

end

end Store

namespace Pass

open Unnest.Tree

variable {ρ : Type} {o : Options} {s s' : Store} {r p : NodeId} {k : Nat} {sel : List String}
  {us new ts' : List (Tree NodeId)}

/-- What the turn of the rule `r` has done, if `r` stood between `before` and `after` in the list of
`p`: `head` is what stands there of it, and `new` follows. -/
structure Locally (o : Options) (s : Store) (r p : NodeId) (before after : List NodeId) (s' : Store)
    (head new : List NodeId) : Prop where
  list : s'.children p = before ++ head ++ new ++ after
  container : s'.get? p = (s.get? p).map (Node.withChildren (s'.children p))
  head_eq : head = [r] ∨ (head = [] ∧ s'.children r = [] ∧ o.preserveEmpty = false ∧
    ∃ c ∈ s.children r, s.role o c ≠ .fixed ∧ s.role o c ≠ .movable)
  mem_new : ∀ n ∈ new, n ∈ s.children r ∨
    (∃ c ∈ s.children r, s.role o c = .rootRule ∧ n ∈ s.children c) ∨
    (s.size ≤ n ∧ s'.isRule n = true)
  order : (new.filter (· ∈ s.children r)).Sublist (s.children r)
  outside : ∀ m < s.size, m ≠ p → ¬ s.Reaches r m → s'.get? m = s.get? m
  selectors : ∀ n, s.Reaches r n → n ≠ r → s.isRule n = true →
    s'.selectors? n ≠ s.selectors? n → Exposed o s r n

theorem label_of_origin {c u : Tree NodeId} (hc : c.label < k)
    (h : origin k u.label = (c.map (origin k)).label) : u.label = c.label := by
  rw [label_map, origin_of_lt hc] at h
  exact (origin_eq_some.1 h).1

/-- What follows the rule, told by the trees before. -/
theorem mem_new (hlt : ∀ n ∈ labelsAll us, n < k)
    (hnew : mapAll (origin k) new = Share.left none sel false []
      (shareAll o none (fun _ => false) sel (mapAll (origin k) us))) :
    ∀ u ∈ new, (k ≤ u.label ∧ u.isRule = true) ∨ (∃ c ∈ us, u.label = c.label) ∨
      ∃ c ∈ us, c.isRootRule o = true ∧ ∃ d ∈ c.children, u.label = d.label := by
  intro u hu
  have hmem : u.map (origin k) ∈ mapAll (origin k) new := mem_mapAll.2 ⟨u, hu, rfl⟩
  rw [hnew] at hmem
  have hin : ∀ c ∈ us, ∀ m ∈ c.labels, m < k := by
    intro c hc m hm
    refine hlt m ?_
    rw [labelsAll_eq]
    exact List.mem_flatMap.2 ⟨c, hc, hm⟩
  rcases mem_left hmem with ⟨hnone, hrule⟩ | ⟨t, ht, hl⟩ | ⟨t, ht, hroot, d, hd, hl⟩
  · rw [label_map] at hnone
    refine .inl ⟨Nat.not_lt.1 fun hk => ?_, by simpa using hrule⟩
    rw [origin_of_lt hk] at hnone
    cases hnone
  · obtain ⟨c, hc, rfl⟩ := mem_mapAll.1 ht
    rw [label_map] at hl
    exact .inr (.inl ⟨c, hc, label_of_origin (hin c hc _ c.label_mem_labels) hl⟩)
  · obtain ⟨c, hc, rfl⟩ := mem_mapAll.1 ht
    obtain ⟨e, he, rfl⟩ := mem_mapAll.1 (children_map _ c ▸ hd)
    rw [label_map] at hl
    have hlt' : e.label < k := by
      refine hin c hc _ ?_
      rw [labels_eq]
      exact List.mem_cons_of_mem _ (label_mem_labelsAll he)
    exact .inr (.inr ⟨c, hc, by simpa using hroot, e, he, label_of_origin hlt' hl⟩)

theorem filterMap_origin {ns : List NodeId} : ns.filterMap (origin k) = ns.filter (· < k) := by
  induction ns with
  | nil => rfl
  | cons n ns ih =>
    by_cases hn : n < k
    · simp [origin_of_lt hn, hn, ih]
    · simp [origin_of_le (Nat.le_of_not_lt hn), hn, ih]

theorem filterMap_label_mapAll (ts : List (Tree NodeId)) :
    (mapAll (origin k) ts).filterMap label = (ts.map label).filter (· < k) := by
  rw [← filterMap_origin, mapAll_eq, List.filterMap_map, List.filterMap_map]
  congr 1
  funext t
  exact label_map _ t

theorem labelsAll_perm (ts : List (Tree NodeId)) :
    (ts.map label ++ ts.flatMap fun t => labelsAll t.children).Perm (labelsAll ts) := by
  rw [labelsAll_eq, show labels = fun t : Tree NodeId => t.label :: labelsAll t.children from
    funext labels_eq]
  exact List.map_append_flatMap_perm ts _ _

/-- No node is a child and a grandchild. -/
theorem not_mem_of_grandchild (honce : (labelsAll us).Nodup) {c e : Tree NodeId} (hc : c ∈ us)
    (he : e ∈ c.children) : e.label ∉ us.map label := by
  intro hm
  have hsplit := (labelsAll_perm us).nodup_iff.2 honce
  have hbelow : e.label ∈ us.flatMap fun t => labelsAll t.children :=
    List.mem_flatMap.2 ⟨c, hc, label_mem_labelsAll he⟩
  exact (List.nodup_append.1 hsplit).2.2 _ hm _ hbelow rfl

theorem order_new (hlt : ∀ n ∈ labelsAll us, n < k) (honce : (labelsAll us).Nodup)
    (hnew : mapAll (origin k) new = Share.left none sel false []
      (shareAll o none (fun _ => false) sel (mapAll (origin k) us))) :
    ((new.map label).filter (· ∈ us.map label)).Sublist (us.map label) := by
  have hus : ∀ n ∈ us.map label, n < k := fun n hn => hlt n ((map_label_sublist us).subset hn)
  have horder : (((mapAll (origin k) new).filterMap label).filter (· ∈ us.map label)).Sublist
      ((mapAll (origin k) us).filterMap label) := by
    rw [hnew]
    refine order_left fun t ht _ d hd n hdn => ?_
    obtain ⟨c, hc, rfl⟩ := mem_mapAll.1 ht
    obtain ⟨e, he, rfl⟩ := mem_mapAll.1 (children_map _ c ▸ hd)
    rw [label_map] at hdn
    obtain ⟨rfl, -⟩ := origin_eq_some.1 hdn
    exact decide_eq_false (not_mem_of_grandchild honce hc he)
  rw [filterMap_label_mapAll, filterMap_label_mapAll, List.filter_filter,
    List.filter_eq_self.2 fun n hn => decide_eq_true (hus n hn)] at horder
  convert horder using 2
  funext n
  by_cases hn : n ∈ us.map label
  · simp [hn, hus n hn]
  · simp [hn]

/-- The place of the rule and what follows it. -/
theorem split_apart
    (hts : mapAll (origin k) ts' = Share.apart o none (some r) sel
      (shareAll o none (fun _ => false) sel (mapAll (origin k) us))) :
    ∃ top new, ts' = top ++ new ∧
      mapAll (origin k) new = Share.left none sel false []
        (shareAll o none (fun _ => false) sel (mapAll (origin k) us)) ∧
      (top.map label = [r] ∨ (top = [] ∧ o.preserveEmpty = false ∧
        (shareAll o none (fun _ => false) sel (mapAll (origin k) us)).any Share.isLifted = true)) := by
  rw [Share.apart, mapAll_eq, List.map_eq_append_iff] at hts
  obtain ⟨top, new, rfl, htop, hnew⟩ := hts
  refine ⟨top, new, rfl, by rw [mapAll_eq, hnew], ?_⟩
  split at htop
  · next hdrop =>
    simp only [Bool.and_eq_true, Bool.not_eq_true'] at hdrop
    exact .inr ⟨List.map_eq_nil_iff.1 htop, hdrop.1.2, hdrop.1.1⟩
  · obtain ⟨t, rfl, ht⟩ := List.map_eq_singleton_iff.1 htop
    have hl := congrArg label ht
    rw [label_map] at hl
    exact .inl (by rw [List.map_singleton, (origin_eq_some.1 hl).1])

/-- What has been lifted is a child that does not stay. -/
theorem exists_of_lifted {q : NodeId} (hus : s.HoldsAll q us)
    (h : (shareAll o none (fun _ => false) sel (mapAll (origin k) us)).any Share.isLifted = true) :
    ∃ c ∈ us, s.role o c.label ≠ .fixed ∧ s.role o c.label ≠ .movable := by
  rw [shareAll_eq, mapAll_eq, List.map_map, List.any_map, List.any_eq_true] at h
  obtain ⟨c, hc, hlift⟩ := h
  have hholds := (holdsAll_iff us).1 hus c hc
  simp only [Function.comp_apply] at hlift
  refine ⟨c, hc, fun hfixed => ?_, fun hmovable => ?_⟩
  · rw [hholds.role_eq] at hfixed
    rw [share_of_fixed sel k ((holds_iff c).1 hholds).2.1 hfixed] at hlift
    cases hlift
  · rw [hholds.role_eq] at hmovable
    rw [share_of_movable sel k hmovable] at hlift
    cases hlift

/-- A node from before, told by the trees before. -/
theorem exists_of_stems {u : Tree NodeId} (hu : u.label < k)
    (h : Stems o none (mapAll (origin k) us) (u.map (origin k))) :
    ∃ w ∈ nodesAll us, w.label = u.label ∧
      (u.ownSelectors = w.ownSelectors ∨ u.label ∈ reachedAll o us) := by
  unfold Stems at h
  rw [label_map, origin_of_lt hu, ownSelectors_map, nodesAll_mapAll, reachedAll_mapAll] at h
  rcases h with h | ⟨v, hv, hl, hs⟩
  · cases h
  · obtain ⟨w, hw, rfl⟩ := List.mem_map.1 hv
    rw [label_map] at hl
    refine ⟨w, hw, (origin_eq_some.1 hl).1, hs.imp (fun hs => ?_) fun hr => ?_⟩
    · rwa [ownSelectors_map] at hs
    · obtain ⟨m, hm, he⟩ := List.mem_map.1 hr
      exact (origin_eq_some.1 he).1 ▸ hm

theorem mem_nodesAll_mapAll (k : Nat) {u : Tree NodeId} (hu : u ∈ nodesAll us) :
    u.map (origin k) ∈ nodesAll (mapAll (origin k) us) := by
  rw [nodesAll_mapAll]
  exact List.mem_map_of_mem hu

section Turn

variable {y : Node} {before after : List NodeId}

/-- Of the rules below, each that is still there has its selectors or was exposed. -/
theorem exposed_of_turn (hb : Becomes s s' p y before after [.branch r (.rule sel) us] ts')
    (hts : mapAll (origin s.size) ts' = Share.apart o none (some r) sel
      (shareAll o none (fun _ => false) sel (mapAll (origin s.size) us)))
    {n : NodeId} (hn : n ∈ rulesAll us) (hkeep : n ∈ rulesAll ts')
    (hne : s'.selectors? n ≠ s.selectors? n) : Exposed o s r n := by
  have hus := hb.source.below.holds
  obtain ⟨u, hu, hrule, rfl⟩ := mem_rulesAll.1 hkeep
  have hin : u.label ∈ labelsAll us := (rulesAll_sublist us).subset hn
  have hlt : u.label < s.size := hus.lt_size _ hin
  have hmem := mem_nodesAll_mapAll s.size hu
  rw [hts] at hmem
  rcases stems_apart hmem with hr | hstems
  · rw [label_map, origin_of_lt hlt, Option.some_inj] at hr
    exact absurd (hr ▸ hin) hb.source.top_not_mem
  obtain ⟨w, hw, hl, hsel | hreach⟩ := exists_of_stems hlt hstems
  · -- the node says in both stores what the tree says
    obtain ⟨q, hafter⟩ := hb.part.holds.of_mem_nodes u hu
    obtain ⟨q', hbefore⟩ := hus.of_mem_nodes w hw
    have hwrule : w.isRule = true := by
      rw [← hbefore.isRule_eq, hl]
      exact hus.isRule_of_mem _ hn
    refine absurd ?_ hne
    rw [hafter.selectors?_eq hrule, hsel, ← hl, hbefore.selectors?_eq hwrule]
  · refine hus.exposed (fun t ht => .child ?_) _ hreach
    rw [show s.children r = _ from hb.source.holds.1.children_eq]
    exact List.mem_map_of_mem ht

/-- A rule that has been dropped is nowhere in the tree, and empty. -/
theorem children_of_dropped (hb : Becomes s s' p y before after [.branch r (.rule sel) us] ts')
    (hts : mapAll (origin s.size) ts' = Share.left none sel false []
      (shareAll o none (fun _ => false) sel (mapAll (origin s.size) us))) : s'.children r = [] := by
  have hr : r ∈ labelsAll [Tree.branch r (.rule sel) us] := by simp [labelsAll, labels]
  refine hb.gone r hr fun hin => hb.source.top_not_mem ?_
  rw [← map_label_nodesAll] at hin
  obtain ⟨u, hu, rfl⟩ := List.mem_map.1 hin
  have hmem := mem_nodesAll_mapAll s.size hu
  rw [hts] at hmem
  obtain ⟨w, hw, hl, -⟩ := exists_of_stems (hb.source.lt_size _ hr) (stems_left hmem)
  rw [← hl, ← map_label_nodesAll]
  exact List.mem_map_of_mem hw

theorem mem_new_of_turn (hpart : s.Part p y before after [.branch r (.rule sel) us])
    (hholds : s'.HoldsAll p new)
    (hnew : mapAll (origin s.size) new = Share.left none sel false []
      (shareAll o none (fun _ => false) sel (mapAll (origin s.size) us))) :
    ∀ n ∈ new.map label, n ∈ s.children r ∨
      (∃ c ∈ s.children r, s.role o c = .rootRule ∧ n ∈ s.children c) ∨
      (s.size ≤ n ∧ s'.isRule n = true) := by
  have hchild : ∀ c ∈ us, c.label ∈ s.children r := by
    intro c hc
    rw [show s.children r = _ from hpart.holds.1.children_eq]
    exact List.mem_map_of_mem hc
  intro n hn
  obtain ⟨u, hu, rfl⟩ := List.mem_map.1 hn
  rcases mem_new hpart.below.lt_size hnew u hu with
    ⟨hle, hrule⟩ | ⟨c, hc, hl⟩ | ⟨c, hc, hroot, d, hd, hl⟩
  · refine .inr (.inr ⟨hle, ?_⟩)
    rw [((holdsAll_iff new).1 hholds u hu).isRule_eq, hrule]
  · exact .inl (hl ▸ hchild c hc)
  · have hc' := (holdsAll_iff us).1 hpart.holds.1.2 c hc
    rw [isRootRule_eq o r] at hroot
    refine .inr (.inl ⟨c.label, hchild c hc, ?_, ?_⟩)
    · rw [hc'.role_eq]
      exact of_decide_eq_true hroot
    · rw [hl, hc'.children_eq]
      exact List.mem_map_of_mem hd

theorem mem_rulesAll_of_reaches (hpart : s.Part p y before after [.branch r (.rule sel) us])
    {n : NodeId} (hn : s.Reaches r n) (hne : n ≠ r) (hrule : s.isRule n = true) :
    n ∈ rulesAll us := by
  have hin : n ∈ (Tree.branch r (.rule sel) us).labels := hpart.holds.1.reaches_iff.1 hn
  have hbelow : n ∈ labelsAll us := (List.mem_cons.1 hin).resolve_left hne
  rw [← map_label_nodesAll] at hbelow
  obtain ⟨u, hu, rfl⟩ := List.mem_map.1 hbelow
  obtain ⟨q, hq⟩ := hpart.below.holds.of_mem_nodes u hu
  exact mem_rulesAll.2 ⟨u, hu, by rw [← hq.isRule_eq, hrule], rfl⟩

theorem locally_of_turn (hb : Becomes s s' p y before after [.branch r (.rule sel) us] ts')
    (hts : mapAll (origin s.size) ts' =
      flat o none (· == some r) ((Tree.branch r (.rule sel) us).map (origin s.size))) :
    ∃ head new, Locally o s r p before after s' head new := by
  have hpart := hb.source
  have hchildren : s.children r = us.map label := hpart.holds.1.children_eq
  have hrnot : r ∉ rulesAll us := fun hm => hpart.top_not_mem ((rulesAll_sublist us).subset hm)
  have hkeep : ∀ n ∈ rulesAll us, n ∈ rulesAll ts' := by
    intro n hn
    have hlt : ∀ m ∈ rulesAll [Tree.branch r (.rule sel) us], m < s.size := fun m hm =>
      hpart.lt_size m ((rulesAll_sublist _).subset hm)
    refine mem_rulesAll_of_turn (r := r) (o := o) hlt ?_ (by simp [hn]) fun he => hrnot (he ▸ hn)
    rw [hts, mapAll, mapAll, flatAll, flatAll, List.append_nil]
  rw [flat_turn (hpart.lt_size r (by simp [labelsAll, labels])) hrnot] at hts
  obtain ⟨top, new, rfl, hnew, htop⟩ := split_apart hts
  have hplace := hb.part.place
  have hlist := children_of_get? hplace hb.part.isContainer
  refine ⟨top.map label, new.map label, ?_, ?_, ?_, ?_, ?_, fun m hm hmp hreach => ?_,
    fun n hn hne hrule hsel => ?_⟩
  · rw [hlist, List.map_append]
    simp only [List.append_assoc]
  · rw [hlist, hplace, hpart.place, Option.map_some, Node.withChildren_withChildren]
  · rcases htop with htop | ⟨rfl, hpreserve, hlift⟩
    · exact .inl htop
    · obtain ⟨c, hc, hrole⟩ := exists_of_lifted hpart.below.holds hlift
      refine .inr ⟨rfl, children_of_dropped hb hnew, hpreserve, c.label, ?_, hrole⟩
      rw [hchildren]
      exact List.mem_map_of_mem hc
  · exact mem_new_of_turn hpart ((holdsAll_append top new).1 hb.part.holds).2 hnew
  · rw [hchildren]
    exact order_new hpart.below.lt_size hpart.below.nodup hnew
  · refine hb.same m hm hmp fun hin => hreach ?_
    exact hpart.holds.1.reaches m (by simpa [labelsAll] using hin)
  · have hbelow := mem_rulesAll_of_reaches hpart hn hne hrule
    exact exposed_of_turn hb hts hbelow (hkeep n hbelow) hsel

end Turn

/-- The turn of an attached rule changes the document in one place. In the list of its container the
rule stays or is gone, then follows what has left it, and all else is as before. -/
theorem unnest_local {doc : NodeId} {ts : List (Tree NodeId)} {before after : List NodeId}
    (h : s.IsDocument doc ts) (hr : r ∈ rulesAll ts) (hp : s.parent? r = some p)
    (hlist : s.children p = before ++ r :: after) (o : Options) (log : Array Event) (own : ρ) :
    ∃ s' log' head new, unnest o r ⟨s, log, own⟩ = .ok () ⟨s', log', own⟩ ∧
      Locally o s r p before after s' head new := by
  obtain ⟨q, y, front, back, sel, us, hpart⟩ := Part.ofRules ts h.part hr
  have hq : s.parent? r = some q := parent?_of_link hpart.holds.1.1 rfl hpart.place
  obtain rfl : p = q := Option.some.inj (hp.symm.trans hq)
  have hin : r ∈ labelsAll [Tree.branch r (.rule sel) us] := by simp [labelsAll, labels]
  have hparts : before ++ r :: after = front ++ r :: back := by
    rw [← hlist, children_of_get? hpart.place hpart.isContainer]
    simp [label]
  obtain ⟨rfl, -, rfl⟩ := (List.append_cons_inj_of_notMem
    (fun hm => hpart.not_mem (List.mem_append_left _ hm) hin)
    (fun hm => hpart.not_mem (List.mem_append_right _ hm) hin)).1 hparts.symm
  obtain ⟨s', ts', hrun, hb, hts⟩ := runs_unnest_below (ρ := ρ) (o := o) _ hpart (by simp)
    (h.reachesRoot hr)
  obtain ⟨log', hok⟩ := hrun log own
  have hr : r < s.size := hpart.lt_size r hin
  obtain ⟨head, new, hlocal⟩ := locally_of_turn hb (hts s.size (Nat.le_refl _) hr)
  exact ⟨s', log', head, new, hok, hlocal⟩

/-- A rule that is dropped: what could not leave its root rule alone, the rule in that root rule and
the nested rule take its place. -/
theorem unnest_local_in_escapeStore :
    1 ∈ rulesAll escapeTrees ∧ escapeStore.parent? 1 = some 0 ∧
    escapeStore.children 0 = [] ++ 1 :: [] ∧
    ∃ s' log' head new, unnest {} 1 ⟨escapeStore, #[], ()⟩ = .ok () ⟨s', log', ()⟩ ∧
      Locally {} escapeStore 1 0 [] [] s' head new :=
  ⟨by decide, rfl, rfl, unnest_local escapeStore_isDocument (by decide) rfl rfl {} #[] ()⟩

example : ∃ s' log', unnest {} 1 ⟨escapeStore, #[], ()⟩ = .ok () ⟨s', log', ()⟩ ∧
    s'.children 0 = [7, 4, 6] ∧ s'.selectors? 4 = some ["b"] ∧ s'.selectors? 6 = some ["a c"] :=
  ⟨_, _, rfl, by decide +kernel⟩

end Pass

end Unnest
