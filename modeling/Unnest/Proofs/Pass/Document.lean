import Unnest.Pass.Sweep
import Unnest.Proofs.Pass.Apart
import Unnest.Proofs.Tree.Faces

/-! A pass over a document. The rule whose turn it is stands somewhere below the root, so what it
comes to replaces it in the list of its container and nothing else changes. The listed rules come
with parents first, and a rule below one that waits has not been taken apart, so the turns add up to
the flat form of the whole document. -/

namespace Unnest

open Tree Store

theorem origin_eq_some {k n m : NodeId} : origin k n = some m ↔ n = m ∧ n < k := by
  unfold origin
  split_ifs with h
  · simp [h]
  · simp [h]

theorem origin_of_lt {k n : NodeId} (h : n < k) : origin k n = some n := if_pos h

namespace Tree

variable {α β : Type}

mutual

theorem map_congr {f g : α → β} : (t : Tree α) → (∀ n ∈ t.labels, f n = g n) → t.map f = t.map g
  | .leaf a l, h => by rw [Tree.map, Tree.map, h a List.mem_cons_self]
  | .statement a n q, h => by rw [Tree.map, Tree.map, h a List.mem_cons_self]
  | .branch a hd ts, h => by
    rw [Tree.map, Tree.map, h a List.mem_cons_self,
      mapAll_congr ts fun n hn => h n (List.mem_cons_of_mem _ hn)]

theorem mapAll_congr {f g : α → β} : (ts : List (Tree α)) → (∀ n ∈ labelsAll ts, f n = g n) →
    mapAll f ts = mapAll g ts
  | [], _ => rfl
  | t :: ts, h => by
    rw [mapAll, mapAll, map_congr t fun n hn => h n (List.mem_append_left _ hn),
      mapAll_congr ts fun n hn => h n (List.mem_append_right _ hn)]

end

mutual

theorem rules_map (f : α → β) : (t : Tree α) → (t.map f).rules = t.rules.map f
  | .leaf _ _ => rfl
  | .statement _ _ _ => rfl
  | .branch a h ts => by
    rw [Tree.map, rules, rules, rulesAll_mapAll f ts]
    split <;> rfl

theorem rulesAll_mapAll (f : α → β) : (ts : List (Tree α)) →
    rulesAll (mapAll f ts) = (rulesAll ts).map f
  | [] => rfl
  | t :: ts => by
    rw [mapAll, rulesAll, rulesAll, rules_map f t, rulesAll_mapAll f ts, List.map_append]

end

mutual

theorem nestings_map (f : α → β) : (t : Tree α) → (t.map f).nestings = t.nestings.map (Prod.map f f)
  | .leaf _ _ => rfl
  | .statement _ _ _ => rfl
  | .branch a h ts => by
    rw [Tree.map, nestings, nestings, nestingsAll_mapAll f ts, rulesAll_mapAll, List.map_append]
    split <;> simp

theorem nestingsAll_mapAll (f : α → β) : (ts : List (Tree α)) →
    nestingsAll (mapAll f ts) = (nestingsAll ts).map (Prod.map f f)
  | [] => rfl
  | t :: ts => by
    rw [mapAll, nestingsAll, nestingsAll, nestings_map f t, nestingsAll_mapAll f ts,
      List.map_append]

end

mutual

/-- A rule is listed before the rules below it. -/
theorem sublist_of_mem_nestings {x : α × α} : (t : Tree α) → x ∈ t.nestings →
    [x.1, x.2].Sublist t.rules
  | .leaf _ _, hx => by simp [nestings] at hx
  | .statement _ _ _, hx => by simp [nestings] at hx
  | .branch a h ts, hx => by
    rcases List.mem_append.1 hx with hx | hx
    · cases hr : h.isRule with
      | false => simp [hr] at hx
      | true =>
        rw [hr, if_pos rfl] at hx
        obtain ⟨b, hb, rfl⟩ := List.mem_map.1 hx
        rw [rules, hr, if_pos rfl]
        exact (List.singleton_sublist.2 hb).cons_cons a
    · have hts := sublist_of_mem_nestingsAll ts hx
      rw [rules]
      split
      · exact hts.cons a
      · exact hts

theorem sublist_of_mem_nestingsAll {x : α × α} : (ts : List (Tree α)) → x ∈ nestingsAll ts →
    [x.1, x.2].Sublist (rulesAll ts)
  | [], hx => by simp [nestingsAll] at hx
  | t :: ts, hx => by
    rcases List.mem_append.1 hx with hx | hx
    · exact (sublist_of_mem_nestings t hx).trans (List.sublist_append_left _ _)
    · exact (sublist_of_mem_nestingsAll ts hx).trans (List.sublist_append_right _ _)

end

end Tree

namespace Pass

variable {ρ : Type} {o : Options} {s : Store} {r : NodeId} {ts : List (Tree NodeId)}

theorem ne_none_of_mem_rulesAll {a : Option NodeId} (h : a ∈ rulesAll (mapAll some ts)) :
    a ≠ none := by
  rw [rulesAll_mapAll] at h
  obtain ⟨n, -, rfl⟩ := List.mem_map.1 h
  exact Option.some_ne_none n

theorem some_mem_rulesAll (h : r ∈ rulesAll ts) : some r ∈ rulesAll (mapAll some ts) := by
  rw [rulesAll_mapAll]
  exact List.mem_map_of_mem h

theorem mem_rulesAll_of_origin {k : Nat} (h : some r ∈ rulesAll (mapAll (origin k) ts)) :
    r ∈ rulesAll ts := by
  rw [rulesAll_mapAll] at h
  obtain ⟨n, hn, he⟩ := List.mem_map.1 h
  exact (origin_eq_some.1 he).1 ▸ hn

theorem not_due_of_not_mem {k : Nat} (h : r ∉ rulesAll ts) :
    ∀ b ∈ rulesAll (mapAll (origin k) ts), (b == some r) = false := by
  intro b hb
  rw [rulesAll_mapAll] at hb
  obtain ⟨n, hn, rfl⟩ := List.mem_map.1 hb
  have hne : origin k n ≠ some r := fun he => h ((origin_eq_some.1 he).1 ▸ hn)
  simpa using hne

/-- At its turn a rule is taken apart and nothing in it is. -/
theorem flat_turn {k : Nat} {sel : List String} (hr : r < k) (hnot : r ∉ rulesAll ts) :
    flat o none (· == some r) ((Tree.branch r (.rule sel) ts).map (origin k)) =
      Share.apart o none (some r) sel
        (shareAll o none (fun _ => false) sel (mapAll (origin k) ts)) := by
  have hshares : shareAll o none (· == some r) sel (mapAll (origin k) ts) =
      shareAll o none (fun _ => false) sel (mapAll (origin k) ts) :=
    shareAll_congr _ (not_due_of_not_mem hnot)
  rw [Tree.map, flat, place, origin_of_lt hr, beq_self_eq_true, if_pos rfl, hshares]

mutual

/-- The turn of a rule below a node. -/
theorem runs_unnest_below : (t : Tree NodeId) → {s : Store} → {p : NodeId} → {y : Node} →
    {before after : List NodeId} → s.Part p y before after [t] → r ∈ t.rules →
    s.reachesRoot r = true →
    ∃ s' ts', Runs (unnest o r : Edit ρ Unit) s s' () ∧
      Becomes s s' p y before after [t] ts' ∧
      ∀ k ≤ s.size, r < k → mapAll (origin k) ts' = flat o none (· == some r) (t.map (origin k))
  | .leaf _ _, _, _, _, _, _, _, hr, _ => by simp [rules] at hr
  | .statement _ _ _, _, _, _, _, _, _, hr, _ => by simp [rules] at hr
  | .branch a .root us, s, p, y, before, after, h, hr, hroot => h.holds.1.elim
  | .branch a (.atRule n q) us, s, p, y, before, after, h, hr, hroot => by
    obtain ⟨s', us', hrun, hb, hus⟩ := runs_unnestAll_below us h.below hr hroot
    exact ⟨s', _, hrun, Becomes.below h hb, fun k hk hrk => by
      simp [mapAll, Tree.map, flat, hus k hk hrk]⟩
  | .branch a (.rule sel) us, s, p, y, before, after, h, hr, hroot => by
    have honce := h.nodup
    simp only [labelsAll, labels, List.append_nil, List.nodup_cons] at honce
    have hanot : a ∉ rulesAll us := fun hm => honce.1 ((rulesAll_sublist us).subset hm)
    by_cases ha : a = r
    · subst ha
      obtain ⟨s', ts', hrun, hb, hts⟩ := runs_unnest (ρ := ρ) (o := o) h hroot
      exact ⟨s', ts', hrun, hb, fun k hk hrk => by
        rw [hts k hk, flat_turn hrk hanot, origin_of_lt hrk]⟩
    · have hr : r ∈ rulesAll us :=
        (List.mem_cons.1 (show r ∈ a :: rulesAll us from hr)).resolve_left (Ne.symm ha)
      obtain ⟨s', us', hrun, hb, hus⟩ := runs_unnestAll_below us h.below hr hroot
      refine ⟨s', _, hrun, Becomes.below h hb, fun k hk hrk => ?_⟩
      have hne : (origin k a == some r) = false := by
        simpa using fun he => ha (origin_eq_some.1 he).1
      simp [mapAll, Tree.map, flat, place, hne, hus k hk hrk]

theorem runs_unnestAll_below : (ts : List (Tree NodeId)) → {s : Store} → {p : NodeId} →
    {y : Node} → {before after : List NodeId} → s.Part p y before after ts → r ∈ rulesAll ts →
    s.reachesRoot r = true →
    ∃ s' ts', Runs (unnest o r : Edit ρ Unit) s s' () ∧
      Becomes s s' p y before after ts ts' ∧
      ∀ k ≤ s.size, r < k →
        mapAll (origin k) ts' = flatAll o none (· == some r) (mapAll (origin k) ts)
  | [], _, _, _, _, _, _, hr, _ => by simp [rulesAll] at hr
  | t :: ts, s, p, y, before, after, h, hr, hroot => by
    have hdisj : ∀ n ∈ t.rules, n ∉ rulesAll ts := by
      intro n hn hm
      have honce := h.nodup
      rw [labelsAll, List.nodup_append] at honce
      exact honce.2.2 n ((rules_sublist t).subset hn) n ((rulesAll_sublist ts).subset hm) rfl
    by_cases ht : r ∈ t.rules
    · obtain ⟨s', ts', hrun, hb, hts⟩ := runs_unnest_below t h.head ht hroot
      refine ⟨s', ts' ++ ts, hrun, Becomes.head h hb, fun k hk hrk => ?_⟩
      rw [mapAll_append, hts k hk hrk, mapAll, flatAll,
        flatAll_of_not_due _ (not_due_of_not_mem (hdisj r ht))]
    · obtain ⟨s', ts', hrun, hb, hts⟩ := runs_unnestAll_below ts h.tail
        ((List.mem_append.1 hr).resolve_left ht) hroot
      refine ⟨s', t :: ts', hrun, Becomes.tail h hb, fun k hk hrk => ?_⟩
      have hnot : r ∉ rulesAll [t] := by simpa using ht
      have hstill : flat o none (· == some r) (t.map (origin k)) = [t.map (origin k)] :=
        flat_of_not_due _ (by simpa [mapAll] using not_due_of_not_mem (k := k) hnot)
      rw [mapAll, mapAll, flatAll, hts k hk hrk, hstill]
      rfl

end

/-- The rules whose turn is over. -/
def due (done : List NodeId) (b : Option NodeId) : Bool := decide (b ∈ done.map some)

theorem due_concat (done : List NodeId) (r : NodeId) (b : Option NodeId) :
    (due done b || (b == some r)) = due (done ++ [r]) b := by
  rw [Bool.eq_iff_iff]
  simp [due]

theorem not_mem_done {done rest : List NodeId} (hrules : rulesAll ts = done ++ r :: rest)
    (hnodup : (rulesAll ts).Nodup) : r ∉ done := by
  intro hm
  rw [hrules] at hnodup
  exact (List.nodup_append.1 hnodup).2.2 r hm r List.mem_cons_self rfl

/-- A rule below `r` is listed after it, so its turn is not over. -/
theorem not_mem_done_of_below {done rest : List NodeId} {b : NodeId}
    (hrules : rulesAll ts = done ++ r :: rest) (hnodup : (rulesAll ts).Nodup)
    (hb : (r, b) ∈ nestingsAll ts) : b ∉ done := by
  have hr := not_mem_done hrules hnodup
  have hlisted := sublist_of_mem_nestingsAll ts hb
  rw [hrules] at hlisted hnodup
  obtain ⟨front, back, he, hfront, hback⟩ := List.sublist_append_iff.1 hlisted
  cases front with
  | nil =>
    obtain rfl : [r, b] = back := he
    have hm := List.singleton_sublist.1 (List.cons_sublist_cons.1 hback)
    exact fun hd => (List.nodup_append.1 hnodup).2.2 b hd b (List.mem_cons_of_mem _ hm) rfl
  | cons c front =>
    obtain ⟨rfl, -⟩ := List.cons.inj he
    exact absurd (hfront.subset List.mem_cons_self) hr

theorem before_turn {done rest : List NodeId} (hrules : rulesAll ts = done ++ r :: rest)
    (hnodup : (rulesAll ts).Nodup) :
    Before (due done) (· == some r) (rulesAll (mapAll some ts)) (nestingsAll (mapAll some ts)) := by
  constructor
  · intro b _ hb
    simp only [due, decide_eq_true_eq, List.mem_map] at hb
    obtain ⟨n, hn, rfl⟩ := hb
    simpa using fun he : n = r => not_mem_done hrules hnodup (he ▸ hn)
  · intro x hx hxr
    rw [nestingsAll_mapAll] at hx
    obtain ⟨⟨a, b⟩, hab, rfl⟩ := List.mem_map.1 hx
    obtain rfl : a = r := by simpa using hxr
    simpa [due] using not_mem_done_of_below hrules hnodup hab

/-- One more turn in the flat form of the document that the pass began with. -/
theorem flatAll_turn {done rest : List NodeId} (hrules : rulesAll ts = done ++ r :: rest)
    (hnodup : (rulesAll ts).Nodup) :
    flatAll o none (· == some r) (flatAll o none (due done) (mapAll some ts)) =
      flatAll o none (due (done ++ [r])) (mapAll some ts) := by
  rw [flatAll_flatAll rfl _ (before_turn hrules hnodup)]
  exact flatAll_congr _ fun b _ => due_concat done r b

theorem runs_dispatch {s' : Store} (handler : NodeId → Edit ρ Unit) (h : Runs (handler r) s s' ()) :
    Runs (dispatch handler r) s s' () := by
  refine .bind_look ?_
  cases s.selectors? r with
  | none => exact h
  | some selectors => exact .bind_note h

/-- A rule that is in the tree at its turn is handed over. -/
theorem runs_visit_cons {s₁ s₂ : Store} (stale : Stale) (handler : NodeId → Edit ρ Unit)
    {rest : List NodeId} {st st' : Stats} (hroot : s.reachesRoot r = true)
    (h : Runs (handler r) s s₁ ())
    (hrest : Runs (visit stale handler rest { st with dispatched := st.dispatched + 1 })
      s₁ s₂ st') :
    Runs (visit stale handler (r :: rest) st) s s₂ st' := by
  have hgo : ¬ (stale = .skip ∧ (!s.reachesRoot r) = true) := by simp [hroot]
  rw [visit]
  refine .bind_look ?_
  rw [if_neg hgo]
  exact (runs_dispatch handler h).bind hrest

/-- The turns still to come: each takes its rule apart, and together they lead to the flat form. -/
theorem runs_visit {doc : NodeId} {ts₀ : List (Tree NodeId)} {k : Nat}
    (hnodup : (rulesAll ts₀).Nodup) (hlt : ∀ n ∈ rulesAll ts₀, n < k) (stale : Stale)
    {rest : List NodeId} (done : List NodeId) (hrules : rulesAll ts₀ = done ++ rest) {s : Store}
    {ts : List (Tree NodeId)} (st : Stats) (h : s.Part doc (.root []) [] [] ts) (hk : k ≤ s.size)
    (hts : mapAll (origin k) ts = flatAll o none (due done) (mapAll some ts₀)) :
    ∃ s' ts', Runs (visit stale (unnest o) rest st : Edit ρ Stats) s s'
        { st with dispatched := st.dispatched + rest.length } ∧
      Becomes s s' doc (.root []) [] [] ts ts' ∧
      mapAll (origin k) ts' = flatAll o none (due (done ++ rest)) (mapAll some ts₀) := by
  induction rest generalizing done s ts st with
  | nil => exact ⟨s, ts, runs_pure s st, Becomes.refl h, by rw [List.append_nil, hts]⟩
  | cons r rest ih =>
    -- the turns before have kept `r` in the tree
    have hr : r ∈ rulesAll ts := by
      have hnot := not_mem_done hrules hnodup
      have hmem : some r ∈ rulesAll (flatAll o none (due done) (mapAll some ts₀)) :=
        (mem_rulesAll_flatAll (by simpa [due] using hnot) (Option.some_ne_none r)
          fun a => ne_none_of_mem_rulesAll).2 (some_mem_rulesAll (by simp [hrules]))
      rw [← hts] at hmem
      exact mem_rulesAll_of_origin hmem
    have hroot := h.isDocument.reachesRoot hr
    obtain ⟨s₁, ts₁, hrun, hb, hts₁⟩ := runs_unnestAll_below (ρ := ρ) (o := o) ts h hr hroot
    have hturn := hts₁ k hk (hlt r (by rw [hrules]; simp))
    rw [hts, flatAll_turn hrules hnodup] at hturn
    obtain ⟨s', ts', hruns, hb', hts'⟩ := ih (done ++ [r]) (by simp [hrules])
      { st with dispatched := st.dispatched + 1 } hb.part (Nat.le_trans hk hb.grown) hturn
    refine ⟨s', ts', ?_, hb.trans hb', by simpa using hts'⟩
    have hst : st.dispatched + (r :: rest).length = st.dispatched + 1 + rest.length := by
      simp only [List.length_cons]
      omega
    rw [hst]
    exact runs_visit_cons stale _ hroot hrun hruns

theorem runs_flatten {doc : NodeId} (o : Options) (h : s.IsDocument doc ts) :
    ∃ s' ts', Runs (flatten o doc : Edit ρ Stats) s s'
        ⟨(rulesAll ts).length, (rulesAll ts).length, 0⟩ ∧
      Becomes s s' doc (.root []) [] [] ts ts' ∧
      mapAll (origin s.size) ts' = flatAll o none (fun _ => true) (mapAll some ts) := by
  have hlt : ∀ n ∈ rulesAll ts, n < s.size := fun n hn =>
    h.below.lt_size n ((rulesAll_sublist ts).subset hn)
  have hstart : mapAll (origin s.size) ts = flatAll o none (due []) (mapAll some ts) := by
    rw [flatAll_of_not_due (mapAll some ts) fun b _ => by simp [due]]
    exact mapAll_congr ts fun n hn => origin_of_lt (h.below.lt_size n hn)
  obtain ⟨s', ts', hrun, hb, hts⟩ := runs_visit (ρ := ρ) (o := o) h.rules_nodup hlt o.stale
    [] rfl ⟨(rulesAll ts).length, 0, 0⟩ h.part (Nat.le_refl _) hstart
  refine ⟨s', ts', .bind_look ?_, hb, hts.trans ?_⟩
  · rw [h.rulesUnder_eq]
    refine .bind_note (hrun.bind (.bind_note ?_))
    simpa using runs_pure s' _
  · refine flatAll_congr _ fun b hb => ?_
    rw [rulesAll_mapAll] at hb
    simpa [due] using hb

/-- The tree that a pass leaves is the flat form of the tree it found. A node keeps its label, and a
copy of a rule, which is new, has none. -/
theorem flatten_leaves_flat_form {doc : NodeId} (o : Options) (h : s.IsDocument doc ts)
    (log : Array Event) (own : ρ) :
    ∃ s' ts' log', flatten o doc ⟨s, log, own⟩ =
        .ok ⟨(rulesAll ts).length, (rulesAll ts).length, 0⟩ ⟨s', log', own⟩ ∧
      s'.IsDocument doc ts' ∧ s'.tree? doc = some (.branch doc .root ts') ∧
      mapAll (origin s.size) ts' = flatAll o none (fun _ => true) (mapAll some ts) := by
  obtain ⟨s', ts', hrun, hb, hts⟩ := runs_flatten (ρ := ρ) o h
  obtain ⟨log', hok⟩ := hrun log own
  have hdoc := hb.part.isDocument
  exact ⟨s', ts', log', hok, hdoc, hdoc.tree?_eq, hts⟩

/-- A rule around a nested one. -/
def nestedTrees : List (Tree NodeId) :=
  [.branch 1 (.rule ["a"]) [.leaf 2 (.raw "x"), .branch 3 (.rule ["b"]) [.leaf 4 (.raw "y")],
    .leaf 5 (.raw "z")]]

def nestedStore : Store :=
  ⟨#[some (.root [1]), some (.rule ["a"] [2, 3, 5] (some 0)), some (.leaf (.raw "x")),
    some (.rule ["b"] [4] (some 1)), some (.leaf (.raw "y")), some (.leaf (.raw "z"))]⟩

theorem nestedStore_isDocument : nestedStore.IsDocument 0 nestedTrees :=
  ⟨rfl, ⟨⟨rfl, rfl, ⟨rfl, rfl, trivial⟩, rfl, trivial⟩, trivial⟩, by decide⟩

theorem flatten_nestedStore : ∃ s' ts' log', flatten {} 0 ⟨nestedStore, #[], ()⟩ =
      .ok ⟨2, 2, 0⟩ ⟨s', log', ()⟩ ∧
    s'.IsDocument 0 ts' ∧ s'.tree? 0 = some (.branch 0 .root ts') ∧
    mapAll (origin 6) ts' =
      [.branch (some 1) (.rule ["a"]) [.leaf (some 2) (.raw "x")],
        .branch (some 3) (.rule ["a b"]) [.leaf (some 4) (.raw "y")],
        .branch none (.rule ["a"]) [.leaf (some 5) (.raw "z")]] :=
  flatten_leaves_flat_form {} nestedStore_isDocument #[] ()

end Pass

end Unnest
