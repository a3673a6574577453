import Unnest.Proofs.Pass.Document

/-! What a pass keeps. A turn succeeds and takes no other rule out of the tree, so no rule is stale
when its turn comes. After all the turns every node is in the tree once and says what it said, but
for rules and root rules that have lost everything, and each new node is a rule that holds
something. -/

namespace Unnest

open Tree Store

namespace Pass

variable {ρ : Type} {o : Options} {s s' : Store} {doc : NodeId} {ts ts' : List (Tree NodeId)}
  {k : Nat}

/-! One turn. -/

/-- The turn of a rule leaves the other rules in the tree. -/
theorem mem_rulesAll_of_turn {r n : NodeId} (hlt : ∀ m ∈ rulesAll ts, m < k)
    (hts : mapAll (origin k) ts' = flatAll o none (· == some r) (mapAll (origin k) ts))
    (hn : n ∈ rulesAll ts) (hne : n ≠ r) : n ∈ rulesAll ts' := by
  have hold : ∀ a ∈ rulesAll (mapAll (origin k) ts), a ≠ none := by
    intro a ha
    rw [rulesAll_mapAll] at ha
    obtain ⟨m, hm, rfl⟩ := List.mem_map.1 ha
    rw [origin_of_lt (hlt m hm)]
    exact Option.some_ne_none m
  have hbefore : some n ∈ rulesAll (mapAll (origin k) ts) := by
    rw [rulesAll_mapAll]
    exact List.mem_map.2 ⟨n, hn, origin_of_lt (hlt n hn)⟩
  have hafter : some n ∈ rulesAll (flatAll o none (· == some r) (mapAll (origin k) ts)) :=
    (mem_rulesAll_flatAll (by simpa using hne) (Option.some_ne_none n) hold).2 hbefore
  rw [← hts] at hafter
  exact mem_rulesAll_of_origin hafter

theorem runs_unnest_document {r : NodeId} (o : Options) (h : s.IsDocument doc ts)
    (hr : r ∈ rulesAll ts) :
    ∃ s' ts', Runs (unnest o r : Edit ρ Unit) s s' () ∧
      Becomes s s' doc (.root []) [] [] ts ts' ∧ ∀ n ∈ rulesAll ts, n ≠ r → n ∈ rulesAll ts' := by
  have hlt : ∀ m ∈ rulesAll ts, m < s.size := fun m hm =>
    h.below.lt_size m ((rulesAll_sublist ts).subset hm)
  obtain ⟨s', ts', hrun, hb, hts⟩ := runs_unnestAll_below (ρ := ρ) (o := o) ts h.part hr
    (h.reachesRoot hr)
  exact ⟨s', ts', hrun, hb, fun n =>
    mem_rulesAll_of_turn hlt (hts s.size (Nat.le_refl _) (hlt r hr))⟩

/-- In a document no turn of the standard handler fails, and none makes another rule stale or
touches a node outside the document; so a pass hands over all the rules and skips none. -/
theorem unnest_keeps_attached (o : Options) (h : s.IsDocument doc ts) (log : Array Event)
    (own : ρ) :
    (∀ r ∈ rulesAll ts, ∃ s' ts' log', unnest o r ⟨s, log, own⟩ = .ok () ⟨s', log', own⟩ ∧
      s'.IsDocument doc ts' ∧
      (∀ n ∈ rulesAll ts, n ≠ r → n ∈ rulesAll ts' ∧ s'.reachesRoot n = true) ∧
      ∀ n < s.size, n ∉ doc :: labelsAll ts → s'.get? n = s.get? n) ∧
    ∃ s' ts' log', flatten o doc ⟨s, log, own⟩ =
        .ok ⟨(rulesAll ts).length, (rulesAll ts).length, 0⟩ ⟨s', log', own⟩ ∧
      s'.IsDocument doc ts' := by
  constructor
  · intro r hr
    obtain ⟨s', ts', hrun, hb, hkeep⟩ := runs_unnest_document (ρ := ρ) o h hr
    obtain ⟨log', hok⟩ := hrun log own
    have hdoc := hb.part.isDocument
    refine ⟨s', ts', log', hok, hdoc, fun n hn hne => ?_, fun n hn hnot => ?_⟩
    · exact ⟨hkeep n hn hne, hdoc.reachesRoot (hkeep n hn hne)⟩
    · rw [List.mem_cons, not_or] at hnot
      exact hb.same n hn hnot.1 hnot.2
  · obtain ⟨s', ts', hrun, hb, -⟩ := runs_flatten (ρ := ρ) o h
    obtain ⟨log', hok⟩ := hrun log own
    exact ⟨s', ts', log', hok, hb.part.isDocument⟩

/-- A rule that comes to nothing: its root rule goes with it. -/
def escapeTrees : List (Tree NodeId) :=
  [.branch 1 (.rule ["a"]) [.branch 2 (.atRule "at-root" "")
    [.leaf 3 (.raw "x"), .branch 4 (.rule ["b"]) [.leaf 5 (.raw "y")]],
    .branch 6 (.rule ["c"]) []]]

def escapeStore : Store :=
  ⟨#[some (.root [1]), some (.rule ["a"] [2, 6] (some 0)),
    some (.atRule "at-root" "" (some [3, 4]) (some 1)), some (.leaf (.raw "x")),
    some (.rule ["b"] [5] (some 2)), some (.leaf (.raw "y")), some (.rule ["c"] [] (some 1))]⟩

theorem escapeStore_isDocument : escapeStore.IsDocument 0 escapeTrees :=
  ⟨rfl, ⟨⟨rfl, ⟨rfl, rfl, ⟨rfl, rfl, trivial⟩, trivial⟩, ⟨rfl, trivial⟩, trivial⟩, trivial⟩,
    by decide⟩

theorem unnest_escapeStore :
    (∃ s' ts' log', unnest {} 1 ⟨escapeStore, #[], ()⟩ = .ok () ⟨s', log', ()⟩ ∧
      s'.IsDocument 0 ts' ∧ 4 ∈ rulesAll ts' ∧ s'.reachesRoot 6 = true) ∧
    ∃ s' ts' log', flatten {} 0 ⟨escapeStore, #[], ()⟩ = .ok ⟨3, 3, 0⟩ ⟨s', log', ()⟩ ∧
      s'.IsDocument 0 ts' := by
  obtain ⟨hturn, hpass⟩ := unnest_keeps_attached {} escapeStore_isDocument #[] ()
  obtain ⟨s', ts', log', hok, hdoc, hkeep, -⟩ := hturn 1 (by decide)
  exact ⟨⟨s', ts', log', hok, hdoc, (hkeep 4 (by decide) (by decide)).1,
    (hkeep 6 (by decide) (by decide)).2⟩, hpass⟩

/-! The whole pass. -/

theorem mem_faces_mapAll {f : NodeId → Option NodeId} {x : Option NodeId × Face} :
    x ∈ faces none (mapAll f ts) ↔
      ∃ t ∈ nodesAll ts, (t.map f).isCopy none = false ∧ (f t.label, t.face) = x := by
  rw [mem_faces, nodesAll_mapAll]
  constructor
  · rintro ⟨u, hu, hcopy, he⟩
    obtain ⟨t, ht, rfl⟩ := List.mem_map.1 hu
    exact ⟨t, ht, hcopy, by simpa using he⟩
  · rintro ⟨t, ht, hcopy, he⟩
    exact ⟨t.map f, List.mem_map_of_mem ht, hcopy, by simpa using he⟩

/-- Nodes from before have their label. -/
theorem isCopy_map_of_eq_some {f : NodeId → Option NodeId} {t : Tree NodeId} {n : NodeId}
    (h : f t.label = some n) : (t.map f).isCopy none = false := by
  simp [isCopy, h]

/-- What a pass keeps, that leads from the trees `ts` to the trees `ts'` of the store `s'`. -/
structure Conserves (o : Options) (s' : Store) (ts ts' : List (Tree NodeId)) : Prop where
  leaves : ∀ n l, .leaf n l ∈ nodesAll ts → .leaf n l ∈ nodesAll ts'
  /-- At-rules keep their name and params, and their block if they have one. Only a root rule may be
  gone, with nothing left in it. -/
  atRules : ∀ t ∈ nodesAll ts, ∀ n q block, t.face = .atRule n q block →
    (∃ u ∈ nodesAll ts', u.label = t.label ∧ u.face = t.face) ∨
      (o.namesRootRule n = true ∧ t.label ∉ labelsAll ts' ∧ s'.children t.label = [])
  rules : ∀ n ∈ rulesAll ts, n ∈ rulesAll ts' ∨ (n ∉ labelsAll ts' ∧ s'.children n = [])
  new : ∀ u ∈ nodesAll ts', u.label ∉ labelsAll ts → u.isRule = true ∧ u.children ≠ []

section Whole

variable (hb : Becomes s s' doc (.root []) [] [] ts ts')
  (hts : mapAll (origin s.size) ts' = flatAll o none (fun _ => true) (mapAll some ts))

include hts in
theorem sheds_pass : Sheds o (fun _ => true) (faces none (mapAll (origin s.size) ts'))
    (faces none (mapAll some ts)) := by
  rw [hts]
  exact sheds_flatAll _ fun a => ne_none_of_mem_rulesAll

include hb hts

/-- A node from before that is still in the tree says what it said. -/
theorem face_of_mem_after {u t : Tree NodeId} (hu : u ∈ nodesAll ts') (ht : t ∈ nodesAll ts)
    (hl : u.label = t.label) : u.face = t.face := by
  have hlt : t.label < s.size := hb.source.lt_size _ (by
    rw [← map_label_nodesAll]
    exact List.mem_map_of_mem ht)
  have horigin : origin s.size u.label = some t.label := by rw [hl, origin_of_lt hlt]
  have hafter : (some t.label, u.face) ∈ faces none (mapAll (origin s.size) ts') :=
    mem_faces_mapAll.2 ⟨u, hu, isCopy_map_of_eq_some horigin, by rw [horigin]⟩
  obtain ⟨v, hv, -, he⟩ := mem_faces_mapAll.1 ((sheds_pass hts).subset hafter)
  obtain ⟨hlabel, hface⟩ := Prod.mk.inj he
  have hnodup := hb.source.nodup
  rw [← map_label_nodesAll] at hnodup
  rw [← hface, List.inj_on_of_nodup_map hnodup hv ht (Option.some.inj hlabel)]

theorem kept_or_gone {t : Tree NodeId} (ht : t ∈ nodesAll ts) :
    (∃ u ∈ nodesAll ts', u.label = t.label ∧ u.face = t.face) ∨
      (t.face.mayGo o true = true ∧ t.label ∉ labelsAll ts' ∧ s'.children t.label = []) := by
  have hbefore : t.label ∈ labelsAll ts := by
    rw [← map_label_nodesAll]
    exact List.mem_map_of_mem ht
  by_cases hin : t.label ∈ labelsAll ts'
  · rw [← map_label_nodesAll] at hin
    obtain ⟨u, hu, hl⟩ := List.mem_map.1 hin
    exact .inl ⟨u, hu, hl, face_of_mem_after hb hts hu ht hl⟩
  · cases hgo : t.face.mayGo o true with
    | true => exact .inr ⟨rfl, hin, hb.gone _ hbefore hin⟩
    | false =>
      have hmem : (some t.label, t.face) ∈ faces none (mapAll some ts) :=
        mem_faces_mapAll.2 ⟨t, ht, isCopy_map_of_eq_some rfl, rfl⟩
      obtain ⟨u, hu, -, he⟩ := mem_faces_mapAll.1 ((sheds_pass hts).mem hmem hgo)
      obtain ⟨hlabel, hface⟩ := Prod.mk.inj he
      exact .inl ⟨u, hu, (origin_eq_some.1 hlabel).1, hface⟩

/-- A node that was not there is a copy of a rule. -/
theorem copy_of_new {u : Tree NodeId} (hu : u ∈ nodesAll ts') (hnew : u.label ∉ labelsAll ts) :
    u.isRule = true ∧ u.children ≠ [] := by
  have hin : u.label ∈ labelsAll ts' := by
    rw [← map_label_nodesAll]
    exact List.mem_map_of_mem hu
  have horigin : origin s.size u.label = none :=
    origin_of_le ((hb.known _ hin).resolve_left hnew)
  cases hcopy : (u.map (origin s.size)).isCopy none with
  | true =>
    simp only [isCopy, Bool.and_eq_true] at hcopy
    exact ⟨by simpa using hcopy.1.1, fun hnil => by simp [hnil, mapAll] at hcopy⟩
  | false =>
    have hafter : (none, u.face) ∈ faces none (mapAll (origin s.size) ts') :=
      mem_faces_mapAll.2 ⟨u, hu, hcopy, by rw [horigin]⟩
    obtain ⟨t, -, -, he⟩ := mem_faces_mapAll.1 ((sheds_pass hts).subset hafter)
    cases he

theorem conserves_of_pass : Conserves o s' ts ts' := by
  refine ⟨fun n l hl => ?_, fun t ht n q block hface => ?_, fun n hn => ?_, fun u hu hnew =>
    copy_of_new hb hts hu hnew⟩
  · obtain ⟨u, hu, hlabel, hface⟩ | ⟨hgo, -⟩ := kept_or_gone hb hts hl
    · rw [eq_leaf_of_face hface, hlabel] at hu
      exact hu
    · cases hgo
  · refine (kept_or_gone hb hts ht).imp_right fun ⟨hgo, hgone⟩ => ⟨?_, hgone⟩
    rwa [hface] at hgo
  · obtain ⟨t, ht, hrule, rfl⟩ := mem_rulesAll.1 hn
    refine (kept_or_gone hb hts ht).imp (fun ⟨u, hu, hlabel, hface⟩ => ?_) And.right
    refine mem_rulesAll.2 ⟨u, hu, ?_, hlabel⟩
    rw [← face_eq_rule_iff, hface, face_eq_rule_iff, hrule]

end Whole

/-- After a pass the tree is a document again, in which each node stands once, and nothing is lost
from it. -/
theorem flatten_conserves (o : Options) (h : s.IsDocument doc ts) (log : Array Event) (own : ρ) :
    ∃ st s' ts' log', flatten o doc ⟨s, log, own⟩ = .ok st ⟨s', log', own⟩ ∧
      s'.IsDocument doc ts' ∧ Conserves o s' ts ts' := by
  obtain ⟨s', ts', hrun, hb, hts⟩ := runs_flatten (ρ := ρ) o h
  obtain ⟨log', hok⟩ := hrun log own
  exact ⟨_, s', ts', log', hok, hb.part.isDocument, conserves_of_pass hb hts⟩

theorem flatten_escapeStore :
    ∃ st s' ts' log', flatten {} 0 ⟨escapeStore, #[], ()⟩ = .ok st ⟨s', log', ()⟩ ∧
      s'.IsDocument 0 ts' ∧ Conserves {} s' escapeTrees ts' :=
  flatten_conserves {} escapeStore_isDocument #[] ()

end Pass

end Unnest
