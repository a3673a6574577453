import Unnest.Proofs.Store.Part
import Unnest.Proofs.Tree.Nodes

/-! A tree that is planted grows from new nodes, and the nodes from before stay as they are. A root
cannot stand in a container, so the trees of a document have none. -/

namespace Unnest.Store

open Tree

variable {α : Type} {s s' : Store} {p : NodeId} {y : Node} {cs : List NodeId}

/-- Between `s` and `s'` the tree `t` has grown, and stands in no container yet. -/
structure Planted (s s' : Store) (t : Tree NodeId) : Prop where
  top : s'.get? t.label = some ((t.cell t.label).withLink none)
  isRoot : t.isRoot = false
  below : s'.HoldsAll t.label t.children
  once : t.labels.Nodup
  new : ∀ n ∈ t.labels, s.size ≤ n
  grown : s.size ≤ s'.size
  same : ∀ m < s.size, s'.get? m = s.get? m

/-- The tree goes to the end of a child list. -/
theorem Planted.becomes {t : Tree NodeId} (h : Planted s s' t) (hp : s.Part p y cs [] []) :
    Becomes s (s'.adopt p t.label (· ++ [t.label])) p y cs [] [] [t] := by
  have hplt : p < s.size := lt_size_of_get? hp.place
  have hne : ∀ n ∈ t.labels, n ≠ p := fun n hn =>
    Nat.ne_of_gt (Nat.lt_of_lt_of_le hplt (h.new n hn))
  have hplace : s'.get? p = some (y.withChildren cs) := by
    rw [h.same p hplt, hp.place]
    simp
  obtain ⟨hsize, htop, hcontainer, hsame⟩ := adopt_cells h.top (by simp) hplace
    (hne _ t.label_mem_labels) (· ++ [t.label])
  have honce := h.once
  have hnew := h.new
  rw [labels_eq, List.nodup_cons] at honce
  rw [labels_eq] at hnew hne
  refine ⟨hp, ⟨hp.isContainer, by simpa using hcontainer, ⟨?_, trivial⟩, ?_, fun n hn => ?_⟩, ?_,
    fun m hm hmp _ => ?_, fun n hn => .inr (h.new n (by simpa [labelsAll] using hn)),
    fun n hn => absurd hn List.not_mem_nil⟩
  · refine (holds_iff t).2 ⟨?_, h.isRoot, h.below.congr fun m hm => hsame m ?_⟩
    · rw [htop, Node.withLink_withLink, withLink_cell h.isRoot]
    · have hmt : m ≠ t.label := fun he => honce.1 (he ▸ hm)
      simp [hmt, hne m (List.mem_cons_of_mem _ hm)]
  · have hold := hp.once
    simp only [labelsAll, List.append_nil] at hold ⊢
    refine List.nodup_append.2 ⟨hold, h.once, fun n hn m hm he => ?_⟩
    subst he
    rcases List.mem_cons.1 hn with rfl | hn
    · exact Nat.not_le.2 hplt (h.new _ hm)
    · exact Nat.not_le.2 (hp.old n (by simpa using hn)) (h.new n hm)
  · rw [hsize]
    exact Nat.lt_of_lt_of_le (hp.old n hn) h.grown
  · rw [hsize]
    exact h.grown
  · have hmt : m ≠ t.label := Nat.ne_of_lt (Nat.lt_of_lt_of_le hm (hnew _ List.mem_cons_self))
    rw [hsame m (by simp [hmp, hmt]), h.same m hm]

/-- A tree without branches. -/
theorem planted_alloc {t : Tree NodeId} (hlabel : t.label = s.size) (hroot : t.isRoot = false)
    (hnil : t.children = []) :
    Planted s (s.alloc ((t.cell t.label).withLink none)).2 t := by
  have hlabels : t.labels = [s.size] := by
    rw [labels_eq, hlabel, hnil]
    rfl
  refine ⟨?_, hroot, by rw [hnil]; trivial, by simp [hlabels], by simp [hlabels], by simp,
    fun m hm => ?_⟩
  · rw [get?_alloc, if_pos hlabel]
  · rw [get?_alloc, if_neg (Nat.ne_of_lt hm)]

theorem part_alloc (s : Store) (h : Head) :
    (s.alloc (.ofHead h)).2.Part s.size (.ofHead h) [] [] [] := by
  refine ⟨by cases h <;> rfl, ?_, trivial, by simp [labelsAll], by simp⟩
  rw [get?_alloc, if_pos rfl]
  cases h <;> rfl

theorem planted_branch {h : Head} {us : List (Tree NodeId)} (hroot : h ≠ .root)
    (hb : Becomes (s.alloc (.ofHead h)).2 s' s.size (.ofHead h) [] [] [] us) :
    Planted s s' (.branch s.size h us) := by
  have hplace := hb.part.place
  have honce := hb.part.once
  have hgrown : s.size < s'.size := by
    have hle := hb.grown
    rwa [size_alloc] at hle
  simp only [List.nil_append, List.append_nil] at hplace honce
  refine ⟨?_, ?_, hb.part.holds, honce, fun n hn => ?_, Nat.le_of_lt hgrown, fun m hm => ?_⟩
  · rw [label, hplace]
    cases h with
    | root => exact absurd rfl hroot
    | rule sel => rfl
    | atRule n q => rfl
  · cases h with
    | root => exact absurd rfl hroot
    | rule sel => rfl
    | atRule n q => rfl
  · rcases List.mem_cons.1 hn with rfl | hn
    · exact Nat.le_refl _
    · have hknown := (hb.known n hn).resolve_left List.not_mem_nil
      rw [size_alloc] at hknown
      exact Nat.le_of_succ_le hknown
  · rw [hb.same m (by simpa using Nat.lt_succ_of_lt hm) (Nat.ne_of_lt hm) List.not_mem_nil,
      get?_alloc, if_neg (Nat.ne_of_lt hm)]

mutual

theorem planted_plant : (t : Tree α) → (∀ u ∈ t.nodes, u.isRoot = false) → (s : Store) →
    Planted s (s.plant t).2 ((s.plant t).1.map Prod.snd)
  | .leaf a l, _, s => planted_alloc (t := .leaf s.size l) rfl rfl rfl
  | .statement a n q, _, s => planted_alloc (t := .statement s.size n q) rfl rfl rfl
  | .branch a h ts, ht, s => by
    have hroot : h ≠ .root := by
      rintro rfl
      cases ht _ List.mem_cons_self
    exact planted_branch hroot
      (becomes_plantAll ts (fun u hu => ht u (List.mem_cons_of_mem _ hu)) (part_alloc s h))

theorem becomes_plantAll : (ts : List (Tree α)) → (∀ u ∈ nodesAll ts, u.isRoot = false) →
    {s : Store} → {p : NodeId} → {y : Node} → {cs : List NodeId} → s.Part p y cs [] [] →
    Becomes s (s.plantAll p ts).2 p y cs [] [] (mapAll Prod.snd (s.plantAll p ts).1)
  | [], _, _, _, _, _, h => .refl h
  | t :: ts, hts, s, p, y, cs, h => by
    obtain ⟨ht, hts⟩ := List.forall_mem_append.1 hts
    have hfirst := (planted_plant t ht s).becomes h
    have hrest := Becomes.tail hfirst.part (becomes_plantAll ts hts (Part.tail hfirst.part))
    have hlabel : ((s.plant t).1.map Prod.snd).label = (s.plant t).1.label.2 := label_map ..
    rw [hlabel] at hfirst hrest
    exact hfirst.trans hrest

end

mutual

theorem map_fst_plant : (t : Tree α) → (s : Store) → (s.plant t).1.map Prod.fst = t
  | .leaf _ _, _ => rfl
  | .statement _ _ _, _ => rfl
  | .branch a h ts, _ => congrArg (Tree.branch a h) (mapAll_fst_plantAll ts _ _)

theorem mapAll_fst_plantAll : (ts : List (Tree α)) → (s : Store) → (p : NodeId) →
    mapAll Prod.fst (s.plantAll p ts).1 = ts
  | [], _, _ => rfl
  | t :: ts, s, p => by rw [plantAll, mapAll, map_fst_plant t, mapAll_fst_plantAll ts]

end

/-- Planting makes a document of the trees: the nodes of `us` say the same as those of `ts`. -/
theorem ofTrees_isDocument {ts : List (Tree α)} (h : ∀ u ∈ nodesAll ts, u.isRoot = false) :
    ∃ us : List (Tree (α × NodeId)), mapAll Prod.fst us = ts ∧
      (ofTrees ts).2.IsDocument (ofTrees ts).1 (mapAll Prod.snd us) :=
  ⟨_, mapAll_fst_plantAll ts _ _, (becomes_plantAll ts h (part_alloc empty .root)).part.isDocument⟩

end Unnest.Store
