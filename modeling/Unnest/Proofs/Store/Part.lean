import Unnest.Proofs.Store.Cells

/-! Some consecutive children of a container, and what a step makes of them. A step on a few
children is a step on the whole list, and a step below a child is a step on the child; nothing else
in the store changes. -/

namespace Unnest

open Tree

theorem Tree.cell_branch (n : NodeId) (h : Head) (ts : List (Tree NodeId)) (p : NodeId) :
    (Tree.branch n h ts).cell p =
      ((Node.ofHead h).withLink (some p)).withChildren (ts.map label) := by
  cases h <;> rfl

namespace Tree

/-- Among marked children, those that wait to move on and those that stay. -/
def waiting (marked : List (Bool × Tree NodeId)) : List (Tree NodeId) :=
  (marked.filter Prod.fst).map Prod.snd

def staying (marked : List (Bool × Tree NodeId)) : List (Tree NodeId) :=
  (marked.filter fun m => !m.1).map Prod.snd

theorem labels_waiting_staying (marked : List (Bool × Tree NodeId)) :
    (labelsAll (waiting marked) ++ labelsAll (staying marked)).Perm
      (labelsAll (marked.map Prod.snd)) := by
  rw [← labelsAll_append, waiting, staying, ← List.map_append, labelsAll_eq, labelsAll_eq]
  exact ((List.filter_append_perm _ marked).map _).flatMap_right _

theorem filter_waiting {marked : List (Bool × Tree NodeId)}
    (h : ((marked.map Prod.snd).map label).Nodup) :
    ((marked.map Prod.snd).map label).filter (fun n => n ∉ (waiting marked).map label) =
      (staying marked).map label := by
  rw [staying, List.map_map, List.filter_map, List.map_map]
  congr 1
  apply List.filter_congr
  rintro ⟨b, u⟩ hu
  rw [List.map_map] at h
  cases b with
  | true =>
    have hmem : u.label ∈ (waiting marked).map label :=
      List.mem_map.2 ⟨u, List.mem_map.2 ⟨(true, u), by simp [hu], rfl⟩, rfl⟩
    simpa using hmem
  | false =>
    have hnot : u.label ∉ (waiting marked).map label := by
      intro hm
      obtain ⟨v, hv, he⟩ := List.mem_map.1 hm
      obtain ⟨⟨c, w⟩, hw, rfl⟩ := List.mem_map.1 hv
      obtain ⟨hw, hc⟩ := List.mem_filter.1 hw
      have := List.inj_on_of_nodup_map h hw hu he
      simp_all
    simpa using hnot

theorem waiting_subset (marked : List (Bool × Tree NodeId)) :
    ∀ u ∈ waiting marked, u ∈ marked.map Prod.snd := by
  intro u hu
  obtain ⟨m, hm, rfl⟩ := List.mem_map.1 hu
  exact List.mem_map_of_mem (List.mem_filter.1 hm).1

theorem staying_subset (marked : List (Bool × Tree NodeId)) :
    ∀ u ∈ staying marked, u ∈ marked.map Prod.snd := by
  intro u hu
  obtain ⟨m, hm, rfl⟩ := List.mem_map.1 hu
  exact List.mem_map_of_mem (List.mem_filter.1 hm).1

end Tree

namespace Store

/-- The container `p`, which is `y` but for its children, holds `ts` between `before` and `after`.
-/
structure Part (s : Store) (p : NodeId) (y : Node) (before after : List NodeId)
    (ts : List (Tree NodeId)) : Prop where
  isContainer : y.isContainer = true
  place : s.get? p = some (y.withChildren (before ++ ts.map label ++ after))
  holds : s.HoldsAll p ts
  once : (p :: (before ++ after) ++ labelsAll ts).Nodup
  old : ∀ n ∈ before ++ after, n < s.size

/-- Between `s` and `s'` the part `ts` has become `ts'`. What has left the tree holds nothing any
more. -/
structure Becomes (s s' : Store) (p : NodeId) (y : Node) (before after : List NodeId)
    (ts ts' : List (Tree NodeId)) : Prop where
  source : s.Part p y before after ts
  part : s'.Part p y before after ts'
  grown : s.size ≤ s'.size
  same : ∀ m < s.size, m ≠ p → m ∉ labelsAll ts → s'.get? m = s.get? m
  known : ∀ n ∈ labelsAll ts', n ∈ labelsAll ts ∨ s.size ≤ n
  gone : ∀ n ∈ labelsAll ts, n ∉ labelsAll ts' → s'.children n = []

variable {s s₁ s₂ : Store} {p : NodeId} {y : Node} {before after : List NodeId}
  {ts ts' us us' vs : List (Tree NodeId)}

theorem children_congr {n : NodeId} (h : s₁.get? n = s.get? n) : s₁.children n = s.children n := by
  unfold Store.children children?
  rw [h]

theorem IsDocument.part {doc : NodeId} (h : s.IsDocument doc ts) :
    s.Part doc (.root []) [] [] ts :=
  ⟨rfl, by rw [List.nil_append, List.append_nil]; exact h.top, h.below, h.once, by simp⟩

theorem Part.isDocument {doc : NodeId} (h : s.Part doc (.root []) [] [] ts) :
    s.IsDocument doc ts :=
  ⟨by have hp := h.place; rwa [List.nil_append, List.append_nil] at hp, h.holds, h.once⟩

theorem Part.ne_container (h : s.Part p y before after ts) {n : NodeId} (hn : n ∈ labelsAll ts) :
    n ≠ p := by
  rintro rfl
  exact (List.nodup_append.1 h.once).2.2 n List.mem_cons_self n hn rfl

theorem Part.not_mem (h : s.Part p y before after ts) {n : NodeId} (hn : n ∈ before ++ after) :
    n ∉ labelsAll ts :=
  fun hm => (List.nodup_append.1 h.once).2.2 n (List.mem_cons_of_mem _ hn) n hm rfl

theorem Part.nodup (h : s.Part p y before after ts) : (labelsAll ts).Nodup :=
  (List.nodup_append.1 h.once).2.1

theorem Part.lt_size (h : s.Part p y before after ts) : ∀ n ∈ labelsAll ts, n < s.size :=
  h.holds.lt_size

theorem Part.front (h : s.Part p y before after (ts ++ us)) :
    s.Part p y before (us.map label ++ after) ts := by
  refine ⟨h.isContainer, by simpa using h.place, ((holdsAll_append _ _).1 h.holds).1, ?_, ?_⟩
  · refine List.nodup_iff_count_le_one.2 fun m => ?_
    have honce := List.nodup_iff_count_le_one.1 h.once m
    have hus := (map_label_sublist us).count_le m
    simp only [labelsAll_append, List.count_append, List.count_cons] at honce ⊢
    omega
  · intro n hn
    rw [List.mem_append, List.mem_append] at hn
    rcases hn with hn | hn | hn
    · exact h.old n (List.mem_append_left _ hn)
    · exact h.lt_size n (by simp [labelsAll_append, (map_label_sublist us).subset hn])
    · exact h.old n (List.mem_append_right _ hn)

theorem Part.back (h : s.Part p y before after (ts ++ us)) :
    s.Part p y (before ++ ts.map label) after us := by
  refine ⟨h.isContainer, by simpa using h.place, ((holdsAll_append _ _).1 h.holds).2, ?_, ?_⟩
  · refine List.nodup_iff_count_le_one.2 fun m => ?_
    have honce := List.nodup_iff_count_le_one.1 h.once m
    have hts := (map_label_sublist ts).count_le m
    simp only [labelsAll_append, List.count_append, List.count_cons] at honce ⊢
    omega
  · intro n hn
    rw [List.mem_append, List.mem_append] at hn
    rcases hn with (hn | hn) | hn
    · exact h.old n (List.mem_append_left _ hn)
    · exact h.lt_size n (by simp [labelsAll_append, (map_label_sublist ts).subset hn])
    · exact h.old n (List.mem_append_right _ hn)

theorem Part.head {t : Tree NodeId} (h : s.Part p y before after (t :: ts)) :
    s.Part p y before (ts.map label ++ after) [t] := by
  rw [← List.singleton_append] at h
  exact h.front

theorem Part.tail {t : Tree NodeId} (h : s.Part p y before after (t :: ts)) :
    s.Part p y (before ++ [t.label]) after ts := by
  rw [← List.singleton_append] at h
  exact h.back

/-- The children of a child. -/
theorem Part.below {a : NodeId} {h : Head} (hp : s.Part p y before after [.branch a h us]) :
    s.Part a ((Node.ofHead h).withLink (some p)) [] [] us := by
  obtain ⟨hcell, -, hus⟩ := (holds_iff _).1 hp.holds.1
  rw [cell_branch] at hcell
  have honce := hp.nodup
  simp only [labelsAll, labels, List.append_nil] at honce
  exact ⟨by cases h <;> rfl, by rw [List.nil_append, List.append_nil]; exact hcell, hus, honce,
    by simp⟩

theorem Becomes.refl (h : s.Part p y before after ts) : Becomes s s p y before after ts ts :=
  ⟨h, h, Nat.le_refl _, fun _ _ _ _ => rfl, fun _ => .inl, fun _ hn hnot => absurd hn hnot⟩

theorem Becomes.trans (h : Becomes s s₁ p y before after ts us)
    (h' : Becomes s₁ s₂ p y before after us vs) : Becomes s s₂ p y before after ts vs := by
  refine ⟨h.source, h'.part, Nat.le_trans h.grown h'.grown, fun m hm hp hts => ?_, fun n hn => ?_,
    fun n hn hnot => ?_⟩
  · have hus : m ∉ labelsAll us := fun hu => (h.known m hu).elim hts (Nat.not_le.2 hm)
    rw [h'.same m (Nat.lt_of_lt_of_le hm h.grown) hp hus, h.same m hm hp hts]
  · rcases h'.known n hn with hn | hn
    · exact h.known n hn
    · exact .inr (Nat.le_trans h.grown hn)
  · by_cases hus : n ∈ labelsAll us
    · exact h'.gone n hus hnot
    · have hlt := Nat.lt_of_lt_of_le (h.source.lt_size n hn) h.grown
      rw [children_congr (h'.same n hlt (h.source.ne_container hn) hus)]
      exact h.gone n hn hus

/-- A step on some of the children is a step on all of them. -/
theorem Becomes.among (fs ls : List (Tree NodeId))
    (hp : s.Part p y before after (fs ++ ts ++ ls))
    (h : Becomes s s₁ p y (before ++ fs.map label) (ls.map label ++ after) ts ts') :
    Becomes s s₁ p y before after (fs ++ ts ++ ls) (fs ++ ts' ++ ls) := by
  have hlt := hp.lt_size
  have honce := hp.nodup
  have hnew := h.part.once
  have hall := hp.once
  simp only [labelsAll_append, List.nodup_append, List.mem_append] at hlt honce
  simp only [labelsAll_append, List.nodup_append, List.nodup_cons, List.mem_append, List.mem_cons]
    at hnew hall
  have hother : ∀ {us : List (Tree NodeId)}, s.HoldsAll p us →
      (∀ n ∈ labelsAll us, n ∈ labelsAll fs ∨ n ∈ labelsAll ls) → s₁.HoldsAll p us :=
    fun hus hin => hus.congr fun m hm => h.same m (hus.lt_size m hm) (by grind) (by grind)
  obtain ⟨hfs, hls⟩ := (holdsAll_append _ _).1 hp.holds
  have hfs := ((holdsAll_append _ _).1 hfs).1
  refine ⟨hp, ⟨hp.isContainer, by simpa using h.part.place, ?_, ?_, ?_⟩, h.grown, ?_, ?_, ?_⟩
  · exact (holdsAll_append _ _).2 ⟨(holdsAll_append _ _).2
      ⟨hother hfs fun _ => .inl, h.part.holds⟩, hother hls fun _ => .inr⟩
  · have hknown := h.known
    simp only [labelsAll_append, List.nodup_append, List.nodup_cons, List.mem_append, List.mem_cons]
    grind
  · exact fun n hn => Nat.lt_of_lt_of_le (hp.old n hn) h.grown
  · intro m hm hmp hnot
    exact h.same m hm hmp fun hts => hnot (by simp [labelsAll_append, hts])
  · intro n hn
    simp only [labelsAll_append, List.mem_append] at hn ⊢
    have hknown := h.known n
    grind
  · intro n hn hnot
    simp only [labelsAll_append, List.mem_append] at hn hnot
    exact h.gone n (by grind) (by grind)

/-- A step on the first child. -/
theorem Becomes.head {t : Tree NodeId} (hp : s.Part p y before after (t :: ts))
    (h : Becomes s s₁ p y before (ts.map label ++ after) [t] us) :
    Becomes s s₁ p y before after (t :: ts) (us ++ ts) :=
  Becomes.among [] ts hp (by simpa using h)

/-- A step on the children behind the first. -/
theorem Becomes.tail {t : Tree NodeId} (hp : s.Part p y before after (t :: ts))
    (h : Becomes s s₁ p y (before ++ [t.label]) after ts ts') :
    Becomes s s₁ p y before after (t :: ts) (t :: ts') := by
  have hall : Becomes s s₁ p y before after ([t] ++ ts ++ []) ([t] ++ ts' ++ []) :=
    Becomes.among [t] [] (by simpa using hp) (by simpa using h)
  simpa using hall

/-- A step on the children of a child is a step on the child. -/
theorem Becomes.below {a : NodeId} {hd : Head} (hp : s.Part p y before after [.branch a hd us])
    (h : Becomes s s₁ a ((Node.ofHead hd).withLink (some p)) [] [] us us') :
    Becomes s s₁ p y before after [.branch a hd us] [.branch a hd us'] := by
  obtain ⟨-, hroot, -⟩ := (holds_iff _).1 hp.holds.1
  have honce := hp.once
  have hlt := hp.lt_size
  have hnew := h.part.once
  have hold := hp.old
  have hknown := h.known
  have hplt : p < s.size := lt_size_of_get? hp.place
  simp only [labelsAll, labels, List.append_nil, List.nodup_append, List.nodup_cons,
    List.mem_append, List.mem_cons] at honce hlt hnew hold
  refine ⟨hp, ⟨hp.isContainer, ?_, ⟨?_, trivial⟩, ?_, ?_⟩, h.grown, ?_, ?_, ?_⟩
  · rw [h.same p hplt (by grind) (by grind), hp.place]
    rfl
  · have hcell := h.part.place
    rw [List.nil_append, List.append_nil, ← cell_branch] at hcell
    exact (holds_iff _).2 ⟨hcell, by cases hd <;> exact hroot, h.part.holds⟩
  · simp only [labelsAll, labels, List.append_nil, List.nodup_append, List.nodup_cons,
      List.mem_append, List.mem_cons]
    grind
  · exact fun n hn => Nat.lt_of_lt_of_le (hp.old n hn) h.grown
  · intro m hm hmp hnot
    simp only [labelsAll, labels, List.append_nil, List.mem_cons, not_or] at hnot
    exact h.same m hm hnot.1 hnot.2
  · intro n hn
    simp only [labelsAll, labels, List.append_nil, List.mem_cons] at hn ⊢
    grind
  · intro n hn hnot
    simp only [labelsAll, labels, List.append_nil, List.mem_cons, not_or] at hn hnot
    exact h.gone n (by grind) hnot.2

theorem children?_cell_of_nil {t : Tree NodeId} (ht : t.children = []) (p : NodeId) :
    ((t.cell p).children?).getD [] = [] := by
  rcases t with ⟨n, l⟩ | ⟨n, a, b⟩ | ⟨n, _ | s | ⟨a, b⟩, ts⟩ <;>
    simp_all [cell, Node.children?, Tree.children]

/-- A child that has lost all of its own is given up. -/
theorem Part.drop {t : Tree NodeId} (h : s.Part p y before after [t]) (hleaf : t.isLeaf = false)
    (hnil : t.children = []) : Becomes s (s.detach t.label).2 p y before after [t] [] := by
  obtain ⟨htcell, hroot, -⟩ := (holds_iff t).1 h.holds.1
  have hlabels : t.labels = [t.label] := by rw [labels_eq, hnil]; rfl
  have htp : t.label ≠ p := h.ne_container (by simp [labelsAll, hlabels])
  have hnot : t.label ∉ before := fun hm =>
    h.not_mem (List.mem_append_left _ hm) (by simp [labelsAll, hlabels])
  obtain ⟨hsize, hn, hq, hsame⟩ := remove_cells h.place h.isContainer (by simp) htcell htp
  rw [← detach_eq_remove htcell (link_cell hroot hleaf _) h.place] at hsize hn hq hsame
  refine ⟨h, ⟨h.isContainer, ?_, trivial, ?_, ?_⟩, Nat.le_of_eq hsize.symm, ?_, ?_, ?_⟩
  · rw [hq, List.append_assoc, List.erase_append_right _ hnot]
    simp
  · exact h.once.sublist (by simp [labelsAll])
  · exact fun n hn => by rw [hsize]; exact h.old n hn
  · intro m _ hmp hmt
    exact hsame m (by simpa [labelsAll, hlabels, hmp] using hmt)
  · simp [labelsAll]
  · intro m hm _
    obtain rfl : m = t.label := by simpa [labelsAll, hlabels] using hm
    simpa [Store.children, children?, hn] using children?_cell_of_nil hnil p

theorem editSelectors_of_not_rule {n : NodeId} (h : s.isRule n = false)
    (f : List String → List String) : s.editSelectors n f = s := by
  have hcells : (s.editSelectors n f).cells = s.cells := by
    apply Array.ext_getElem?
    intro i
    rw [Store.editSelectors, modify, Array.getElem?_modify]
    split
    · next he =>
      subst he
      rcases hc : s.cells[n]? with _ | _ | x
      · rfl
      · rfl
      · rw [Store.isRule, get?, hc] at h
        cases x <;> simp_all [Node.editSelectors, Node.isRule]
    · rfl
  cases s
  exact congrArg Store.mk hcells

/-- A rule gets other selectors. -/
theorem Part.editSelectors {n : NodeId} {selectors : List String}
    (h : s.Part p y before after [.branch n (.rule selectors) us])
    (f : List String → List String) :
    Becomes s (s.editSelectors n f) p y before after [.branch n (.rule selectors) us]
      [.branch n (.rule (f selectors)) us] := by
  have hcells : ∀ m, m ≠ n → (s.editSelectors n f).get? m = s.get? m := by
    intro m hm
    rw [Store.editSelectors, get?_modify, if_neg hm.symm]
  have hcell : (s.editSelectors n f).get? n =
      some (.rule (f selectors) (us.map label) (some p)) := by
    rw [Store.editSelectors, get?_modify, if_pos rfl, h.holds.1.1]
    rfl
  have hnp : n ≠ p := h.ne_container (by simp [labelsAll, labels])
  have hn : n ∉ labelsAll us := by
    have honce := h.nodup
    simp only [labelsAll, labels, List.append_nil, List.nodup_cons] at honce
    exact honce.1
  have hsize : (s.editSelectors n f).size = s.size := by simp [Store.editSelectors]
  refine ⟨h, ⟨h.isContainer, ?_, ⟨⟨hcell, ?_⟩, trivial⟩, h.once, ?_⟩, Nat.le_of_eq hsize.symm,
    fun m _ _ hm => hcells m fun he => hm (by simp [labelsAll, labels, he]), fun _ => .inl,
    fun _ hm hnot => absurd hm hnot⟩
  · rw [hcells p hnp.symm, h.place]
    rfl
  · exact h.holds.1.2.congr fun m hm => hcells m fun he => hn (he ▸ hm)
  · exact fun m hm => by rw [hsize]; exact h.old m hm

end Store

end Unnest
