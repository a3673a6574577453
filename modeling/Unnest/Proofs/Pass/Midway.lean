import Unnest.Proofs.Pass.Runs
import Unnest.Proofs.Store.Part
import Unnest.Proofs.Tree.Flat

/-! A rule half taken apart. What has left it stands behind it in its container, in order; what is
still in it is partly handled (`held`) and partly to come (`rest`). Each move of the pass leads from
one such state to another. The ledger of a state says that no node is lost and none stands twice,
and that nothing else in the store has changed. -/

namespace Unnest.Pass

open Edit Store Tree

variable {ρ : Type}

/-- A rule about to be taken apart: its place in its container, and what it holds. -/
structure Site where
  base : Store
  rule : NodeId
  selectors : List String
  container : NodeId
  /-- The container without its children. -/
  cell : Node
  before : List NodeId
  after : List NodeId
  children : List (Tree NodeId)

namespace Site

/-- The nodes around the rule's children that stay where they are. -/
def fixed (x : Site) : List NodeId := x.container :: x.rule :: (x.before ++ x.after)

/-- The rule without its children. -/
def ruleCell (x : Site) : Node := .rule x.selectors [] (some x.container)

/-- What the next lifted node follows when `out` has left the rule. -/
def anchor (x : Site) (out : List (Tree NodeId)) : NodeId := (out.map label).getLastD x.rule

end Site

/-- The nodes `ns` are those of the children of the rule that are in the tree, with copies of rules.
-/
structure Ledger (x : Site) (s : Store) (ns : List NodeId) : Prop where
  start : (x.fixed ++ labelsAll x.children).Nodup
  old : ∀ n ∈ x.fixed ++ labelsAll x.children, n < x.base.size
  once : ns.Nodup
  alive : ∀ n ∈ ns, n < s.size
  known : ∀ n ∈ ns, n ∈ labelsAll x.children ∨ x.base.size ≤ n
  grown : x.base.size ≤ s.size
  same : ∀ n < x.base.size, n ≠ x.container → n ≠ x.rule → n ∉ labelsAll x.children →
    s.get? n = x.base.get? n
  gone : ∀ n ∈ labelsAll x.children, n ∉ ns → s.children n = []

structure Midway (x : Site) (s : Store) (out held rest : List (Tree NodeId)) : Prop where
  ledger : Ledger x s (labelsAll (out ++ held ++ rest))
  isContainer : x.cell.isContainer = true
  atContainer : s.get? x.container =
    some (x.cell.withChildren (x.before ++ x.rule :: out.map label ++ x.after))
  atRule : s.get? x.rule = some (x.ruleCell.withChildren ((held ++ rest).map label))
  gone : s.HoldsAll x.container out
  linked : ∀ t ∈ out, t.isLeaf = false
  left : s.HoldsAll x.rule (held ++ rest)

variable {x : Site} {s s' : Store} {ns ns' : List NodeId} {out held rest : List (Tree NodeId)}
  {t : Tree NodeId}

theorem Ledger.not_mem_fixed (h : Ledger x s ns) {n : NodeId} (hn : n ∈ ns) : n ∉ x.fixed := by
  intro hf
  rcases h.known n hn with hc | hb
  · exact (List.nodup_append.1 h.start).2.2 n hf n hc rfl
  · exact absurd (h.old n (List.mem_append_left _ hf)) (Nat.not_lt.2 hb)

theorem Ledger.next (h : Ledger x s ns) (hsize : s.size ≤ s'.size)
    (hsame : ∀ m < s.size, m ≠ x.container → m ≠ x.rule → m ∉ ns → s'.get? m = s.get? m)
    (honce : ns'.Nodup) (halive : ∀ n ∈ ns', n < s'.size)
    (hknown : ∀ n ∈ ns', n ∈ ns ∨ s.size ≤ n)
    (hgone : ∀ n ∈ ns, n ∉ ns' → s'.children n = []) : Ledger x s' ns' := by
  have hfixed : ∀ n ∈ labelsAll x.children, n ≠ x.container ∧ n ≠ x.rule := by
    intro n hn
    have hdisj := (List.nodup_append.1 h.start).2.2
    exact ⟨fun he => hdisj x.container (by simp [Site.fixed]) n hn he.symm,
      fun he => hdisj x.rule (by simp [Site.fixed]) n hn he.symm⟩
  refine ⟨h.start, h.old, honce, halive, fun n hn => ?_, Nat.le_trans h.grown hsize, ?_, ?_⟩
  · rcases hknown n hn with hn | hn
    · exact h.known n hn
    · exact .inr (Nat.le_trans h.grown hn)
  · intro n hlt hc hr hn
    have hnot : n ∉ ns := fun hm => (h.known n hm).elim hn (Nat.not_le.2 hlt)
    rw [hsame n (Nat.lt_of_lt_of_le hlt h.grown) hc hr hnot, h.same n hlt hc hr hn]
  · intro n hn hnot
    by_cases hm : n ∈ ns
    · exact hgone n hm hnot
    · have hlt : n < s.size :=
        Nat.lt_of_lt_of_le (h.old n (List.mem_append_right _ hn)) h.grown
      rw [children_congr (hsame n hlt (hfixed n hn).1 (hfixed n hn).2 hm)]
      exact h.gone n hn hm

theorem getLastD_concat_front (n : NodeId) (ns : List NodeId) :
    ∃ front, n :: ns = front ++ [ns.getLastD n] := by
  induction ns generalizing n with
  | nil => exact ⟨[], rfl⟩
  | cons m ns ih =>
    obtain ⟨front, hf⟩ := ih m
    exact ⟨n :: front, by rw [List.getLastD_cons, List.cons_append, ← hf]⟩

theorem Site.anchor_eq (x : Site) (out : List (Tree NodeId)) :
    x.anchor out = x.rule ∨ x.anchor out ∈ labelsAll out := by
  rcases List.eq_nil_or_concat' out with rfl | ⟨init, t, rfl⟩
  · exact .inl rfl
  · have ht := label_mem_labelsAll (show t ∈ init ++ [t] by simp)
    exact .inr (by simpa [Site.anchor] using ht)

theorem Site.anchor_concat (x : Site) (out : List (Tree NodeId)) (t : Tree NodeId) :
    x.anchor (out ++ [t]) = t.label := by
  simp [Site.anchor]

theorem Ledger.container_ne_rule (h : Ledger x s ns) : x.container ≠ x.rule := by
  have hf := (List.nodup_append.1 h.start).1
  simp only [Site.fixed, List.nodup_cons, List.mem_cons, not_or] at hf
  exact hf.1.1

theorem Ledger.ne_container (h : Ledger x s ns) {n : NodeId} (hn : n ∈ ns) : n ≠ x.container :=
  fun he => h.not_mem_fixed hn (by simp [Site.fixed, he])

theorem Ledger.ne_rule (h : Ledger x s ns) {n : NodeId} (hn : n ∈ ns) : n ≠ x.rule :=
  fun he => h.not_mem_fixed hn (by simp [Site.fixed, he])

theorem mem_behind (out : List (Tree NodeId)) {n : NodeId} (hn : n ∈ labelsAll (held ++ rest)) :
    n ∈ labelsAll (out ++ held ++ rest) := by
  rw [List.append_assoc, labelsAll_append]
  exact List.mem_append_right _ hn

theorem Midway.nodup_children (h : Midway x s out held rest) :
    (labelsAll (held ++ rest)).Nodup := by
  have honce := h.ledger.once
  rw [List.append_assoc, labelsAll_append] at honce
  exact (List.nodup_append.1 honce).2.1

theorem Midway.rule_not_mem (h : Midway x s out held rest) :
    x.rule ∉ labelsAll (held ++ rest) := by
  intro hm
  exact h.ledger.ne_rule (mem_behind out hm) rfl

/-- What is still in the rule has not left it. -/
theorem Midway.not_mem_out (h : Midway x s out held rest) {n : NodeId}
    (hn : n ∈ labelsAll (held ++ rest)) : n ∉ labelsAll out := by
  intro ho
  have honce := h.ledger.once
  rw [List.append_assoc, labelsAll_append] at honce
  exact (List.nodup_append.1 honce).2.2 n ho n hn rfl

theorem Midway.ne_anchor (h : Midway x s out held rest) {n : NodeId}
    (hn : n ∈ labelsAll (held ++ rest)) : n ≠ x.anchor out := by
  intro he
  rcases x.anchor_eq out with ha | ha
  · exact h.ledger.ne_rule (mem_behind out hn) (he.trans ha)
  · exact h.not_mem_out hn (he ▸ ha)

/-- The place of the anchor among the children of the container. -/
theorem Midway.anchor_place (h : Midway x s out held rest) :
    ∃ front, x.before ++ x.rule :: out.map label = front ++ [x.anchor out] ∧
      x.anchor out ∉ front := by
  obtain ⟨front, hf⟩ := getLastD_concat_front x.rule (out.map label)
  refine ⟨x.before ++ front, by rw [Site.anchor, hf]; simp, ?_⟩
  have hnames : ∀ n ∈ labelsAll out, n ∉ x.fixed := fun n hn =>
    h.ledger.not_mem_fixed (by simp [labelsAll_append, hn])
  have hout : (x.rule :: out.map label).Nodup := by
    have honce := h.ledger.once
    rw [labelsAll_append, labelsAll_append] at honce
    refine List.nodup_cons.2 ⟨fun hm => ?_,
      (List.nodup_append.1 (List.nodup_append.1 honce).1).1.sublist (map_label_sublist out)⟩
    exact hnames _ ((map_label_sublist out).subset hm) (by simp [Site.fixed])
  have hfixed := (List.nodup_append.1 h.ledger.start).1
  simp only [Site.fixed, List.nodup_cons, List.mem_append, not_or] at hfixed
  intro hm
  rcases List.mem_append.1 hm with hm | hm
  · rcases x.anchor_eq out with he | ho
    · exact hfixed.2.1.1 (he ▸ hm)
    · exact hnames _ ho (by simp [Site.fixed, hm])
  · rw [hf] at hout
    exact (List.nodup_append.1 hout).2.2 _ hm _ (by simp [Site.anchor]) rfl

theorem Midway.anchor_cell (h : Midway x s out held rest) :
    ∃ z, s.get? (x.anchor out) = some z ∧ z.link = some x.container := by
  rcases List.eq_nil_or_concat' out with rfl | ⟨init, t, rfl⟩
  · exact ⟨_, h.atRule, rfl⟩
  · have ht : t ∈ init ++ [t] := by simp
    obtain ⟨hcell, hroot, -⟩ := (holds_iff t).1 ((holdsAll_iff _).1 h.gone t ht)
    exact ⟨t.cell x.container, by simpa [Site.anchor] using hcell,
      link_cell hroot (h.linked t ht) _⟩

theorem Midway.part (h : Midway x s out held rest) :
    s.Part x.rule x.ruleCell [] [] (held ++ rest) := by
  refine ⟨rfl, by rw [List.nil_append, List.append_nil]; exact h.atRule, h.left, ?_, by simp⟩
  have honce := h.ledger.once
  have hrule := h.ledger.ne_rule (n := x.rule)
  simp only [labelsAll_append, List.nodup_append, List.nodup_cons, List.mem_append, List.nil_append,
    List.mem_singleton] at honce hrule ⊢
  grind

/-- What the rule still holds changes in place. -/
theorem Midway.change {held' rest' : List (Tree NodeId)} (h : Midway x s out held rest)
    (hb : Becomes s s' x.rule x.ruleCell [] [] (held ++ rest) (held' ++ rest')) :
    Midway x s' out held' rest' := by
  have honce := h.ledger.once
  have halive := h.ledger.alive
  have hnew := hb.part.nodup
  have hlt := hb.part.lt_size
  have hknown := hb.known
  have hgone := hb.gone
  have hcr := h.ledger.container_ne_rule
  simp only [labelsAll_append, List.nodup_append, List.mem_append]
    at honce halive hnew hlt hknown hgone
  have hsame : ∀ m < s.size, m ≠ x.rule → m ∉ labelsAll held → m ∉ labelsAll rest →
      s'.get? m = s.get? m := fun m hm hr hh hs =>
    hb.same m hm hr (by simp [labelsAll_append, hh, hs])
  have hout : s'.HoldsAll x.container out := h.gone.congr fun m hm =>
    hsame m (halive m (.inl (.inl hm))) (h.ledger.ne_rule (by simp [labelsAll_append, hm]))
      (by grind) (by grind)
  refine ⟨h.ledger.next hb.grown (fun m hm _ hr hn => ?_) ?_ ?_ ?_ ?_, h.isContainer, ?_, ?_, hout,
    h.linked, hb.part.holds⟩
  · simp only [labelsAll_append, List.mem_append, not_or] at hn
    exact hsame m hm hr hn.1.2 hn.2
  · simp only [labelsAll_append, List.nodup_append, List.mem_append]
    grind
  · have hgrown := hb.grown
    simp only [labelsAll_append, List.mem_append]
    grind
  · simp only [labelsAll_append, List.mem_append]
    grind
  · simp only [labelsAll_append, List.mem_append]
    grind
  · have hc : ∀ m, m = x.container → m ∉ labelsAll held ∧ m ∉ labelsAll rest := fun m hm =>
      ⟨fun hh => h.ledger.ne_container (by simp [labelsAll_append, hh]) hm,
        fun hh => h.ledger.ne_container (by simp [labelsAll_append, hh]) hm⟩
    rw [hsame _ (lt_size_of_get? h.atContainer) hcr (hc _ rfl).1 (hc _ rfl).2, h.atContainer]
  · simpa using hb.part.place

/-- The first of the children to come. -/
theorem Midway.next (h : Midway x s out held (t :: rest)) :
    s.Part x.rule x.ruleCell (held.map label) (rest.map label) [t] := by
  simpa using (Part.back h.part).head

/-- The first of the children to come changes in place, or goes. -/
theorem Midway.inside {ts' : List (Tree NodeId)} (h : Midway x s out held (t :: rest))
    (hb : Becomes s s' x.rule x.ruleCell (held.map label) (rest.map label) [t] ts') :
    Midway x s' out held (ts' ++ rest) := by
  have hp := h.part
  rw [← List.singleton_append, ← List.append_assoc] at hp
  have hall := Becomes.among held rest hp (by simpa using hb)
  exact h.change (by simpa using hall)

theorem Midway.container_eq (h : Midway x s out held rest) {front : List NodeId}
    (hplace : x.before ++ x.rule :: out.map label = front ++ [x.anchor out]) :
    s.get? x.container = some (x.cell.withChildren (front ++ x.anchor out :: x.after)) := by
  rw [h.atContainer, hplace, List.append_assoc, List.singleton_append]

/-- A tree has gone behind the anchor. The nodes `changed` are what the move has changed but for the
container and the rule. -/
theorem Midway.behind {held' rest' : List (Tree NodeId)} (h : Midway x s out held rest)
    (changed : List NodeId) {front : List NodeId}
    (hplace : x.before ++ x.rule :: out.map label = front ++ [x.anchor out])
    (hsize : s.size ≤ s'.size) (hsame : SameBut (x.container :: x.rule :: changed) s s')
    (hchanged : ∀ n ∈ changed, n ≠ x.rule →
      (n ∈ labelsAll (out ++ held ++ rest) ∨ s.size ≤ n) ∧ n ∉ labelsAll out)
    (ht : s'.Holds x.container t) (hleaf : t.isLeaf = false)
    (hp : s'.get? x.container =
      some (x.cell.withChildren (front ++ x.anchor out :: t.label :: x.after)))
    (hr : s'.get? x.rule = some (x.ruleCell.withChildren ((held' ++ rest').map label)))
    (hleft : s'.HoldsAll x.rule (held' ++ rest'))
    (honce : (labelsAll (out ++ [t] ++ held' ++ rest')).Nodup)
    (hknown : ∀ n ∈ labelsAll (out ++ [t] ++ held' ++ rest'),
      n ∈ labelsAll (out ++ held ++ rest) ∨ s.size ≤ n)
    (hgone : ∀ n ∈ labelsAll (out ++ held ++ rest),
      n ∈ labelsAll (out ++ [t] ++ held' ++ rest')) :
    Midway x s' (out ++ [t]) held' rest' := by
  have hout : s'.HoldsAll x.container out := h.gone.congr fun m hm => hsame m (by
    have hm' : m ∈ labelsAll (out ++ held ++ rest) := by simp [labelsAll_append, hm]
    simp only [List.mem_cons, not_or]
    exact ⟨h.ledger.ne_container hm', h.ledger.ne_rule hm',
      fun hc => (hchanged m hc (h.ledger.ne_rule hm')).2 hm⟩)
  refine ⟨h.ledger.next hsize (fun m hlt hc hr hm => hsame m ?_) honce ?_ hknown ?_, h.isContainer,
    ?_, hr, (holdsAll_append _ _).2 ⟨hout, ht, trivial⟩,
    List.forall_mem_append.2 ⟨h.linked, by simpa using hleaf⟩, hleft⟩
  · simp only [List.mem_cons, not_or]
    exact ⟨hc, hr, fun hmc => (hchanged m hmc hr).1.elim hm (Nat.not_le.2 hlt)⟩
  · intro n hn
    simp only [labelsAll_append, labelsAll, List.append_nil, List.mem_append] at hn
    rcases hn with ((hn | hn) | hn) | hn
    · exact hout.lt_size n hn
    · exact ht.lt_size n hn
    · exact hleft.lt_size n (by simp [labelsAll_append, hn])
    · exact hleft.lt_size n (by simp [labelsAll_append, hn])
  · exact fun n hn hnot => absurd (hgone n hn) hnot
  · rw [hp, List.map_append, ← List.cons_append, ← List.append_assoc, hplace]
    simp

/-- The first of the children to come leaves the rule. -/
theorem Midway.lift (h : Midway x s out held (t :: rest)) (hleaf : t.isLeaf = false) :
    ∃ s', Runs (lift (x.anchor out) t.label : Edit ρ NodeId) s s' (x.anchor (out ++ [t])) ∧
      Midway x s' (out ++ [t]) held rest := by
  obtain ⟨hheld, hto, hrest⟩ := (holdsAll_append _ _).1 h.left
  obtain ⟨htcell, hroot, -⟩ := (holds_iff t).1 hto
  obtain ⟨front, hplace, hfront⟩ := h.anchor_place
  obtain ⟨z, hz, hlink⟩ := h.anchor_cell
  have hin : t.label ∈ labelsAll (held ++ (t :: rest)) := label_mem_labelsAll (by simp)
  have hmem := mem_behind out hin
  obtain ⟨s', hok, hsize, hn, hp, hq, hsame⟩ := insertAfter_child_cells htcell
    (link_cell hroot hleaf _) h.atRule rfl (by simp) hz hlink (h.container_eq hplace)
    h.isContainer hfront (h.ne_anchor hin) (h.ledger.ne_container hmem) (h.ledger.ne_rule hmem)
    h.ledger.container_ne_rule
  rw [withLink_cell hroot] at hn
  have hsame' : ∀ m ∈ labelsAll (out ++ held ++ (t :: rest)), m ≠ t.label →
      s'.get? m = s.get? m := fun m hm hne => hsame m (by
    simp [hne, h.ledger.ne_container hm, h.ledger.ne_rule hm])
  have honce := h.ledger.once
  have hlabels := labels_eq t
  simp only [labelsAll_append, labelsAll, List.nodup_append, List.mem_append] at honce hsame'
  refine ⟨s', ?_, h.behind [t.label] hplace (Nat.le_of_eq hsize.symm)
    (fun m hm => hsame m ?_) ?_ ?_ hleaf hp ?_ ?_ ?_ ?_ ?_⟩
  · rw [x.anchor_concat]
    exact (runs_attempt hok).bind (runs_pure s' _)
  · simp only [List.mem_cons, List.not_mem_nil, or_false, not_or] at hm ⊢
    exact ⟨hm.2.2, hm.1, hm.2.1⟩
  · exact List.forall_mem_singleton.2 fun _ => ⟨.inl hmem, h.not_mem_out hin⟩
  · exact holds_moved hto hn fun m hm => hsame' m (by simp [hlabels, hm]) (by grind)
  · have hnot : t.label ∉ held.map label := by
      intro hm
      have hkept := h.nodup_children
      rw [labelsAll_append] at hkept
      exact (List.nodup_append.1 hkept).2.2 _ ((map_label_sublist held).subset hm) t.label
        (label_mem_labelsAll List.mem_cons_self) rfl
    rw [hq, List.map_append, List.erase_append_right _ hnot]
    simp
  · exact (holdsAll_append _ _).2 ⟨hheld.congr fun m hm => hsame' m (by simp [hm]) (by grind),
      hrest.congr fun m hm => hsame' m (by simp [hm]) (by grind)⟩
  all_goals simp only [labelsAll_append, labelsAll, List.nodup_append, List.mem_append]; grind

/-- The first child of an at-rule that is next to come leaves the at-rule and the rule. -/
theorem Midway.liftInner {a : NodeId} {n q : String} {u : Tree NodeId} {us : List (Tree NodeId)}
    (h : Midway x s out held (.branch a (.atRule n q) (u :: us) :: rest))
    (hleaf : u.isLeaf = false) :
    ∃ s', Runs (Pass.lift (x.anchor out) u.label : Edit ρ NodeId) s s' (x.anchor (out ++ [u])) ∧
      Midway x s' (out ++ [u]) held (.branch a (.atRule n q) us :: rest) := by
  obtain ⟨hheld, ⟨hacell, hu, hus⟩, hrest⟩ := (holdsAll_append _ _).1 h.left
  obtain ⟨hucell, hroot, -⟩ := (holds_iff u).1 hu
  obtain ⟨front, hplace, hfront⟩ := h.anchor_place
  obtain ⟨z, hz, hlink⟩ := h.anchor_cell
  have honce := h.ledger.once
  have hlabels := labels_eq u
  have hulabel := u.label_mem_labels
  have huin : u.label ∈ labelsAll (held ++ (.branch a (.atRule n q) (u :: us) :: rest)) := by
    simp [labelsAll_append, labelsAll, labels, hulabel]
  have hain : a ∈ labelsAll (held ++ (.branch a (.atRule n q) (u :: us) :: rest)) := by
    simp [labelsAll_append, labelsAll, labels]
  have hmem := mem_behind out huin
  have ha := mem_behind out hain
  simp only [labelsAll_append, labelsAll, labels, List.nodup_append, List.nodup_cons,
    List.mem_append, List.mem_cons] at honce
  have haq : s.get? a = some ((Node.atRule n q none (some x.rule)).withChildren
      (u.label :: us.map label)) := hacell
  obtain ⟨s', hok, hsize, hn, hp, hq, hsame⟩ := insertAfter_child_cells hucell
    (link_cell hroot hleaf _) haq rfl (by simp) hz hlink (h.container_eq hplace)
    h.isContainer hfront (h.ne_anchor huin) (h.ledger.ne_container hmem) (by grind)
    (h.ledger.ne_container ha).symm
  rw [withLink_cell hroot] at hn
  have hsame' : ∀ m ∈ labelsAll (out ++ held ++ (.branch a (.atRule n q) (u :: us) :: rest)),
      m ≠ u.label → m ≠ a → s'.get? m = s.get? m := fun m hm hne hna => hsame m (by
    simp [hne, hna, h.ledger.ne_container hm])
  simp only [labelsAll_append, labelsAll, labels, List.mem_append, List.mem_cons] at hsame'
  refine ⟨s', ?_, h.behind [u.label, a] hplace (Nat.le_of_eq hsize.symm)
    (fun m hm => hsame m ?_) ?_ ?_ hleaf hp ?_ ?_ ?_ ?_ ?_⟩
  · rw [x.anchor_concat]
    exact (runs_attempt hok).bind (runs_pure s' _)
  · simp only [List.mem_cons, List.not_mem_nil, or_false, not_or] at hm ⊢
    exact ⟨hm.2.2.1, hm.1, hm.2.2.2⟩
  · exact List.forall_mem_cons.2 ⟨fun _ => ⟨.inl hmem, h.not_mem_out huin⟩,
      List.forall_mem_singleton.2 fun _ => ⟨.inl ha, h.not_mem_out hain⟩⟩
  · exact holds_moved hu hn fun m hm => hsame' m (by simp [hlabels, hm]) (by grind) (by grind)
  · rw [hsame x.rule (by simp [(h.ledger.ne_rule hmem).symm, (h.ledger.ne_rule ha).symm,
      h.ledger.container_ne_rule.symm]), h.atRule]
    simp [label]
  · refine (holdsAll_append _ _).2 ⟨hheld.congr fun m hm => hsame' m (by simp [hm]) ?_ ?_,
      ⟨?_, hus.congr fun m hm => hsame' m (by simp [hm]) ?_ ?_⟩,
      hrest.congr fun m hm => hsame' m (by simp [hm]) ?_ ?_⟩
    · grind
    · grind
    · rw [hq]; simp; rfl
    · grind
    · grind
    · grind
    · grind
  all_goals
    simp only [labelsAll_append, labelsAll, labels, List.nodup_append, List.nodup_cons,
      List.mem_append, List.mem_cons]
    grind

/-- A copy of the rule takes over `ts` from `q`, which is the rule or a node in it, and follows what
has left. -/
theorem Midway.copy (h : Midway x s out held rest) {q : NodeId} {y : Node} {cs : List NodeId}
    (selectors : List String) (ts held' rest' : List (Tree NodeId))
    (hq : s.get? q = some (y.withChildren cs)) (hy : y.isContainer = true) (hts : s.HoldsAll q ts)
    (hmem : ∀ t ∈ ts, t.label ∈ cs) (hcs : cs.Nodup)
    (hin : q = x.rule ∨ q ∈ labelsAll (held ++ rest)) (hqts : q ∉ labelsAll ts)
    (hperm : (labelsAll ts ++ labelsAll (held' ++ rest')).Perm (labelsAll (held ++ rest)))
    (hthen : ∀ s' : Store, s'.get? q = some (y.withChildren (cs.filter fun n => n ∉ ts.map label)) →
      SameBut (x.container :: q :: s.size :: ts.map label) s s' →
      s'.get? x.rule = some (x.ruleCell.withChildren ((held' ++ rest').map label)) ∧
        s'.HoldsAll x.rule (held' ++ rest')) :
    ∃ s₁ s', Runs (gather q selectors (ts.map label) : Edit ρ NodeId) s s₁ s.size ∧
      s₁.insertAfter (x.anchor out) s.size = .ok () s' ∧
      Midway x s' (out ++ [.branch s.size (.rule selectors) ts]) held' rest' := by
  obtain ⟨front, hplace, hfront⟩ := h.anchor_place
  obtain ⟨z, hz, hlink⟩ := h.anchor_cell
  have hsub : ∀ n ∈ labelsAll ts, n ∈ labelsAll (held ++ rest) := fun n hn =>
    hperm.subset (List.mem_append_left _ hn)
  have hcq : x.container ≠ q := by
    rcases hin with rfl | hm
    · exact h.ledger.container_ne_rule
    · exact (h.ledger.ne_container (mem_behind out hm)).symm
  obtain ⟨s₁, s', hrun, hok, hsize, hcopy, hq', hp', hsame⟩ :=
    runs_gather_behind (ρ := ρ) selectors hq hy hts hmem hcs
      (List.nodup_append.1 (hperm.nodup_iff.2 h.nodup_children)).1 hqts hz hlink
      (h.container_eq hplace) h.isContainer hfront hcq
      (fun hm => h.ledger.ne_container (mem_behind out (hsub _ hm)) rfl)
      (fun hm => h.ne_anchor (hsub _ hm) rfl)
  obtain ⟨hr', hleft⟩ := hthen s' hq' hsame
  -- all the nodes are those from before and the copy
  have hnodes : (labelsAll (out ++ [.branch s.size (.rule selectors) ts] ++ held' ++ rest')).Perm
      (s.size :: labelsAll (out ++ held ++ rest)) := by
    have he : labelsAll (out ++ [.branch s.size (.rule selectors) ts] ++ held' ++ rest') =
        labelsAll out ++ s.size :: (labelsAll ts ++ labelsAll (held' ++ rest')) := by
      simp [labelsAll_append, labelsAll, labels]
    rw [he, List.append_assoc, labelsAll_append out]
    exact List.perm_middle.trans ((hperm.append_left _).cons _)
  have hnew : s.size ∉ labelsAll (out ++ held ++ rest) := fun hm =>
    absurd (h.ledger.alive _ hm) (Nat.lt_irrefl _)
  refine ⟨s₁, s', hrun, hok, h.behind (q :: s.size :: ts.map label) hplace
    (by omega) (fun m hm => hsame m ?_) ?_ hcopy rfl hp' hr' hleft ?_ ?_ ?_⟩
  · simp only [List.mem_cons, not_or] at hm ⊢
    exact ⟨hm.1, hm.2.2⟩
  · refine List.forall_mem_cons.2 ⟨fun hr => ?_,
      List.forall_mem_cons.2 ⟨fun _ => ?_, fun n hn _ => ?_⟩⟩
    · have hm := hin.resolve_left hr
      exact ⟨.inl (mem_behind out hm), h.not_mem_out hm⟩
    · exact ⟨.inr (Nat.le_refl _), fun hm => hnew (by simp [labelsAll_append, hm])⟩
    · have hn := hsub n ((map_label_sublist ts).subset hn)
      exact ⟨.inl (mem_behind out hn), h.not_mem_out hn⟩
  · exact hnodes.nodup_iff.2 (List.nodup_cons.2 ⟨hnew, h.ledger.once⟩)
  · intro n hn
    rcases List.mem_cons.1 (hnodes.subset hn) with rfl | hn
    · exact .inr (Nat.le_refl _)
    · exact .inl hn
  · exact fun n hn => hnodes.symm.subset (List.mem_cons_of_mem _ hn)

theorem filter_label_append {ts us vs : List (Tree NodeId)} (h : (labelsAll (us ++ vs)).Nodup)
    (hts : ∀ t ∈ ts, t ∈ us) :
    (vs.map label).filter (fun n => n ∉ ts.map label) = vs.map label := by
  rw [List.filter_eq_self]
  rintro n hn
  rw [labelsAll_append] at h
  have hnot : n ∉ ts.map label := by
    intro hm
    obtain ⟨t, ht, rfl⟩ := List.mem_map.1 hm
    exact (List.nodup_append.1 h).2.2 _ (label_mem_labelsAll (hts t ht)) _
      ((map_label_sublist vs).subset hn) rfl
  simpa using hnot

/-- What the copy has nothing to do with is as it was. -/
theorem Midway.congr_left (h : Midway x s out held rest) {p q : NodeId}
    {ts us : List (Tree NodeId)} (hsame : SameBut (x.container :: q :: s.size :: ts.map label) s s')
    (hus : s.HoldsAll p us) (hin : ∀ n ∈ labelsAll us, n ∈ labelsAll (held ++ rest))
    (hq : q ∉ labelsAll us) (hts : ∀ n ∈ labelsAll us, n ∉ ts.map label) : s'.HoldsAll p us := by
  refine hus.congr fun m hm => hsame m ?_
  have hall := mem_behind out (hin m hm)
  simp only [List.mem_cons, not_or]
  exact ⟨h.ledger.ne_container hall, fun he => hq (he ▸ hm), Nat.ne_of_lt (hus.lt_size m hm),
    hts m hm⟩

theorem labels_staying_append (marked : List (Bool × Tree NodeId)) (rest : List (Tree NodeId)) :
    (labelsAll (waiting marked) ++ labelsAll (staying marked ++ rest)).Perm
      (labelsAll (marked.map Prod.snd ++ rest)) := by
  rw [labelsAll_append, labelsAll_append, ← List.append_assoc]
  exact (labels_waiting_staying marked).append_right _

/-- What is left in the rule when a copy has taken over the handled children that wait. -/
theorem Midway.left_of_staying {marked : List (Bool × Tree NodeId)}
    (h : Midway x s out (marked.map Prod.snd) rest)
    (hcell : s'.get? x.rule = some (x.ruleCell.withChildren
      (((marked.map Prod.snd ++ rest).map label).filter fun n => n ∉ (waiting marked).map label)))
    (hsame : SameBut (x.container :: x.rule :: s.size :: (waiting marked).map label) s s') :
    s'.get? x.rule = some (x.ruleCell.withChildren ((staying marked ++ rest).map label)) ∧
      s'.HoldsAll x.rule (staying marked ++ rest) := by
  have hnodup := h.nodup_children
  have hperm := labels_staying_append marked rest
  constructor
  · rw [hcell, List.map_append, List.filter_append, filter_waiting,
      filter_label_append hnodup (waiting_subset marked), ← List.map_append]
    rw [labelsAll_append] at hnodup
    exact (List.nodup_append.1 hnodup).1.sublist (map_label_sublist _)
  · have hus := List.nodup_append.1 (hperm.nodup_iff.2 hnodup)
    refine h.congr_left hsame ((holdsAll_iff _).2 fun t ht => (holdsAll_iff _).1 h.left t ?_)
      (fun n hn => hperm.subset (List.mem_append_right _ hn))
      (fun hm => h.rule_not_mem (hperm.subset (List.mem_append_right _ hm)))
      (fun n hn hm => hus.2.2 n ((map_label_sublist _).subset hm) n hn rfl)
    exact List.mem_append.2 ((List.mem_append.1 ht).imp_left (staying_subset marked t))

/-- The handled children that wait leave in a copy of the rule. -/
theorem Midway.flush {marked : List (Bool × Tree NodeId)}
    (h : Midway x s out (marked.map Prod.snd) rest) :
    ∃ s', Runs (Pass.flush x.rule x.selectors ((waiting marked).map label) (x.anchor out) :
        Edit ρ NodeId) s s' (x.anchor (out ++ Share.copy s.size x.selectors (waiting marked))) ∧
      Midway x s' (out ++ Share.copy s.size x.selectors (waiting marked)) (staying marked)
        rest := by
  by_cases hw : waiting marked = []
  · have hs : staying marked = marked.map Prod.snd := by
      rw [waiting, List.map_eq_nil_iff, List.filter_eq_nil_iff] at hw
      rw [staying, List.filter_eq_self.2 fun m hm => by simpa using hw m hm]
    simp only [hw, hs, Share.copy, List.isEmpty_nil, if_true, List.append_nil]
    exact ⟨s, by simpa [Pass.flush] using runs_pure s _, h⟩
  · have hempty : ((waiting marked).map label).isEmpty = false := by simpa using hw
    have hnodup := h.nodup_children
    have hsub : ∀ t ∈ waiting marked, t ∈ marked.map Prod.snd ++ rest := fun t ht =>
      List.mem_append_left _ (waiting_subset marked t ht)
    have hperm := labels_staying_append marked rest
    obtain ⟨s₁, s', hrun, hok, h'⟩ := h.copy (ρ := ρ) x.selectors (waiting marked)
      (staying marked) rest
      h.atRule rfl ((holdsAll_iff _).2 fun t ht => (holdsAll_iff _).1 h.left t (hsub t ht))
      (fun t ht => List.mem_map_of_mem (hsub t ht))
      (hnodup.sublist (map_label_sublist _)) (.inl rfl)
      (fun hm => h.rule_not_mem (hperm.subset (List.mem_append_left _ hm))) hperm
      (fun _ => h.left_of_staying)
    refine ⟨s', ?_, by simpa [Share.copy, hw] using h'⟩
    rw [Pass.flush, if_neg (by simp [hempty])]
    have hanchor := x.anchor_concat out (.branch s.size (.rule x.selectors) (waiting marked))
    simp only [Share.copy, List.isEmpty_iff, hw, if_false, hanchor, label]
    exact hrun.bind (.bind_note ((runs_attempt hok).bind (runs_pure s' _)))

section Inner

variable {a : NodeId} {n q : String} {marked : List (Bool × Tree NodeId)}

/-- What is left in the rule when a copy has taken over what waits in an at-rule in it. -/
theorem Midway.left_of_staying_inner
    (h : Midway x s out held (.branch a (.atRule n q) (marked.map Prod.snd) :: rest))
    (hcell : s'.get? a = some ((Node.atRule n q none (some x.rule)).withChildren
      (((marked.map Prod.snd).map label).filter fun n => n ∉ (waiting marked).map label)))
    (hsame : SameBut (x.container :: a :: s.size :: (waiting marked).map label) s s') :
    s'.get? x.rule = some (x.ruleCell.withChildren
        ((held ++ (.branch a (.atRule n q) (staying marked) :: rest)).map label)) ∧
      s'.HoldsAll x.rule (held ++ (.branch a (.atRule n q) (staying marked) :: rest)) := by
  obtain ⟨hheld, ⟨-, hinner⟩, hrest⟩ := (holdsAll_append _ _).1 h.left
  have hrule := h.rule_not_mem
  have hnodup := h.nodup_children
  have hsplit := labels_waiting_staying marked
  simp only [labelsAll_append, labelsAll, labels, List.nodup_append, List.nodup_cons,
    List.mem_append, List.mem_cons] at hnodup
  have hdisj := (List.nodup_append.1 (hsplit.nodup_iff.2 hnodup.2.1.1.2)).2.2
  have hwaiting : ∀ m ∈ labelsAll (waiting marked), m ∈ labelsAll (marked.map Prod.snd) :=
    fun m hm => hsplit.subset (List.mem_append_left _ hm)
  have hstaying : ∀ m ∈ labelsAll (staying marked), m ∈ labelsAll (marked.map Prod.snd) :=
    fun m hm => hsplit.subset (List.mem_append_right _ hm)
  have hsub : ∀ m ∈ (waiting marked).map label, m ∈ labelsAll (waiting marked) :=
    (map_label_sublist _).subset
  rw [filter_waiting ((hnodup.2.1.1.2).sublist (map_label_sublist _))] at hcell
  have hstay : s.HoldsAll a (staying marked) :=
    (holdsAll_iff _).2 fun t ht => (holdsAll_iff _).1 hinner t (staying_subset marked t ht)
  constructor
  · rw [hsame x.rule ?_, h.atRule]
    · simp [label]
    · simp only [List.mem_cons, not_or]
      refine ⟨h.ledger.container_ne_rule.symm, fun he => ?_,
        (Nat.ne_of_lt (lt_size_of_get? h.atRule)), fun hm => hrule ?_⟩
      · exact hrule (by simp [labelsAll_append, labelsAll, labels, he])
      · simp [labelsAll_append, labelsAll, labels, hwaiting _ (hsub _ hm)]
  · refine (holdsAll_append _ _).2 ⟨h.congr_left hsame hheld ?_ ?_ ?_,
      ⟨hcell, h.congr_left hsame hstay ?_ ?_ ?_⟩, h.congr_left hsame hrest ?_ ?_ ?_⟩
    all_goals try simp only [labelsAll_append, labelsAll, labels, List.mem_append, List.mem_cons]
    all_goals grind

/-- What waits in an at-rule that is next to come leaves it and the rule in a copy of the rule. -/
theorem Midway.gatherInner (selectors : List String)
    (h : Midway x s out held (.branch a (.atRule n q) (marked.map Prod.snd) :: rest)) :
    ∃ s', Runs (gather a selectors ((waiting marked).map label) >>= Pass.lift (x.anchor out) :
        Edit ρ NodeId) s s'
        (x.anchor (out ++ [.branch s.size (.rule selectors) (waiting marked)])) ∧
      Midway x s' (out ++ [.branch s.size (.rule selectors) (waiting marked)]) held
        (.branch a (.atRule n q) (staying marked) :: rest) := by
  obtain ⟨-, ⟨hcell, hinner⟩, -⟩ := (holdsAll_append _ _).1 h.left
  have hacell : s.get? a = some ((Node.atRule n q none (some x.rule)).withChildren
      ((marked.map Prod.snd).map label)) := hcell
  have hnodup := h.nodup_children
  have hsplit := labels_waiting_staying marked
  have hperm : (labelsAll (waiting marked) ++ labelsAll (held ++
      (.branch a (.atRule n q) (staying marked) :: rest))).Perm
      (labelsAll (held ++ (.branch a (.atRule n q) (marked.map Prod.snd) :: rest))) := by
    refine List.perm_iff_count.2 fun m => ?_
    have hcount := hsplit.count_eq m
    simp only [labelsAll_append, labelsAll, labels, List.cons_append, List.count_append,
      List.count_cons] at hcount ⊢
    omega
  simp only [labelsAll_append, labelsAll, labels, List.nodup_append, List.nodup_cons,
    List.mem_append, List.mem_cons] at hnodup
  have hnot : a ∉ labelsAll (waiting marked) := fun hm =>
    hnodup.2.1.1.1 (hsplit.subset (List.mem_append_left _ hm))
  obtain ⟨s₁, s', hrun, hok, h'⟩ := h.copy (ρ := ρ) selectors (waiting marked) held _ hacell rfl
    ((holdsAll_iff _).2 fun t ht => (holdsAll_iff _).1 hinner t (waiting_subset marked t ht))
    (fun t ht => List.mem_map_of_mem (waiting_subset marked t ht))
    ((hnodup.2.1.1.2).sublist (map_label_sublist _))
    (.inr (by simp [labelsAll_append, labelsAll, labels]))
    hnot hperm (fun _ => h.left_of_staying_inner)
  refine ⟨s', ?_, h'⟩
  rw [x.anchor_concat]
  exact hrun.bind ((runs_attempt hok).bind (runs_pure s' _))

end Inner

end Unnest.Pass
