import Unnest.Proofs.Pass.Runs
import Unnest.Proofs.Store.Part
import Unnest.Proofs.Tree.Flat

/-! A bubbling at-rule made independent of the rule around it. The loop over its children changes
each of them where it stands; then what cannot stand alone goes into a copy of the rule, in front.
What comes of it is the flat form without any rule that is due. -/

namespace Unnest

open Tree Store Selector

/-- What a node was before a pass that began with `k` nodes; a copy was nothing. -/
def origin (k : Nat) (n : NodeId) : Option NodeId := if n < k then some n else none

theorem origin_of_le {k n : NodeId} (h : k ≤ n) : origin k n = none :=
  if_neg (Nat.not_lt.2 h)

namespace Tree

variable {α β : Type}

def isBubblingBlock (o : Options) : Tree α → Bool
  | .branch _ (.atRule n _) _ => o.bubbles n
  | _ => false

def isUnwrappedBlock (o : Options) : Tree α → Bool
  | .branch _ (.atRule n _) _ => o.unwraps n
  | _ => false

/-- Whether the tree can do without a rule around it, in a bubbling at-rule or, with `unwrap`, out
of a root rule. -/
def standsAlone (o : Options) (unwrap : Bool) (t : Tree α) : Bool :=
  t.isRule || t.isBubblingBlock o || (unwrap && t.isUnwrappedBlock o)

theorem mapAll_copy (f : α → β) (a : α) (selectors : List String) (ts : List (Tree α)) :
    mapAll f (Share.copy a selectors ts) = Share.copy (f a) selectors (mapAll f ts) := by
  rw [Share.copy, Share.copy, isEmpty_mapAll]
  split <;> rfl

theorem waiting_mark (f : Tree NodeId → Bool) (ts : List (Tree NodeId)) :
    waiting (ts.map fun t => (f t, t)) = ts.filter f := by
  simp [waiting, List.filter_map, Function.comp_def]

theorem staying_mark (f : Tree NodeId → Bool) (ts : List (Tree NodeId)) :
    staying (ts.map fun t => (f t, t)) = ts.filter fun t => !f t := by
  simp [staying, List.filter_map, Function.comp_def]

theorem filter_not_of_filter_eq_nil {f : Tree α → Bool} {ts : List (Tree α)}
    (h : ts.filter f = []) : (ts.filter fun t => !f t) = ts := by
  rw [List.filter_eq_self]
  intro t ht
  simpa using List.filter_eq_nil_iff.1 h t ht

/-- Shares of trees that go if they stand alone. -/
def shareAlone (o : Options) (unwrap : Bool) (f : α → β) (t : Tree α) : Share β :=
  if t.standsAlone o unwrap then .lifted [t.map f] else .movable [t.map f]

theorem leftovers_alone (o : Options) (unwrap : Bool) (f : α → β) (ts : List (Tree α)) :
    Share.leftovers (ts.map (shareAlone o unwrap f)) =
      mapAll f (ts.filter fun t => !t.standsAlone o unwrap) := by
  induction ts with
  | nil => rfl
  | cons t ts ih =>
    cases h : t.standsAlone o unwrap <;>
      simp [shareAlone, h, Share.leftovers, mapAll, ← ih]

theorem goers_alone (o : Options) (unwrap : Bool) (f : α → β) (ts : List (Tree α)) :
    Share.goers (ts.map (shareAlone o unwrap f)) =
      mapAll f (ts.filter fun t => t.standsAlone o unwrap) := by
  induction ts with
  | nil => rfl
  | cons t ts ih =>
    cases h : t.standsAlone o unwrap <;>
      simp [shareAlone, h, Share.goers, mapAll, ← ih]

end Tree

namespace Store

variable {s : Store} {p : NodeId} {t : Tree NodeId}

theorem Holds.isRule_eq (h : s.Holds p t) : s.isRule t.label = t.isRule := by
  unfold Store.isRule
  rw [((holds_iff t).1 h).1]
  rcases t with ⟨n, l⟩ | ⟨n, a, b⟩ | ⟨n, _ | s | ⟨a, b⟩, ts⟩ <;> rfl

theorem Holds.isBubblingBlock_eq (h : s.Holds p t) (o : Options) :
    s.isBubblingBlock o t.label = t.isBubblingBlock o := by
  unfold Store.isBubblingBlock
  rw [((holds_iff t).1 h).1]
  rcases t with ⟨n, l⟩ | ⟨n, a, b⟩ | ⟨n, _ | s | ⟨a, b⟩, ts⟩ <;> rfl

theorem Holds.isUnwrappedBlock_eq (h : s.Holds p t) (o : Options) :
    s.isUnwrappedBlock o t.label = t.isUnwrappedBlock o := by
  unfold Store.isUnwrappedBlock
  rw [((holds_iff t).1 h).1]
  rcases t with ⟨n, l⟩ | ⟨n, a, b⟩ | ⟨n, _ | s | ⟨a, b⟩, ts⟩ <;> rfl

theorem Holds.bubblesAlong_eq (h : s.Holds p t) (o : Options) :
    s.bubblesAlong o t.label = t.standsAlone o false := by
  simp [Store.bubblesAlong, standsAlone, h.isRule_eq, h.isBubblingBlock_eq]

theorem Holds.liftsAlone_eq (h : s.Holds p t) (o : Options) :
    s.liftsAlone o t.label = t.standsAlone o true := by
  simp [Store.liftsAlone, standsAlone, h.isRule_eq, h.isBubblingBlock_eq, h.isUnwrappedBlock_eq]

theorem Holds.role_eq {p : NodeId} (h : s.Holds p t) (o : Options) :
    s.role o t.label = (t.cell p).role o := by
  unfold Store.role
  rw [((holds_iff t).1 h).1]
  rfl

theorem Holds.children_eq (h : s.Holds p t) : s.children t.label = t.children.map label := by
  unfold Store.children children?
  rw [((holds_iff t).1 h).1]
  rcases t with ⟨n, l⟩ | ⟨n, a, b⟩ | ⟨n, _ | s | ⟨a, b⟩, ts⟩ <;> rfl

theorem HoldsAll.filter_label {ts : List (Tree NodeId)} (h : s.HoldsAll p ts) (f : NodeId → Bool)
    (g : Tree NodeId → Bool) (hfg : ∀ t ∈ ts, s.Holds p t → f t.label = g t) :
    (ts.map label).filter f = (ts.filter g).map label := by
  rw [List.filter_map]
  congr 1
  exact List.filter_congr fun t ht => hfg t ht ((holdsAll_iff _).1 h t ht)

end Store

namespace Pass

variable {ρ : Type} {s : Store} {p a : NodeId} {y : Node} {before after : List NodeId}
  {t : Tree NodeId} {ts us : List (Tree NodeId)}

/-- The body of the loop of `bubble`. -/
def bubbleChild (o : Options) (selectors : List String) (resolved : Bool) (depth : Nat)
    (n : NodeId) : Edit ρ Unit := do
  if ← Edit.look (·.isRule n) then
    if !resolved then resolve selectors n
  else if ← Edit.look (·.isBubblingBlock o n) then bubble o selectors resolved depth n

theorem bubble_succ (o : Options) (selectors : List String) (resolved : Bool) (depth : Nat)
    (atRule : NodeId) : (bubble o selectors resolved (depth + 1) atRule : Edit ρ Unit) = (do
      let children ← Edit.look (·.children atRule)
      let leftovers ← Edit.look fun s => children.filter fun n => !s.bubblesAlong o n
      children.forM (bubbleChild o selectors resolved depth)
      if !leftovers.isEmpty then
        let copy ← gather atRule selectors leftovers
        Edit.attempt (·.prepend atRule copy)) := rfl

/-- The children that wait go to the front, in a copy of the rule. -/
theorem runs_gather_front {marked : List (Bool × Tree NodeId)} (selectors : List String)
    (h : s.Part a y [] [] (marked.map Prod.snd)) :
    ∃ s', Runs (gather a selectors ((waiting marked).map label) >>= fun copy =>
        Edit.attempt (·.prepend a copy) : Edit ρ Unit) s s' () ∧
      Becomes s s' a y [] [] (marked.map Prod.snd)
        (.branch s.size (.rule selectors) (waiting marked) :: staying marked) := by
  have hplace := h.place
  rw [List.nil_append, List.append_nil] at hplace
  have hsplit := labels_waiting_staying marked
  have hlabels : ((marked.map Prod.snd).map label).Nodup := h.nodup.sublist (map_label_sublist _)
  have honce := hsplit.nodup_iff.2 h.nodup
  have hin : ∀ n, n ∈ labelsAll (waiting marked) ∨ n ∈ labelsAll (staying marked) ↔
      n ∈ labelsAll (marked.map Prod.snd) := fun n => by rw [← hsplit.mem_iff, List.mem_append]
  have hheld : ∀ us : List (Tree NodeId), (∀ t ∈ us, t ∈ marked.map Prod.snd) → s.HoldsAll a us :=
    fun us hus => (holdsAll_iff us).2 fun t ht => (holdsAll_iff _).1 h.holds t (hus t ht)
  have hwa : a ∉ labelsAll (waiting marked) := fun hm => h.ne_container ((hin a).1 (.inl hm)) rfl
  obtain ⟨s₁, hrun, hsize, hall, ha, hc, hsame⟩ := runs_gather (ρ := ρ) selectors hplace
    h.isContainer (hheld _ (waiting_subset marked))
    (fun t ht => List.mem_map_of_mem (waiting_subset marked t ht)) hlabels
    (List.nodup_append.1 honce).1 hwa
  have hac : s.size ≠ a := (Nat.ne_of_lt (lt_size_of_get? hplace)).symm
  have hne : ∀ n ∈ labelsAll (marked.map Prod.snd), n ≠ a := fun n => h.ne_container
  obtain ⟨s', hok, hsize', hn, ha', hsame'⟩ := insert_cells hc rfl ha h.isContainer hac
    (s.size :: ·)
  have hlt := h.lt_size
  have hcells : ∀ m < s.size, m ≠ a → m ∉ (waiting marked).map label → s'.get? m = s.get? m :=
    fun m hm hma hmw => by
      rw [hsame' m (by simp [hma, Nat.ne_of_lt hm]),
        hsame m (by simp only [List.mem_cons, not_or]; exact ⟨hma, Nat.ne_of_lt hm, hmw⟩)]
  have hsub : ∀ n ∈ (waiting marked).map label, n ∈ labelsAll (waiting marked) :=
    (map_label_sublist _).subset
  simp only [List.nodup_append] at honce
  refine ⟨s', hrun.bind (runs_attempt hok), h, ⟨h.isContainer, ?_, ⟨⟨hn, ?_⟩, ?_⟩, ?_, by simp⟩,
    by omega, fun m hm hma hmt => hcells m hm hma fun hw => hmt ((hin m).1 (.inl (hsub m hw))),
    ?_, ?_⟩
  · rw [ha', filter_waiting hlabels]
    simp [label]
  · exact hall.congr fun m hm => hsame' m (by grind)
  · exact (hheld _ (staying_subset marked)).congr fun m hm =>
      hcells m (hlt m (by grind)) (hne m (by grind)) (by grind)
  · simp only [labelsAll, labels, List.nodup_append, List.nodup_cons, List.mem_append,
      List.mem_cons]
    grind
  · simp only [labelsAll, labels, List.mem_append, List.mem_cons]
    grind
  · simp only [labelsAll, labels, List.mem_append, List.mem_cons]
    grind

/-- The loop done, what cannot stand alone goes to the front. -/
theorem runs_bubble_succ {o : Options} {selectors : List String} {resolved : Bool} {depth : Nat}
    {s₁ : Store} {us₁ : List (Tree NodeId)} (h : s.Part a y [] [] us)
    (hrun : Runs ((us.map label).forM (bubbleChild o selectors resolved depth) : Edit ρ Unit)
      s s₁ ())
    (hb : Becomes s s₁ a y [] [] us us₁)
    (hlabels : us₁.map (fun t => (t.standsAlone o false, t.label)) =
      us.map fun t => (t.standsAlone o false, t.label))
    (hshare : ∀ k ≤ s.size, insideAll o none (fun _ => false) false selectors (!resolved)
      (mapAll (origin k) us) = us₁.map (shareAlone o false (origin k))) :
    ∃ s' us', Runs (bubble o selectors resolved (depth + 1) a : Edit ρ Unit) s s' () ∧
      Becomes s s' a y [] [] us us' ∧
      ∀ k ≤ s.size, mapAll (origin k) us' = Share.wrap none selectors (insideAll o none
        (fun _ => false) false selectors (!resolved) (mapAll (origin k) us)) := by
  set f : Tree NodeId → Bool := fun t => !t.standsAlone o false with hf
  have hchildren : s.children a = us.map label := by
    simpa using children_of_get? h.place h.isContainer
  have hleft : (us.map label).filter (fun n => !s.bubblesAlong o n) =
      (waiting (us₁.map fun t => (f t, t))).map label := by
    have hmap := congrArg (fun l => (l.filter fun m => !m.1).map Prod.snd) hlabels
    simp only [List.filter_map, List.map_map] at hmap
    rw [h.holds.filter_label _ f fun t _ ht => by rw [hf, ht.bubblesAlong_eq], waiting_mark]
    exact hmap.symm
  have hwrap : ∀ k ≤ s.size, Share.wrap none selectors (insideAll o none (fun _ => false) false
      selectors (!resolved) (mapAll (origin k) us)) =
      Share.copy none selectors (mapAll (origin k) (us₁.filter f)) ++
        mapAll (origin k) (us₁.filter fun t => !f t) := by
    intro k hk
    simp [hshare k hk, Share.wrap, leftovers_alone, goers_alone, hf]
  rw [bubble_succ]
  have hmarked : us₁ = (us₁.map fun t => (f t, t)).map Prod.snd := by simp [Function.comp_def]
  by_cases hw : us₁.filter f = []
  · refine ⟨s₁, us₁, ?_, hb, fun k hk => ?_⟩
    · refine .bind_look (.bind_look ?_)
      rw [hchildren, hleft, waiting_mark, hw]
      exact hrun.bind (runs_pure s₁ ())
    · rw [hwrap k hk, hw, filter_not_of_filter_eq_nil hw]
      rfl
  · have hp := hb.part
    rw [hmarked] at hp
    obtain ⟨s', hrun', hb'⟩ := runs_gather_front (ρ := ρ) selectors hp
    rw [← hmarked, waiting_mark, staying_mark] at hb'
    refine ⟨s', _, ?_, hb.trans hb', fun k hk => ?_⟩
    · refine .bind_look (.bind_look ?_)
      rw [hchildren, hleft]
      refine hrun.bind ?_
      rw [waiting_mark] at hrun' ⊢
      simpa [hw] using hrun'
    · have hnew := origin_of_le (Nat.le_trans hk hb.grown)
      rw [hwrap k hk, Share.copy, isEmpty_mapAll, if_neg (by simpa using hw)]
      simp [mapAll, Tree.map, hnew]

theorem runs_resolve {r : List String} (h : s.Part p y before after [.branch a (.rule r) us])
    (parents : List String) :
    ∃ s', Runs (resolve parents a : Edit ρ Unit) s s' () ∧
      Becomes s s' p y before after [.branch a (.rule r) us]
        [.branch a (.rule (nest parents r)) us] :=
  ⟨_, runs_change s _, h.editSelectors (nest parents)⟩

/-- What is not a rule has no selectors to resolve. -/
theorem runs_resolve_of_not_rule (h : s.isRule a = false) (parents : List String) :
    Runs (resolve parents a : Edit ρ Unit) s s () := by
  have hres : Runs (resolve parents a : Edit ρ Unit) s (s.editSelectors a (nest parents)) () :=
    runs_change s _
  rwa [editSelectors_of_not_rule h] at hres

/-- A nested rule in a bubbling at-rule or in a root rule, as long as nothing is due. -/
theorem inside_rule (o : Options) (unwrap merge : Bool) (selectors r : List String) (k : Nat)
    (ts : List (Tree NodeId)) :
    inside o none (fun _ => false) unwrap selectors merge
      ((Tree.branch a (.rule r) ts).map (origin k)) =
        .lifted [.branch (origin k a) (.rule (if merge then nest selectors r else r))
          (mapAll (origin k) ts)] := by
  cases merge <;> simp [Tree.map, inside, place, flatAll_still]

/-- A child that is neither a rule nor a bubbling block stays as it is. -/
theorem runs_bubbleChild_of_not_alone {o : Options} (selectors : List String) (resolved : Bool)
    (depth : Nat) (h : s.Part p y before after [t]) (ht : t.standsAlone o false = false) :
    Runs (bubbleChild o selectors resolved depth t.label : Edit ρ Unit) s s () := by
  simp only [standsAlone, Bool.false_and, Bool.or_false, Bool.or_eq_false_iff] at ht
  refine .bind_look ?_
  rw [h.holds.1.isRule_eq, ht.1]
  refine .bind_look ?_
  rw [h.holds.1.isBubblingBlock_eq, ht.2]
  exact runs_pure s ()

mutual

theorem runs_bubbleChild (o : Options) (selectors : List String) (resolved : Bool) :
    (t : Tree NodeId) → {s : Store} → {p : NodeId} → {y : Node} → {before after : List NodeId} →
    {depth : Nat} → s.Part p y before after [t] → t.labels.length ≤ depth →
    ∃ s' t', Runs (bubbleChild o selectors resolved depth t.label : Edit ρ Unit) s s' () ∧
      Becomes s s' p y before after [t] [t'] ∧
      (t'.standsAlone o false, t'.label) = (t.standsAlone o false, t.label) ∧
      ∀ k ≤ s.size, inside o none (fun _ => false) false selectors (!resolved) (t.map (origin k)) =
        shareAlone o false (origin k) t'
  | .leaf n l, s, p, y, before, after, depth, h, hd =>
    ⟨s, _, runs_bubbleChild_of_not_alone selectors resolved depth h rfl, Becomes.refl h, rfl,
      fun _ _ => rfl⟩
  | .statement n m q, s, p, y, before, after, depth, h, hd =>
    ⟨s, _, runs_bubbleChild_of_not_alone selectors resolved depth h rfl, Becomes.refl h, rfl,
      fun _ _ => rfl⟩
  | .branch n .root us, s, p, y, before, after, depth, h, hd => h.holds.1.elim
  | .branch n (.rule r) us, s, p, y, before, after, depth, h, hd => by
    have hrule : s.isRule n = true := h.holds.1.isRule_eq
    cases resolved with
    | true =>
      refine ⟨s, _, .bind_look ?_, Becomes.refl h, rfl, fun k _ => inside_rule ..⟩
      rw [label, hrule]
      exact runs_pure s ()
    | false =>
      obtain ⟨s', hrun, hb⟩ := runs_resolve (ρ := ρ) h selectors
      refine ⟨s', _, .bind_look ?_, hb, rfl, fun k _ => inside_rule ..⟩
      rw [label, hrule]
      exact hrun
  | .branch n (.atRule m q) us, s, p, y, before, after, depth, h, hd => by
    cases hm : o.bubbles m with
    | false =>
      have halone : (Tree.branch n (.atRule m q) us).standsAlone o false = false := by
        simp [standsAlone, Tree.isRule, Tree.isBubblingBlock, hm]
      exact ⟨s, _, runs_bubbleChild_of_not_alone selectors resolved depth h halone, Becomes.refl h,
        rfl, fun k _ => by simp [Tree.map, inside, hm, shareAlone, halone, flatAll_still]⟩
    | true =>
      obtain ⟨d, rfl⟩ : ∃ d, depth = d + 1 := ⟨depth - 1, by simp [labels] at hd; omega⟩
      obtain ⟨s₁, us₁, hrun, hb, hl, hshare⟩ := runs_bubbleChildren o selectors resolved us h.below
        (Nat.le_of_succ_le_succ (by simpa [labels] using hd))
      obtain ⟨s', us', hrun', hb', hwrap⟩ := runs_bubble_succ h.below hrun hb hl hshare
      have halone : ∀ vs : List (Tree NodeId),
          (Tree.branch n (.atRule m q) vs).standsAlone o false = true := by
        intro vs
        simp [standsAlone, Tree.isBubblingBlock, hm]
      refine ⟨s', .branch n (.atRule m q) us', .bind_look ?_, Becomes.below h hb', ?_,
        fun k hk => ?_⟩
      · have hrule : s.isRule n = false := h.holds.1.isRule_eq
        have hblock : s.isBubblingBlock o n = true := (h.holds.1.isBubblingBlock_eq o).trans hm
        rw [label, hrule]
        refine .bind_look ?_
        rw [hblock]
        exact hrun'
      · rw [halone, halone]
        rfl
      · simp [Tree.map, inside, hm, shareAlone, halone, hwrap k hk]

theorem runs_bubbleChildren (o : Options) (selectors : List String) (resolved : Bool) :
    (ts : List (Tree NodeId)) → {s : Store} → {p : NodeId} → {y : Node} →
    {before after : List NodeId} → {depth : Nat} → s.Part p y before after ts →
    (labelsAll ts).length ≤ depth →
    ∃ s' ts', Runs ((ts.map label).forM (bubbleChild o selectors resolved depth) : Edit ρ Unit)
        s s' () ∧
      Becomes s s' p y before after ts ts' ∧
      ts'.map (fun t => (t.standsAlone o false, t.label)) =
        ts.map (fun t => (t.standsAlone o false, t.label)) ∧
      ∀ k ≤ s.size, insideAll o none (fun _ => false) false selectors (!resolved)
        (mapAll (origin k) ts) = ts'.map (shareAlone o false (origin k))
  | [], s, p, y, before, after, depth, h, hd => by
    exact ⟨s, [], runs_pure s (), Becomes.refl h, rfl, fun _ _ => rfl⟩
  | t :: ts, s, p, y, before, after, depth, h, hd => by
    rw [labelsAll, List.length_append] at hd
    obtain ⟨s₁, t', hrun, hb, hl, hshare⟩ := runs_bubbleChild o selectors resolved t h.head
      (show t.labels.length ≤ depth by omega)
    have hb := Becomes.head h hb
    obtain ⟨s₂, ts', hrun', hb', hl', hshare'⟩ := runs_bubbleChildren o selectors resolved ts
      (Part.tail hb.part) (show (labelsAll ts).length ≤ depth by omega)
    refine ⟨s₂, t' :: ts', runs_forM_cons hrun hrun', hb.trans (Becomes.tail hb.part hb'), ?_,
      fun k hk => ?_⟩
    · rw [List.map_cons, List.map_cons, hl, hl']
    · rw [mapAll, insideAll, hshare k hk, hshare' k (Nat.le_trans hk hb.grown)]
      rfl

end

/-- A bubbling block takes what cannot stand alone into a copy of the rule, at any depth. -/
theorem runs_bubbleAll {n q : String} (o : Options) (selectors : List String) (resolved : Bool)
    (h : s.Part p y before after [.branch a (.atRule n q) us]) :
    ∃ s' us', Runs (bubbleAll o selectors resolved a : Edit ρ Unit) s s' () ∧
      Becomes s s' p y before after [.branch a (.atRule n q) us] [.branch a (.atRule n q) us'] ∧
      ∀ k ≤ s.size, mapAll (origin k) us' = Share.wrap none selectors (insideAll o none
        (fun _ => false) false selectors (!resolved) (mapAll (origin k) us)) := by
  have hle := length_le_size h.nodup h.lt_size
  simp only [labelsAll, labels, List.append_nil, List.length_cons] at hle
  obtain ⟨d, hd⟩ : ∃ d, s.size = d + 1 := ⟨s.size - 1, by omega⟩
  obtain ⟨s₁, us₁, hrun, hb, hl, hshare⟩ := runs_bubbleChildren (ρ := ρ) o selectors resolved us
    h.below (show (labelsAll us).length ≤ d by omega)
  obtain ⟨s', us', hrun', hb', hwrap⟩ := runs_bubble_succ h.below hrun hb hl hshare
  refine ⟨s', us', .bind_look ?_, Becomes.below h hb', hwrap⟩
  rw [hd]
  exact hrun'

theorem runs_bubbleAll_statement {n q : String} (o : Options) (selectors : List String)
    (resolved : Bool) (h : s.Part p y before after [.statement a n q]) :
    Runs (bubbleAll o selectors resolved a : Edit ρ Unit) s s () := by
  have hcell : s.get? a = some (.atRule n q none (some p)) := h.holds.1
  have hchildren : s.children a = [] := h.holds.1.children_eq
  obtain ⟨d, hd⟩ := Nat.exists_eq_add_one_of_ne_zero (Nat.ne_zero_of_lt (lt_size_of_get? hcell))
  refine .bind_look ?_
  rw [hd, bubble_succ]
  refine .bind_look (.bind_look ?_)
  rw [hchildren]
  exact (runs_pure s ()).bind (runs_pure s ())

end Pass

end Unnest
