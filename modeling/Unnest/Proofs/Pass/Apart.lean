import Unnest.Proofs.Pass.Midway
import Unnest.Proofs.Pass.Bubble

/-! One rule taken apart. Each child leads from one state midway to the next, and what it leaves
behind in the rule and behind the rule is what its share says; so the whole loop comes to `apart`.
-/

namespace Unnest.Pass

open Tree Store Selector

variable {ρ : Type} {x : Site} {s : Store} {out held rest : List (Tree NodeId)} {t : Tree NodeId}
  {o : Options}

/-- A node on its way out of a root rule that is next to come: it changes where it stands and then
moves. -/
theorem runs_changed_lift {a : NodeId} {n q : String} {u g : Tree NodeId} {us : List (Tree NodeId)}
    (h : Midway x s out held (.branch a (.atRule n q) (u :: us) :: rest)) {m : Edit ρ Unit}
    {s₁ : Store} (hm : Runs m s s₁ ()) (hleaf : g.isLeaf = false) (hl : g.label = u.label)
    (hb : Becomes s s₁ a ((Node.ofHead (.atRule n q)).withLink (some x.rule)) [] (us.map label)
      [u] [g]) :
    ∃ s', Runs (m >>= fun _ => lift (x.anchor out) u.label) s s' (x.anchor (out ++ [g])) ∧
      Midway x s' (out ++ [g]) held (.branch a (.atRule n q) us :: rest) := by
  have hall := Becomes.head h.next.below (by simpa using hb)
  obtain ⟨s', hrun, h'⟩ := (h.inside (Becomes.below h.next hall)).liftInner (ρ := ρ) hleaf
  rw [hl] at hrun
  exact ⟨s', hm.bind hrun, h'⟩

section Escape

variable {a b : NodeId} {n q : String} {u : Tree NodeId} {us vs : List (Tree NodeId)}

theorem Midway.inner (h : Midway x s out held (.branch a (.atRule n q) (u :: us) :: rest)) :
    s.Part a ((Node.ofHead (.atRule n q)).withLink (some x.rule)) [] (us.map label) [u] := by
  simpa using h.next.below.head

theorem runs_escape_bubbling {m r : String} (selectors : List String)
    (prelude : Option (List String))
    (h : Midway x s out held (.branch a (.atRule n q) (.branch b (.atRule m r) vs :: us) :: rest))
    (hm : o.bubbles m = true) :
    ∃ s' g, Runs (escape o selectors prelude (x.anchor out) b : Edit ρ NodeId) s s'
        (x.anchor (out ++ [g])) ∧
      Midway x s' (out ++ [g]) held (.branch a (.atRule n q) us :: rest) ∧
      ∀ k ≤ x.base.size, inside o none (fun _ => false) true (prelude.getD selectors)
        prelude.isSome ((Tree.branch b (.atRule m r) vs).map (origin k)) =
          .lifted [g.map (origin k)] := by
  have hblock : s.isBubblingBlock o b = true := (h.inner.holds.1.isBubblingBlock_eq o).trans hm
  obtain ⟨s₁, vs', hrun, hb, hwrap⟩ := runs_bubbleAll (ρ := ρ) o (prelude.getD selectors)
    prelude.isNone h.inner
  obtain ⟨s', hrun', h'⟩ := runs_changed_lift h hrun (g := .branch b (.atRule m r) vs') rfl rfl hb
  refine ⟨s', _, .bind_look ?_, h', fun k hk => ?_⟩
  · rw [hblock]
    exact hrun'
  · have hsome : (!prelude.isNone) = prelude.isSome := by cases prelude <;> rfl
    have hw := hwrap k (Nat.le_trans hk h.ledger.grown)
    rw [hsome] at hw
    simp [Tree.map, inside, hm, hw]

theorem runs_escape_rule {r : List String} (selectors : List String)
    (prelude : Option (List String))
    (h : Midway x s out held (.branch a (.atRule n q) (.branch b (.rule r) vs :: us) :: rest)) :
    ∃ s' g, Runs (escape o selectors prelude (x.anchor out) b : Edit ρ NodeId) s s'
        (x.anchor (out ++ [g])) ∧
      Midway x s' (out ++ [g]) held (.branch a (.atRule n q) us :: rest) ∧
      ∀ k ≤ x.base.size, inside o none (fun _ => false) true (prelude.getD selectors)
        prelude.isSome ((Tree.branch b (.rule r) vs).map (origin k)) =
          .lifted [g.map (origin k)] := by
  have hblock : s.isBubblingBlock o b = false := h.inner.holds.1.isBubblingBlock_eq o
  cases prelude with
  | none =>
    obtain ⟨s', hrun, h'⟩ := runs_changed_lift h (runs_pure (ρ := ρ) s ()) rfl rfl
      (Becomes.refl h.inner)
    refine ⟨s', _, .bind_look ?_, h', fun k _ => inside_rule ..⟩
    rw [hblock]
    exact hrun
  | some parents =>
    obtain ⟨s₁, hresolve, hb⟩ := runs_resolve (ρ := ρ) h.inner parents
    obtain ⟨s', hrun, h'⟩ := runs_changed_lift h hresolve
      (g := .branch b (.rule (nest parents r)) vs) rfl rfl hb
    refine ⟨s', _, .bind_look ?_, h', fun k _ => inside_rule ..⟩
    rw [hblock]
    exact hrun

theorem runs_escape_unwrapped {m r : String} (selectors : List String)
    (prelude : Option (List String))
    (h : Midway x s out held (.branch a (.atRule n q) (.branch b (.atRule m r) vs :: us) :: rest))
    (hm : o.bubbles m = false) :
    ∃ s', Runs (escape o selectors prelude (x.anchor out) b : Edit ρ NodeId) s s'
        (x.anchor (out ++ [.branch b (.atRule m r) vs])) ∧
      Midway x s' (out ++ [.branch b (.atRule m r) vs]) held
        (.branch a (.atRule n q) us :: rest) := by
  have hblock : s.isBubblingBlock o b = false := (h.inner.holds.1.isBubblingBlock_eq o).trans hm
  cases prelude with
  | none =>
    obtain ⟨s', hrun, h'⟩ := runs_changed_lift h (runs_pure (ρ := ρ) s ()) rfl rfl
      (Becomes.refl h.inner)
    refine ⟨s', .bind_look ?_, h'⟩
    rw [hblock]
    exact hrun
  | some parents =>
    have hstay : Runs (resolve parents b : Edit ρ Unit) s s () :=
      runs_resolve_of_not_rule h.inner.holds.1.isRule_eq parents
    obtain ⟨s', hrun, h'⟩ := runs_changed_lift h hstay rfl rfl (Becomes.refl h.inner)
    refine ⟨s', .bind_look ?_, h'⟩
    rw [hblock]
    exact hrun

/-- What stands alone leaves a root rule. -/
theorem runs_escape (selectors : List String) (prelude : Option (List String))
    (h : Midway x s out held (.branch a (.atRule n q) (u :: us) :: rest))
    (hu : u.standsAlone o true = true) :
    ∃ s' g, Runs (escape o selectors prelude (x.anchor out) u.label : Edit ρ NodeId) s s'
        (x.anchor (out ++ [g])) ∧
      Midway x s' (out ++ [g]) held (.branch a (.atRule n q) us :: rest) ∧
      ∀ k ≤ x.base.size, inside o none (fun _ => false) true (prelude.getD selectors)
        prelude.isSome (u.map (origin k)) = .lifted [g.map (origin k)] := by
  rcases u with ⟨b, l⟩ | ⟨b, m, r⟩ | ⟨b, _ | r | ⟨m, r⟩, vs⟩
  · simp [standsAlone, Tree.isRule, Tree.isBubblingBlock, Tree.isUnwrappedBlock] at hu
  · simp [standsAlone, Tree.isRule, Tree.isBubblingBlock, Tree.isUnwrappedBlock] at hu
  · simp [standsAlone, Tree.isRule, Tree.isBubblingBlock, Tree.isUnwrappedBlock] at hu
  · exact runs_escape_rule selectors prelude h
  · cases hm : o.bubbles m with
    | true => exact runs_escape_bubbling selectors prelude h hm
    | false =>
      have hw : o.unwraps m = true := by
        simpa [standsAlone, Tree.isRule, Tree.isBubblingBlock, Tree.isUnwrappedBlock, hm] using hu
      obtain ⟨s', hrun, h'⟩ := runs_escape_unwrapped (ρ := ρ) selectors prelude h hm
      exact ⟨s', _, hrun, h', fun k _ => by simp [Tree.map, inside, hm, hw, flatAll_still]⟩

end Escape

/-- The loop over what leaves a root rule. -/
theorem runs_escapeAll {a : NodeId} {n q : String} (selectors : List String)
    (prelude : Option (List String)) {us : List (Tree NodeId)} {s : Store}
    {out : List (Tree NodeId)} (h : Midway x s out held (.branch a (.atRule n q) us :: rest))
    (hus : ∀ u ∈ us, u.standsAlone o true = true) :
    ∃ s' gs, Runs ((us.map label).foldlM (escape o selectors prelude) (x.anchor out) :
        Edit ρ NodeId) s s' (x.anchor (out ++ gs)) ∧
      Midway x s' (out ++ gs) held (.branch a (.atRule n q) [] :: rest) ∧
      ∀ k ≤ x.base.size, insideAll o none (fun _ => false) true (prelude.getD selectors)
        prelude.isSome (mapAll (origin k) us) = gs.map fun g => .lifted [g.map (origin k)] := by
  induction us generalizing s out with
  | nil =>
    exact ⟨s, [], by simpa using runs_pure s _, by simpa using h, fun _ _ => rfl⟩
  | cons u us ih =>
    obtain ⟨hu, hus⟩ := List.forall_mem_cons.1 hus
    obtain ⟨s₁, g, hrun, h₁, hg⟩ := runs_escape (ρ := ρ) selectors prelude h hu
    obtain ⟨s', gs, hrun', h', hgs⟩ := ih h₁ hus
    rw [List.append_assoc, List.singleton_append] at hrun' h'
    refine ⟨s', g :: gs, runs_foldlM_cons hrun hrun', h', fun k hk => ?_⟩
    rw [mapAll, insideAll, hg k hk, hgs k hk]
    rfl

theorem inside_of_not_alone {unwrap : Bool} (merge : Bool) (selectors : List String) (k : Nat)
    (ht : t.standsAlone o unwrap = false) :
    inside o none (fun _ => false) unwrap selectors merge (t.map (origin k)) =
      .movable [t.map (origin k)] := by
  rcases t with ⟨a, l⟩ | ⟨a, n, q⟩ | ⟨a, _ | r | ⟨n, q⟩, us⟩
  · rfl
  · rfl
  · simp [Tree.map, inside, flatAll_still]
  · simp [standsAlone, Tree.isRule] at ht
  · simp only [standsAlone, Tree.isRule, Tree.isBubblingBlock, Tree.isUnwrappedBlock,
      Bool.false_or, Bool.or_eq_false_iff] at ht
    simp [Tree.map, inside, flatAll_still, ht.1, ht.2]

theorem inside_of_alone {unwrap : Bool} (merge : Bool) (selectors : List String) (k : Nat)
    (ht : t.standsAlone o unwrap = true) :
    ∃ gs, inside o none (fun _ => false) unwrap selectors merge (t.map (origin k)) =
      .lifted gs := by
  rcases t with ⟨a, l⟩ | ⟨a, n, q⟩ | ⟨a, _ | r | ⟨n, q⟩, us⟩
  · simp [standsAlone, Tree.isRule, Tree.isBubblingBlock, Tree.isUnwrappedBlock] at ht
  · simp [standsAlone, Tree.isRule, Tree.isBubblingBlock, Tree.isUnwrappedBlock] at ht
  · simp [standsAlone, Tree.isRule, Tree.isBubblingBlock, Tree.isUnwrappedBlock] at ht
  · exact ⟨_, inside_rule ..⟩
  · simp only [Tree.map, inside]
    cases hb : o.bubbles n with
    | true => exact ⟨_, rfl⟩
    | false =>
      have hw : (unwrap && o.unwraps n) = true := by
        simpa [standsAlone, Tree.isRule, Tree.isBubblingBlock, Tree.isUnwrappedBlock, hb] using ht
      exact ⟨_, by simp only [hw, if_true]; rfl⟩

/-- What leaves a root rule, and what of it goes first, in a rule of its own. -/
theorem parts_insideAll (o : Options) (unwrap merge : Bool) (selectors : List String) (k : Nat)
    (us : List (Tree NodeId)) :
    Share.leftovers (insideAll o none (fun _ => false) unwrap selectors merge
        (mapAll (origin k) us)) = mapAll (origin k) (us.filter fun u => !u.standsAlone o unwrap) ∧
      Share.goers (insideAll o none (fun _ => false) unwrap selectors merge
        (mapAll (origin k) us)) =
          Share.goers (insideAll o none (fun _ => false) unwrap selectors merge
            (mapAll (origin k) (us.filter fun u => u.standsAlone o unwrap))) := by
  induction us with
  | nil => exact ⟨rfl, rfl⟩
  | cons u us ih =>
    cases hu : u.standsAlone o unwrap with
    | true =>
      obtain ⟨gs, hgs⟩ := inside_of_alone merge selectors k hu
      simp [mapAll, insideAll, hgs, Share.leftovers, Share.goers, hu, ih]
    | false =>
      have hmove := inside_of_not_alone merge selectors k hu
      simp [mapAll, insideAll, hmove, Share.leftovers, Share.goers, hu, ih]

theorem goers_lifted {α β : Type} (f : α → List (Tree β)) (gs : List α) :
    Share.goers (gs.map fun g => .lifted (f g)) = gs.flatMap f := by
  induction gs with
  | nil => rfl
  | cons g gs ih => simp [Share.goers, ih]

/-- What leaves a root rule, put together: the copy goes first. -/
theorem mapAll_gone {selectors : List String} {merge : Bool} {k n : NodeId}
    (us gs : List (Tree NodeId)) (hn : origin k n = none)
    (hgs : insideAll o none (fun _ => false) true selectors merge
      (mapAll (origin k) (us.filter fun u => u.standsAlone o true)) =
        gs.map fun g => .lifted [g.map (origin k)]) :
    mapAll (origin k)
        (Share.copy n selectors (us.filter fun u => !u.standsAlone o true) ++ gs) =
      Share.wrap none selectors
        (insideAll o none (fun _ => false) true selectors merge (mapAll (origin k) us)) := by
  obtain ⟨hleft, hgoers⟩ := parts_insideAll o true merge selectors k us
  rw [Share.wrap, hleft, hgoers, hgs, goers_lifted, mapAll_append, mapAll_copy, hn,
    mapAll_eq (origin k) gs, List.map_eq_flatMap]

/-- What `f` picks out of an at-rule that is next to come goes first, in a copy of the rule. -/
theorem runs_gather_first {a : NodeId} {n q : String} {us : List (Tree NodeId)}
    (selectors : List String) (f : Tree NodeId → Bool)
    (h : Midway x s out held (.branch a (.atRule n q) us :: rest)) :
    ∃ s', Runs (if ((us.filter f).map label).isEmpty then pure (x.anchor out)
          else gather a selectors ((us.filter f).map label) >>= lift (x.anchor out) :
        Edit ρ NodeId) s s' (x.anchor (out ++ Share.copy s.size selectors (us.filter f))) ∧
      Midway x s' (out ++ Share.copy s.size selectors (us.filter f)) held
        (.branch a (.atRule n q) (us.filter fun u => !f u) :: rest) := by
  by_cases hw : us.filter f = []
  · rw [filter_not_of_filter_eq_nil hw, hw]
    exact ⟨s, by simpa [Share.copy] using runs_pure s _, by simpa [Share.copy] using h⟩
  · have hmarked : us = (us.map fun u => (f u, u)).map Prod.snd := by simp [Function.comp_def]
    rw [hmarked] at h
    obtain ⟨s', hrun, h'⟩ := h.gatherInner (ρ := ρ) selectors
    rw [waiting_mark] at hrun h'
    rw [staying_mark] at h'
    refine ⟨s', ?_, by simpa [Share.copy, hw] using h'⟩
    simpa [Share.copy, hw] using hrun

theorem runs_dissolve {a : NodeId} {n q : String} {us : List (Tree NodeId)}
    (h : Midway x s out held (.branch a (.atRule n q) us :: rest)) :
    ∃ s' gs, Runs (dissolve o x.selectors (x.anchor out) a : Edit ρ NodeId) s s'
        (x.anchor (out ++ gs)) ∧
      Midway x s' (out ++ gs) held rest ∧
      ∀ k ≤ x.base.size, mapAll (origin k) gs = Share.wrap none ((rootPrelude q).getD x.selectors)
        (insideAll o none (fun _ => false) true ((rootPrelude q).getD x.selectors)
          (rootPrelude q).isSome (mapAll (origin k) us)) := by
  set selectors := (rootPrelude q).getD x.selectors
  have hp := h.next
  have hcell : s.get? a = some (.atRule n q (some (us.map label)) (some x.rule)) := hp.holds.1.1
  have hchildren : s.children a = us.map label := hp.holds.1.children_eq
  have hparts : (s.children a).partition (s.liftsAlone o) =
      ((us.filter fun u => u.standsAlone o true).map label,
        (us.filter fun u => !u.standsAlone o true).map label) := by
    rw [hchildren, List.partition_eq_filter_filter,
      hp.below.holds.filter_label _ _ fun u _ hu => hu.liftsAlone_eq o,
      hp.below.holds.filter_label _ (fun u => !u.standsAlone o true) fun u _ hu => by
        simp [hu.liftsAlone_eq]]
  obtain ⟨s₁, hfirst, h₁⟩ := runs_gather_first (ρ := ρ) selectors
    (fun u => !u.standsAlone o true) h
  simp only [Bool.not_not] at h₁
  obtain ⟨s₂, gs, hrest, h₂, hgs⟩ := runs_escapeAll (ρ := ρ) x.selectors (rootPrelude q) h₁
    fun u hu => (List.mem_filter.1 hu).2
  rw [List.append_assoc] at hrest h₂
  refine ⟨_, _, ?_, h₂.inside (h₂.next.drop rfl rfl), fun k hk =>
    mapAll_gone us gs (origin_of_le (Nat.le_trans hk h.ledger.grown)) (hgs k hk)⟩
  refine .bind_look (.bind_look ?_)
  rw [hcell, hparts]
  cases hempty : ((us.filter fun u => !u.standsAlone o true).map label).isEmpty <;>
    rw [hempty] at hfirst
  · exact hfirst.bind (hrest.bind ((runs_change s₂ _).bind (runs_pure _ _)))
  · exact hfirst.bind (hrest.bind ((runs_change s₂ _).bind (runs_pure _ _)))

theorem runs_dissolve_statement {a : NodeId} {n q : String}
    (h : Midway x s out held (.statement a n q :: rest)) :
    ∃ s', Runs (dissolve o x.selectors (x.anchor out) a : Edit ρ NodeId) s s' (x.anchor out) ∧
      Midway x s' out held rest := by
  have hcell : s.get? a = some (.atRule n q none (some x.rule)) := h.next.holds.1
  have hchildren : s.children a = [] := h.next.holds.1.children_eq
  refine ⟨_, .bind_look (.bind_look ?_), h.inside (h.next.drop rfl rfl)⟩
  rw [hchildren]
  exact (runs_pure s _).bind ((runs_pure s _).bind ((runs_change s _).bind (runs_pure _ _)))

/-- The first of the children to come changes where it stands and leaves the rule. -/
theorem Midway.changed_lift {g : Tree NodeId} {s₁ : Store} {m : Edit ρ Unit}
    (h : Midway x s out held (t :: rest)) (hm : Runs m s s₁ ()) (hleaf : g.isLeaf = false)
    (hl : g.label = t.label)
    (hb : Becomes s s₁ x.rule x.ruleCell (held.map label) (rest.map label) [t] [g]) :
    ∃ s', Runs (m >>= fun _ => Pass.lift (x.anchor out) t.label) s s' (x.anchor (out ++ [g])) ∧
      Midway x s' (out ++ [g]) held rest := by
  obtain ⟨s', hrun, h'⟩ := (h.inside hb).lift (ρ := ρ) hleaf
  rw [hl] at hrun
  exact ⟨s', hm.bind hrun, h'⟩

/-- A child that does not belong in the rule leaves it. -/
theorem runs_release (h : Midway x s out held (t :: rest))
    (hgo : (t.cell x.rule).role o ≠ .fixed ∧ (t.cell x.rule).role o ≠ .movable) :
    ∃ s' gs, Runs (release o x.selectors (x.anchor out) t.label ((t.cell x.rule).role o) :
        Edit ρ NodeId) s s' (x.anchor (out ++ gs)) ∧
      Midway x s' (out ++ gs) held rest ∧
      ∀ k ≤ x.base.size, share o none (fun _ => false) x.selectors (t.map (origin k)) =
        .lifted (mapAll (origin k) gs) := by
  rcases t with ⟨a, l⟩ | ⟨a, n, q⟩ | ⟨a, _ | r | ⟨n, q⟩, us⟩
  · cases l <;> simp [cell, Node.role] at hgo
  · cases hroot : o.namesRootRule n with
    | true =>
      obtain ⟨s', hrun, h'⟩ := runs_dissolve_statement (ρ := ρ) (o := o) h
      refine ⟨s', [], ?_, by simpa using h', fun k _ => by simp [Tree.map, share, hroot, mapAll]⟩
      simpa [cell, Node.role, hroot, release, label] using hrun
    | false =>
      cases hbub : o.bubbles n with
      | true =>
        obtain ⟨s', hrun, h'⟩ := h.changed_lift
          (runs_bubbleAll_statement (ρ := ρ) o x.selectors false h.next) rfl rfl
          (Becomes.refl h.next)
        refine ⟨s', _, ?_, h', fun k _ => by simp [Tree.map, share, hroot, hbub, mapAll]⟩
        simpa [cell, Node.role, hroot, hbub, release, label] using hrun
      | false =>
        have hw : o.unwraps n = true := by simpa [cell, Node.role, hroot, hbub] using hgo.2
        obtain ⟨s', hrun, h'⟩ := h.lift (ρ := ρ) rfl
        refine ⟨s', _, ?_, h', fun k _ => by simp [Tree.map, share, hroot, hbub, hw, mapAll]⟩
        simpa [cell, Node.role, hroot, hbub, hw, release, label] using hrun
  · exact h.next.holds.1.elim
  · obtain ⟨s₁, hresolve, hb⟩ := runs_resolve (ρ := ρ) h.next x.selectors
    obtain ⟨s', hrun, h'⟩ := h.changed_lift (g := .branch a (.rule (nest x.selectors r)) us)
      hresolve rfl rfl hb
    exact ⟨s', _, hrun, h', fun k _ => by simp [Tree.map, share, place, flatAll_still, mapAll]⟩
  · cases hroot : o.namesRootRule n with
    | true =>
      obtain ⟨s', gs, hrun, h', hgs⟩ := runs_dissolve (ρ := ρ) (o := o) h
      refine ⟨s', gs, ?_, h', fun k hk => by simp [Tree.map, share, hroot, hgs k hk]⟩
      simpa [cell, Node.role, hroot, release, label] using hrun
    | false =>
      cases hbub : o.bubbles n with
      | true =>
        obtain ⟨s₁, us', hbubble, hb, hwrap⟩ := runs_bubbleAll (ρ := ρ) o x.selectors false h.next
        obtain ⟨s', hrun, h'⟩ := h.changed_lift (g := .branch a (.atRule n q) us')
          hbubble rfl rfl hb
        refine ⟨s', _, ?_, h', fun k hk => ?_⟩
        · simpa [cell, Node.role, hroot, hbub, release, label] using hrun
        · have hw := hwrap k (Nat.le_trans hk h.ledger.grown)
          rw [Bool.not_false] at hw
          simp [Tree.map, share, hroot, hbub, mapAll, hw]
      | false =>
        have hw : o.unwraps n = true := by simpa [cell, Node.role, hroot, hbub] using hgo.2
        obtain ⟨s', hrun, h'⟩ := h.lift (ρ := ρ) rfl
        refine ⟨s', _, ?_, h', fun k _ => ?_⟩
        · simpa [cell, Node.role, hroot, hbub, hw, release, label] using hrun
        · simp [Tree.map, share, hroot, hbub, hw, mapAll, flatAll_still]

/-- What the loop has yet to make of the children to come, `shares`, and of the marked ones that it
has handled. -/
structure Comes (k : Nat) (selectors : List String) (split : Bool) (out : List (Tree NodeId))
    (marked : List (Bool × Tree NodeId)) (shares : List (Share (Option NodeId)))
    (split' : Bool) (out' : List (Tree NodeId)) (marked' : List (Bool × Tree NodeId)) : Prop where
  out : mapAll (origin k) out' ++ Share.copy none selectors (mapAll (origin k) (waiting marked')) =
    mapAll (origin k) out ++
      Share.left none selectors split (mapAll (origin k) (waiting marked)) shares
  staying : mapAll (origin k) (staying marked') =
    mapAll (origin k) (staying marked) ++ Share.kept split shares
  split : split' = (split || shares.any Share.isLifted)

theorem waiting_concat (marked : List (Bool × Tree NodeId)) (b : Bool) (t : Tree NodeId) :
    waiting (marked ++ [(b, t)]) = waiting marked ++ if b then [t] else [] := by
  cases b <;> simp [waiting]

theorem staying_concat (marked : List (Bool × Tree NodeId)) (b : Bool) (t : Tree NodeId) :
    staying (marked ++ [(b, t)]) = staying marked ++ if b then [] else [t] := by
  cases b <;> simp [staying]

section Comes

variable {k : Nat} {selectors : List String} {split split' : Bool} {out' : List (Tree NodeId)}
  {marked marked' : List (Bool × Tree NodeId)} {shares : List (Share (Option NodeId))}

theorem Comes.nil (k : Nat) (selectors : List String) (split : Bool) (out : List (Tree NodeId))
    (marked : List (Bool × Tree NodeId)) : Comes k selectors split out marked [] split out marked :=
  ⟨rfl, by simp [Share.kept], by simp⟩

theorem Comes.fixed
    (h : Comes k selectors split out (marked ++ [(false, t)]) shares split' out' marked') :
    Comes k selectors split out marked (.fixed [t.map (origin k)] :: shares)
      split' out' marked' := by
  obtain ⟨ho, hs, hsp⟩ := h
  refine ⟨?_, ?_, ?_⟩
  · simpa [Share.left, waiting_concat] using ho
  · simpa [mapAll, Share.kept, staying_concat, mapAll_append] using hs
  · simpa [Share.isLifted] using hsp

/-- A declaration is marked if something has left before it. -/
theorem Comes.movable
    (h : Comes k selectors split out (marked ++ [(split, t)]) shares split' out' marked') :
    Comes k selectors split out marked (.movable [t.map (origin k)] :: shares)
      split' out' marked' := by
  obtain ⟨ho, hs, hsp⟩ := h
  refine ⟨?_, ?_, ?_⟩
  · cases split <;> simpa [mapAll, Share.left, waiting_concat, mapAll_append] using ho
  · cases split <;> simpa [mapAll, Share.kept, staying_concat, mapAll_append] using hs
  · simpa [Share.isLifted] using hsp

theorem waiting_unmarked (ts : List (Tree NodeId)) :
    waiting (ts.map fun u => (false, u)) = [] := by
  simpa using waiting_mark (fun _ => false) ts

theorem staying_unmarked (ts : List (Tree NodeId)) :
    staying (ts.map fun u => (false, u)) = ts := by
  simpa using staying_mark (fun _ => false) ts

/-- What waits goes before what leaves, and what stays starts over without marks. -/
theorem Comes.lifted {n : NodeId} {gs : List (Tree NodeId)} (hn : origin k n = none)
    (h : Comes k selectors true (out ++ Share.copy n selectors (waiting marked) ++ gs)
      ((Tree.staying marked).map fun u => (false, u)) shares split' out' marked') :
    Comes k selectors split out marked (.lifted (mapAll (origin k) gs) :: shares)
      split' out' marked' := by
  obtain ⟨ho, hs, hsp⟩ := h
  refine ⟨?_, ?_, ?_⟩
  · rw [ho, waiting_unmarked]
    simp [Share.left, mapAll, mapAll_append, mapAll_copy, hn]
  · rw [hs, staying_unmarked]
    rfl
  · rw [hsp]
    simp [Share.isLifted]

end Comes

theorem share_of_fixed {p : NodeId} (selectors : List String) (k : Nat) (hroot : t.isRoot = false)
    (h : (t.cell p).role o = .fixed) :
    share o none (fun _ => false) selectors (t.map (origin k)) = .fixed [t.map (origin k)] := by
  rcases t with ⟨a, l⟩ | ⟨a, n, q⟩ | ⟨a, _ | r | ⟨n, q⟩, us⟩
  · cases l with
    | comment _ => rfl
    | declaration _ => cases h
    | raw _ => cases h
  · simp only [cell, Node.role] at h
    split_ifs at h
  · cases hroot
  · cases h
  · simp only [cell, Node.role] at h
    split_ifs at h

theorem share_of_movable {p : NodeId} (selectors : List String) (k : Nat)
    (h : (t.cell p).role o = .movable) :
    share o none (fun _ => false) selectors (t.map (origin k)) = .movable [t.map (origin k)] := by
  rcases t with ⟨a, l⟩ | ⟨a, n, q⟩ | ⟨a, _ | r | ⟨n, q⟩, us⟩
  · cases l with
    | comment _ => cases h
    | declaration _ => rfl
    | raw _ => rfl
  · simp only [cell, Node.role] at h
    split_ifs at h with h₁ h₂ h₃
    simp [Tree.map, share, h₁, h₂, h₃]
  · cases h
  · cases h
  · simp only [cell, Node.role] at h
    split_ifs at h with h₁ h₂ h₃
    simp [Tree.map, share, h₁, h₂, h₃, flatAll_still]

theorem Midway.keep (h : Midway x s out held (t :: rest)) : Midway x s out (held ++ [t]) rest := by
  have hall : held ++ (t :: rest) = held ++ [t] ++ rest := by simp
  exact ⟨by have hl := h.ledger; rwa [List.append_assoc, hall, ← List.append_assoc] at hl,
    h.isContainer, h.atContainer, by rw [← hall]; exact h.atRule, h.gone, h.linked,
    by rw [← hall]; exact h.left⟩

theorem runs_handle_of_go {s₁ s₂ : Store} {sel : List String} {p : Progress}
    {rule after n n₂ : NodeId} (hgo : s.role o n ≠ .fixed ∧ s.role o n ≠ .movable)
    (hflush : Runs (flush rule sel p.pending p.after : Edit ρ NodeId) s s₁ after)
    (hrel : Runs (release o sel after n (s.role o n) : Edit ρ NodeId) s₁ s₂ n₂) :
    Runs (handle o rule sel p n : Edit ρ Progress) s s₂ ⟨n₂, true, []⟩ := by
  refine .bind_look ?_
  cases hr : s.role o n with
  | fixed => exact absurd hr hgo.1
  | movable => exact absurd hr hgo.2
  | nested | rootRule | bubbling | unwrapped =>
    rw [hr] at hrel
    exact hflush.bind (hrel.bind (runs_pure s₂ _))

/-- The loop of `unnestChildren`. -/
theorem runs_handleAll {rest : List (Tree NodeId)} {s : Store} {out : List (Tree NodeId)}
    (marked : List (Bool × Tree NodeId)) (split : Bool)
    (h : Midway x s out (marked.map Prod.snd) rest) :
    ∃ s' split' out' marked', Runs ((rest.map label).foldlM (handle o x.rule x.selectors)
        ⟨x.anchor out, split, (waiting marked).map label⟩ : Edit ρ Progress) s s'
        ⟨x.anchor out', split', (waiting marked').map label⟩ ∧
      Midway x s' out' (marked'.map Prod.snd) [] ∧
      ∀ k ≤ x.base.size, Comes k x.selectors split out marked
        (shareAll o none (fun _ => false) x.selectors (mapAll (origin k) rest))
        split' out' marked' := by
  induction rest generalizing s out marked split with
  | nil =>
    exact ⟨s, split, out, marked, runs_pure s _, h, fun k _ => Comes.nil ..⟩
  | cons t rest ih =>
    have hrole : s.role o t.label = (t.cell x.rule).role o := h.next.holds.1.role_eq o
    by_cases hfixed : (t.cell x.rule).role o = .fixed
    · obtain ⟨s', split', out', marked', hrun, h', hcomes⟩ := ih (marked ++ [(false, t)]) split
        (by simpa using h.keep)
      refine ⟨s', split', out', marked', runs_foldlM_cons (.bind_look ?_) hrun, h', fun k hk => ?_⟩
      · rw [hrole, hfixed, waiting_concat]
        simpa using runs_pure s _
      · rw [mapAll, shareAll,
          share_of_fixed x.selectors k ((holds_iff t).1 h.next.holds.1).2.1 hfixed]
        exact (hcomes k hk).fixed
    by_cases hmovable : (t.cell x.rule).role o = .movable
    · obtain ⟨s', split', out', marked', hrun, h', hcomes⟩ := ih (marked ++ [(split, t)]) split
        (by simpa using h.keep)
      refine ⟨s', split', out', marked', runs_foldlM_cons (.bind_look ?_) hrun, h', fun k hk => ?_⟩
      · rw [hrole, hmovable, waiting_concat]
        cases split <;> simpa using runs_pure s _
      · rw [mapAll, shareAll, share_of_movable x.selectors k hmovable]
        exact (hcomes k hk).movable
    · obtain ⟨s₁, hflush, h₁⟩ := h.flush (ρ := ρ)
      obtain ⟨s₂, gs, hrel, h₂, hgs⟩ := runs_release (ρ := ρ) h₁ ⟨hfixed, hmovable⟩
      have hmarks : ((staying marked).map fun u => (false, u)).map Prod.snd = staying marked := by
        simp [Function.comp_def]
      obtain ⟨s', split', out', marked', hrun, h', hcomes⟩ := ih
        ((staying marked).map fun u => (false, u)) true (by rw [hmarks]; exact h₂)
      rw [waiting_unmarked] at hrun
      rw [← hrole] at hrel
      refine ⟨s', split', out', marked', runs_foldlM_cons (runs_handle_of_go ?_ hflush hrel) hrun,
        h', fun k hk => ?_⟩
      · rw [hrole]
        exact ⟨hfixed, hmovable⟩
      · rw [mapAll, shareAll, hgs k hk]
        exact (hcomes k hk).lifted (origin_of_le (Nat.le_trans hk h.ledger.grown))

section Rule

variable {p r : NodeId} {y : Node} {before after : List NodeId} {selectors : List String}
  {children : List (Tree NodeId)}

theorem Midway.start (h : s.Part p y before after [.branch r (.rule selectors) children]) :
    Midway ⟨s, r, selectors, p, y, before, after, children⟩ s [] [] children := by
  have honce := h.once
  have hlt := h.lt_size
  have hplt := lt_size_of_get? h.place
  have hold := h.old
  simp only [labelsAll, labels, List.append_nil, List.mem_cons] at honce hlt
  refine ⟨⟨?_, ?_, ?_, fun n hn => hlt n (.inr hn), fun _ => .inl, Nat.le_refl _,
    fun _ _ _ _ _ => rfl, fun n hn hnot => absurd hn hnot⟩, h.isContainer, h.place, h.holds.1.1,
    trivial, by simp, h.holds.1.2⟩
  · exact ((List.perm_middle.trans (List.Perm.swap ..)).nodup_iff).1 honce
  · simp only [Site.fixed, List.mem_append, List.mem_cons] at hold ⊢
    grind
  · exact (List.nodup_cons.1 (List.nodup_append.1 honce).2.1).2

theorem Midway.becomes (h : Midway x s out held [])
    (hp : x.base.Part x.container x.cell x.before x.after
      [.branch x.rule (.rule x.selectors) x.children]) :
    Becomes x.base s x.container x.cell x.before x.after
      [.branch x.rule (.rule x.selectors) x.children]
      (.branch x.rule (.rule x.selectors) held :: out) := by
  have honce := h.ledger.once
  have hfixed : ∀ n ∈ labelsAll (out ++ held ++ []), n ∉ x.fixed := fun n => h.ledger.not_mem_fixed
  have hstart := h.ledger.start
  have hknown := h.ledger.known
  have hatRule := h.atRule
  have hleft := h.left
  simp only [List.append_nil] at hatRule hleft
  simp only [labelsAll_append, List.append_nil, List.nodup_append, List.nodup_cons,
    List.mem_append, List.mem_cons, Site.fixed] at honce hfixed hstart hknown
  refine ⟨hp, ⟨h.isContainer, by simpa [label] using h.atContainer, ⟨⟨hatRule, hleft⟩, h.gone⟩, ?_,
    fun n hn => Nat.lt_of_lt_of_le (hp.old n hn) h.ledger.grown⟩, h.ledger.grown, ?_, ?_, ?_⟩
  · simp only [labelsAll, labels, List.nodup_append, List.nodup_cons, List.mem_append,
      List.mem_cons]
    grind
  · intro m hm hc hn
    simp only [labelsAll, labels, List.append_nil, List.mem_cons, not_or] at hn
    exact h.ledger.same m hm hc hn.1 hn.2
  · intro n hn
    simp only [labelsAll, labels, List.append_nil, List.cons_append, List.mem_cons,
      List.mem_append] at hn ⊢
    grind
  · intro n hn hnot
    simp only [labelsAll, labels, List.append_nil, List.cons_append, List.mem_cons,
      List.mem_append, not_or] at hn hnot
    exact h.ledger.gone n (hn.resolve_left hnot.1) (by simp [labelsAll_append, hnot.2.1, hnot.2.2])

theorem runs_unnestChildren
    (h : s.Part p y before after [.branch r (.rule selectors) children]) :
    ∃ s' ts', Runs (unnestChildren o r selectors (children.map label) : Edit ρ Unit) s s' () ∧
      Becomes s s' p y before after [.branch r (.rule selectors) children] ts' ∧
      ∀ k ≤ s.size, mapAll (origin k) ts' = Share.apart o none (origin k r) selectors
        (shareAll o none (fun _ => false) selectors (mapAll (origin k) children)) := by
  obtain ⟨s₁, split, out, marked, hloop, h₁, hcomes⟩ := runs_handleAll (ρ := ρ) (o := o) []
    false (Midway.start h)
  obtain ⟨s₂, hflush, h₂⟩ := h₁.flush (ρ := ρ)
  have hb := h₂.becomes h
  have hplace := h₂.atRule
  have hchildren : s₂.children r = (staying marked).map label := by
    simpa using children_of_get? hplace rfl
  have hsplit := (hcomes s.size (Nat.le_refl _)).split
  have hout : ∀ k ≤ s.size,
      mapAll (origin k) (out ++ Share.copy s₁.size selectors (waiting marked)) =
        Share.left none selectors false [] (shareAll o none (fun _ => false) selectors
          (mapAll (origin k) children)) := by
    intro k hk
    have ho := (hcomes k hk).out
    rw [mapAll_append, mapAll_copy, origin_of_le (Nat.le_trans hk h₁.ledger.grown)]
    simpa [waiting, mapAll] using ho
  have hkept : ∀ k ≤ s.size, mapAll (origin k) (staying marked) =
      Share.kept false (shareAll o none (fun _ => false) selectors (mapAll (origin k) children)) :=
    fun k hk => by simpa [staying, mapAll] using (hcomes k hk).staying
  have hany : ∀ k ≤ s.size, (shareAll o none (fun _ => false) selectors
      (mapAll (origin k) children)).any Share.isLifted = split := by
    intro k hk
    simpa using (hcomes k hk).split.symm
  cases hdrop : split && !o.preserveEmpty && (staying marked).isEmpty with
  | true =>
    have hnil : staying marked = [] := by
      simp only [Bool.and_eq_true, List.isEmpty_iff] at hdrop
      exact hdrop.2
    have hgone := Becomes.head hb.part ((Part.head hb.part).drop rfl hnil)
    refine ⟨_, _, hloop.bind (hflush.bind (.bind_look ?_)), hb.trans hgone, fun k hk => ?_⟩
    · rw [hchildren, List.isEmpty_map, if_pos hdrop]
      exact .bind_note ((runs_change s₂ _).bind (runs_pure _ _))
    · rw [Share.apart, hany k hk, ← hkept k hk, isEmpty_mapAll, if_pos hdrop]
      exact hout k hk
  | false =>
    refine ⟨_, _, hloop.bind (hflush.bind (.bind_look ?_)), hb, fun k hk => ?_⟩
    · rw [hchildren, List.isEmpty_map, hdrop]
      exact runs_pure _ _
    · rw [Share.apart, hany k hk, ← hkept k hk, isEmpty_mapAll, hdrop, ← hout k hk]
      rfl

/-- A rule of the tree is taken apart, whatever the policy about rules that have left it. -/
theorem runs_unnest (h : s.Part p y before after [.branch r (.rule selectors) children])
    (hroot : s.reachesRoot r = true) :
    ∃ s' ts', Runs (unnest o r : Edit ρ Unit) s s' () ∧
      Becomes s s' p y before after [.branch r (.rule selectors) children] ts' ∧
      ∀ k ≤ s.size, mapAll (origin k) ts' = Share.apart o none (origin k r) selectors
        (shareAll o none (fun _ => false) selectors (mapAll (origin k) children)) := by
  obtain ⟨s', ts', hrun, hb, hts⟩ := runs_unnestChildren (ρ := ρ) (o := o) h
  refine ⟨s', ts', .bind_look ?_, hb, hts⟩
  have hcell : s.get? r = some (.rule selectors (children.map label) (some p)) := h.holds.1.1
  have hstay : ¬ (o.stale = .dispatch ∧ (!s.reachesRoot r) = true) := by simp [hroot]
  rw [hcell]
  refine .bind_look ?_
  rw [if_neg hstay]
  exact hrun

end Rule

end Unnest.Pass
