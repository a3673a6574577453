import Unnest.Proofs.Pass.Histories

/-! Climbing and reaching down. A climb follows links and never looks at a child list; in a store in
order it still tells what the child lists tell. It ends because ranks grow on the way up, and it
misses nothing because a rule or at-rule is listed by the container it links to and by no other. A
node whose container is gone is where a climb ends. -/

namespace Unnest

namespace Store

open Relation

variable {s : Store} {rank : NodeId → ℚ} {n p : NodeId} {test : NodeId → Bool}

/-- One container down to a node that it lists, but not to a root. -/
def ListsInner (s : Store) (p n : NodeId) : Prop := s.Lists p n ∧ s.isRoot n = false

theorem any_climb_succ (s : Store) (test : NodeId → Bool) (bound : Nat) (n : NodeId) :
    (s.climb (bound + 1) n).any test =
      (test n || (((s.parent? n).map (s.climb bound)).getD []).any test) := rfl

/-- The nodes that rank higher are enough levels to climb. -/
theorem Ordered.climbs_any_climb (h : Ordered rank s) (test : NodeId → Bool) (bound : Nat)
    {o : Option NodeId} (hsize : ∀ n ∈ o, n < s.size)
    (hbound : ∀ n ∈ o, s.depth (fun m => - rank m) n < bound) :
    Climbs s test o (((o.map (s.climb bound)).getD []).any test) := by
  induction bound generalizing o with
  | zero =>
    cases o with
    | none => exact .ended
    | some n => exact absurd (hbound n rfl) (Nat.not_lt_zero _)
  | succ bound ih =>
    cases o with
    | none => exact .ended
    | some n =>
      have hup : Climbs s test (s.parent? n)
          ((((s.parent? n).map (s.climb bound)).getD []).any test) := by
        refine ih (fun p hp => ?_) fun p hp => ?_
        · exact lt_size_of_isSome (isSome_of_parent? hp)
        · have hlt : s.depth (fun m => - rank m) p < s.depth (fun m => - rank m) n :=
            depth_lt_of_lt (neg_lt_neg (h.lt_of_parent? hp))
              (lt_size_of_isSome (isSome_of_parent? hp))
          exact Nat.lt_of_lt_of_le hlt (Nat.le_of_lt_succ (hbound n rfl))
      rw [Option.map_some, Option.getD_some, any_climb_succ]
      cases hn : test n with
      | true => exact .found hn
      | false => exact .up hn hup

theorem Ordered.climbs_lineage (h : Ordered rank s) (test : NodeId → Bool) (hn : n < s.size) :
    Climbs s test (some n) ((s.lineage n).any test) :=
  h.climbs_any_climb test s.size (o := some n) (by simpa using hn)
    (by simpa using depth_lt_size _ hn)

theorem Ordered.climbs_above (h : Ordered rank s) (test : NodeId → Bool) (hn : n < s.size) :
    Climbs s test (s.parent? n) ((s.lineage n).tail.any test) := by
  obtain ⟨bound, hbound⟩ := Nat.exists_eq_succ_of_ne_zero (Nat.ne_zero_of_lt hn)
  have hlevel := depth_lt_size (fun m => - rank m) hn
  rw [lineage, hbound, climb, List.tail_cons]
  refine h.climbs_any_climb test bound (fun p hp => ?_) fun p hp => ?_
  · exact lt_size_of_isSome (isSome_of_parent? hp)
  · have hlt : s.depth (fun m => - rank m) p < s.depth (fun m => - rank m) n :=
      depth_lt_of_lt (neg_lt_neg (h.lt_of_parent? hp))
        (lt_size_of_isSome (isSome_of_parent? hp))
    omega

theorem tracks_of_isContainer (hc : s.isContainer n = true) (hr : s.isRoot n = false) :
    s.tracksContainer n = true := by
  unfold Store.isContainer at hc
  unfold Store.isRoot at hr
  unfold tracksContainer
  cases hx : s.get? n with
  | none => simp [hx] at hc
  | some x => cases x <;> simp_all [Node.isContainer, Node.isRoot, Node.tracksContainer]

theorem not_isRoot_of_tracks (h : s.tracksContainer n = true) : s.isRoot n = false := by
  unfold tracksContainer at h
  unfold Store.isRoot
  cases hx : s.get? n with
  | none => rfl
  | some x => cases x <;> simp_all [Node.isRoot, Node.tracksContainer]

theorem isContainer_of_tracks (h : s.tracksContainer n = true) : s.isContainer n = true := by
  unfold tracksContainer at h
  unfold Store.isContainer
  cases hx : s.get? n with
  | none => simp [hx] at h
  | some x => cases x <;> simp_all [Node.isContainer, Node.tracksContainer]

/-- A path to a rule or at-rule comes through the container it links to. -/
theorem Ordered.reaches_iff_parent (h : Ordered rank s) (hn : s.tracksContainer n = true)
    {r : NodeId} (hne : r ≠ n) :
    s.Reaches r n ↔ ∃ p, s.parent? n = some p ∧ s.Reaches r p := by
  constructor
  · intro hr
    rcases ReflTransGen.cases_tail hr with he | ⟨p, hp, hlists⟩
    · exact absurd he.symm hne
    · exact ⟨p, (h.agree n p hn).1 hlists, hp⟩
  · rintro ⟨p, hp, hr⟩
    exact hr.tail ((h.agree n p hn).2 hp)

/-- A climb that looks for a root finds one exactly if a root reaches the node from above. -/
theorem Ordered.climbs_root_iff (h : Ordered rank s) {o : Option NodeId} {answer : Bool}
    (hclimb : Climbs s s.isRoot o answer) :
    ∀ n ∈ o, s.isContainer n = true →
      (answer = true ↔ ∃ r, s.isRoot r = true ∧ s.Reaches r n) := by
  induction hclimb with
  | ended => simp
  | @found n hroot =>
    intro m hm _
    obtain rfl : n = m := Option.some.inj hm
    exact iff_of_true rfl ⟨n, hroot, .refl⟩
  | @up n answer hroot hup ih =>
    intro m hm hcontainer
    obtain rfl : n = m := Option.some.inj hm
    have hn := tracks_of_isContainer hcontainer hroot
    have hreach : (∃ r, s.isRoot r = true ∧ s.Reaches r n) ↔
        ∃ p, s.parent? n = some p ∧ ∃ r, s.isRoot r = true ∧ s.Reaches r p := by
      constructor
      · rintro ⟨r, hr, hrn⟩
        have hne : r ≠ n := fun he => by simp [he, hroot] at hr
        obtain ⟨p, hp, hrp⟩ := (h.reaches_iff_parent hn hne).1 hrn
        exact ⟨p, hp, r, hr, hrp⟩
      · rintro ⟨p, hp, r, hr, hrp⟩
        exact ⟨r, hr, hrp.tail ((h.agree n p hn).2 hp)⟩
    rw [hreach]
    cases hp : s.parent? n with
    | none =>
      rw [hp] at hup
      cases hup
      simp
    | some p =>
      simpa using ih p hp (h.isContainer_of_parent? hp)

/-- A climb above a node that looks for a rule finds one exactly if a rule reaches the node from
above without a root on the way. -/
theorem Ordered.climbs_rule_iff (h : Ordered rank s) {o : Option NodeId} {answer : Bool}
    (hclimb : Climbs s s.isRule o answer) :
    ∀ n, s.tracksContainer n = true → s.parent? n = o →
      (answer = true ↔ ∃ r, s.isRule r = true ∧ TransGen s.ListsInner r n) := by
  have hlast : ∀ n r, s.tracksContainer n = true → TransGen s.ListsInner r n →
      ∃ p, s.parent? n = some p ∧ (r = p ∨ TransGen s.ListsInner r p) := by
    intro n r hn hr
    rcases TransGen.tail'_iff.1 hr with ⟨p, hrp, hlists, -⟩
    refine ⟨p, (h.agree n p hn).1 hlists, ?_⟩
    exact (reflTransGen_iff_eq_or_transGen.1 hrp).imp Eq.symm id
  induction hclimb with
  | ended =>
    intro n hn hp
    refine iff_of_false Bool.false_ne_true ?_
    rintro ⟨r, -, hr⟩
    obtain ⟨p, hp', -⟩ := hlast n r hn hr
    rw [hp] at hp'
    cases hp'
  | @found p hrule =>
    intro n hn hp
    have hstep : s.ListsInner p n := ⟨(h.agree n p hn).2 hp, not_isRoot_of_tracks hn⟩
    exact iff_of_true rfl ⟨p, hrule, .single hstep⟩
  | @up p answer hrule hup ih =>
    intro n hn hp
    have hstep : s.ListsInner p n := ⟨(h.agree n p hn).2 hp, not_isRoot_of_tracks hn⟩
    have habove : (∃ r, s.isRule r = true ∧ TransGen s.ListsInner r n) ↔
        ∃ r, s.isRule r = true ∧ TransGen s.ListsInner r p := by
      constructor
      · rintro ⟨r, hr, hrn⟩
        obtain ⟨q, hq, hrq⟩ := hlast n r hn hrn
        obtain rfl : p = q := Option.some.inj (hp.symm.trans hq)
        refine ⟨r, hr, hrq.resolve_left fun he => ?_⟩
        rw [he, hrule] at hr
        cases hr
      · rintro ⟨r, hr, hrp⟩
        exact ⟨r, hr, hrp.tail hstep⟩
    rw [habove]
    cases hroot : s.isRoot p with
    | false => exact ih p (tracks_of_isContainer (h.isContainer_of_parent? hp) hroot) rfl
    | true =>
      -- a root is in no container, and no path below a rule goes through it
      rw [parent?_of_isRoot hroot] at hup
      cases hup
      refine iff_of_false Bool.false_ne_true ?_
      rintro ⟨r, -, hr⟩
      obtain ⟨q, -, -, hinner⟩ := TransGen.tail'_iff.1 hr
      rw [hroot] at hinner
      cases hinner

end Store

namespace Pass

open Store Relation

/-- In every store that a history leads to, whatever was given up on the way, the climb from a rule
or at-rule ends; it meets a root exactly if one reaches the node through child lists, and a rule on
the way exactly if one reaches it on a path without a root. -/
theorem climbs_as_listed {s : Store} (h : Leads .empty s) {n : NodeId}
    (hn : s.tracksContainer n = true) :
    Climbs s s.isRoot (some n) (s.reachesRoot n) ∧
    (s.reachesRoot n = true ↔ ∃ r, s.isRoot r = true ∧ s.Reaches r n) ∧
    Climbs s s.isRule (s.parent? n) (s.isBelowRule n) ∧
    (s.isBelowRule n = true ↔ ∃ r, s.isRule r = true ∧ TransGen s.ListsInner r n) := by
  obtain ⟨rank, hs⟩ := h.inOrder inOrder_empty
  have hcontainer := isContainer_of_tracks hn
  have hsize := lt_size_of_isSome (isSome_of_isContainer hcontainer)
  have hroot := hs.climbs_lineage s.isRoot hsize
  have hrule := hs.climbs_above s.isRule hsize
  exact ⟨hroot, hs.climbs_root_iff hroot n rfl hcontainer, hrule,
    hs.climbs_rule_iff hrule n hn rfl⟩

/-- The document is given up while its top rule is held: that rule still links to it, and the rule
below stays below a rule but is attached no more. -/
theorem climbs_heldRule :
    let s := chainStore.reclaim [1]
    (s.hasLink 1 = true ∧ s.parent? 1 = none) ∧
    (s.reachesRoot 2 = false ∧ ¬ ∃ r, s.isRoot r = true ∧ s.Reaches r 2) ∧
    s.isBelowRule 2 = true ∧ ∃ r, s.isRule r = true ∧ TransGen s.ListsInner r 2 := by
  intro s
  have hleads : Leads .empty s := leads_chainStore.trans (Leads.reclaim chainStore [1])
  obtain ⟨-, hroot, -, hrule⟩ := climbs_as_listed hleads (n := 2) (by decide)
  have hdetached : s.reachesRoot 2 = false := by decide
  have hbelow : s.isBelowRule 2 = true := by decide
  refine ⟨by decide, ⟨hdetached, fun hr => ?_⟩, hbelow, hrule.1 hbelow⟩
  rw [hroot.2 hr] at hdetached
  cases hdetached

end Pass

end Unnest
