import Unnest.Pass.Unnest
import Unnest.Proofs.Store.Moved

/-! A pass keeps a store in order, also where it fails. `Ends` says how a step ends, and the rules
below put steps together. While a rule is in hand, the children to come and the declarations set
aside stand in it still, and what leaves it goes behind a node that stands higher (`Underway`). -/

namespace Unnest

open Edit Store

variable {ρ α β : Type}

namespace Edit

/-- However the step ends, it leaves the store in order, and if it succeeds with `a` in a store `s'`
then `post a s'`. -/
def Ends (m : Edit ρ α) (s : Store) (post : α → Store → Prop) : Prop :=
  ∀ log own, match m ⟨s, log, own⟩ with
    | .ok a sc => post a sc.store
    | .error _ sc => sc.store.InOrder

variable {s : Store} {post : α → Store → Prop}

theorem Ends.mono {post' : α → Store → Prop} {m : Edit ρ α} (h : Ends m s post)
    (hp : ∀ a s', post a s' → post' a s') : Ends m s post' := by
  intro log own
  have := h log own
  revert this
  cases m ⟨s, log, own⟩ with
  | ok a sc => exact hp a sc.store
  | error e sc => exact id

theorem ends_pure {a : α} (h : post a s) : Ends (pure a : Edit ρ α) s post := fun _ _ => h

theorem ends_throw (e : Error) (h : s.InOrder) : Ends (throw e : Edit ρ α) s post := fun _ _ => h

theorem Ends.bind {m : Edit ρ α} {f : α → Edit ρ β} {mid : α → Store → Prop}
    {post : β → Store → Prop} (h : Ends m s mid) (hf : ∀ a s', mid a s' → Ends (f a) s' post) :
    Ends (m >>= f) s post := by
  intro log own
  have hm := h log own
  simp only [Bind.bind, EStateM.bind]
  revert hm
  cases m ⟨s, log, own⟩ with
  | ok a sc => exact fun hm => hf a sc.store hm sc.log sc.own
  | error e sc => exact id

theorem ends_change {f : Store → α × Store} (h : post (f s).1 (f s).2) :
    Ends (change f : Edit ρ α) s post := fun _ _ => h

theorem Ends.bind_look {f : Store → α} {g : α → Edit ρ β} {post : β → Store → Prop}
    (h : Ends (g (f s)) s post) : Ends (look f >>= g) s post := h

/-- What is found does not matter. -/
theorem Ends.bind_any_look {f : Store → α} {g : α → Edit ρ β} {post : β → Store → Prop}
    (h : ∀ a, Ends (g a) s post) : Ends (look f >>= g) s post := h (f s)

theorem Ends.bind_note {e : Event} {m : Edit ρ α} (h : Ends m s post) :
    Ends (note e >>= fun _ => m) s post := fun log own => h (log.push e) own

theorem Ends.bind_change {f : Store → α × Store} {g : α → Edit ρ β} {post : β → Store → Prop}
    (h : Ends (g (f s).1) (f s).2 post) : Ends (change f >>= g) s post := h

theorem ends_attempt {f : Store → Outcome} {post : Unit → Store → Prop}
    (h : (f s).store.InOrder) (hok : ∀ s', f s = .ok () s' → post () s') :
    Ends (attempt f : Edit ρ Unit) s post := by
  intro log own
  simp only [attempt]
  revert h hok
  cases f s with
  | ok u s' => exact fun _ hok => hok s' rfl
  | error e s' => exact fun h _ => h

/-- A loop keeps what holds for the elements to come. -/
theorem ends_forM {f : α → Edit ρ Unit} (inv : List α → Store → Prop)
    (step : ∀ a as s, inv (a :: as) s → Ends (f a) s fun _ s' => inv as s') {as : List α}
    (h : inv as s) : Ends (as.forM f) s fun _ s' => inv [] s' := by
  induction as generalizing s with
  | nil => exact ends_pure h
  | cons a as ih => exact (step a as s h).bind fun _ _ h => ih h

theorem ends_foldlM {f : β → α → Edit ρ β} (inv : List α → β → Store → Prop)
    (step : ∀ a as b s, inv (a :: as) b s → Ends (f b a) s fun b' s' => inv as b' s')
    {as : List α} {b : β} (h : inv as b s) :
    Ends (as.foldlM f b) s fun b' s' => inv [] b' s' := by
  induction as generalizing s b with
  | nil => exact ends_pure h
  | cons a as ih =>
    rw [List.foldlM_cons]
    exact (step a as b s h).bind fun _ _ h => ih h

end Edit

namespace Pass

open Selector

variable {s : Store} {rank : NodeId → ℚ} {c : ℚ} {ns ns' : List NodeId}
  {q r n after : NodeId}

theorem ends_resolve (h : Ordered rank s) (parents : List String) (n : NodeId) :
    Ends (resolve parents n : Edit ρ Unit) s fun _ s' => Moved c ns rank s rank s' :=
  ends_change (h.moved_editSelectors n _)

/-- The loop of `gather`. -/
theorem ends_takeOver {copy : NodeId} (h : Ordered rank s)
    (hns : ∀ n ∈ ns, (s.get? n).isSome = true ∧ rank n < rank copy) :
    Ends (ns.forM fun n => (do
        let _ ← change (·.remove q n)
        attempt (·.append copy n) : Edit ρ Unit)) s fun _ s' => Moved c ns rank s rank s' := by
  refine (ends_forM (fun rest s' => rest ⊆ ns ∧ Moved c ns rank s rank s')
    (fun n rest s' hinv => ?_) ⟨List.Subset.refl ns, Moved.refl h⟩).mono fun _ _ h => h.2
  obtain ⟨hsub, hm⟩ := hinv
  have hn : n ∈ ns := hsub List.mem_cons_self
  obtain ⟨halive, hlt⟩ := hns n hn
  have hone : ∀ m ∈ [n], m < s.size → m ∈ ns := fun m hm _ => List.mem_singleton.1 hm ▸ hn
  have hr := hm.trans (hm.ordered.moved_remove q n) hone
  have hperm : ∀ cs : List NodeId, (cs ++ [n]).Perm (n :: cs) := fun cs =>
    List.perm_append_singleton n cs
  refine Ends.bind_change (ends_attempt ⟨rank, ?_⟩ fun s₂ hok => ?_)
  · exact hr.ordered.insert (hr.alive n halive) hperm fun _ => hlt
  · exact ⟨fun m hm => hsub (List.mem_cons_of_mem n hm),
      hr.trans (hr.ordered.moved_insert (hr.alive n halive) hperm (fun _ => hlt) hok) hone⟩

/-- The copy ranks between the nodes it takes over and the container they stood in. -/
theorem ends_gather (h : Ordered rank s) (hs : Stock rank s q ns) (selectors : List String) :
    Ends (gather q selectors ns : Edit ρ NodeId) s fun copy s' => copy = s.size ∧
      ∃ rank', Moved c ns rank s rank' s' ∧ (s'.get? copy).isSome = true ∧
        rank' copy < rank' q := by
  obtain ⟨v, hv, hall⟩ := exists_rank_between hs.falls
  have hnew : (Node.rule selectors [] none).isNew = true := rfl
  have hm : Moved c ns rank s (Function.update rank s.size v) _ := h.moved_alloc hnew v
  have hcopy : Function.update rank s.size v s.size = v := Function.update_self ..
  have hbelow : ∀ n ∈ ns, ((s.alloc (.rule selectors [] none)).2.get? n).isSome = true ∧
      Function.update rank s.size v n < Function.update rank s.size v s.size := fun n hn => by
    rw [hcopy, hm.ranks n (lt_size_of_isSome (hs.alive n hn))]
    exact ⟨hm.alive n (hs.alive n hn), hall n hn⟩
  refine Ends.bind_change ((ends_takeOver (c := c) hm.ordered hbelow).bind fun _ s' hm' =>
    ends_pure ⟨rfl, _, hm.trans hm' fun n hn _ => hn, ?_, ?_⟩)
  · exact hm'.alive s.size (by simp [get?_alloc])
  · rw [hm.ranks q hs.known]
    exact hcopy.symm ▸ hv

theorem ends_insertAfter (h : Ordered rank s) (ha : Anchored rank s r after)
    (hn : (s.get? n).isSome = true) (hlt : rank n < rank r) :
    Ends (attempt (·.insertAfter after n) : Edit ρ Unit) s fun _ s' =>
      Moved c [n] rank s rank s' ∧ Anchored rank s' r n := by
  have hr : ∀ p, s.parent? after = some p → rank n < rank p := fun p hp => hlt.trans (ha.above p hp)
  refine ends_attempt ⟨rank, h.insertAfter hn fun _ => hr⟩ fun s' hok => ?_
  obtain ⟨hm, hp⟩ := h.moved_insertAfter hn hr hok
  exact ⟨hm, Nat.lt_of_lt_of_le (lt_size_of_isSome hn) hm.size, fun p hnp => ha.above p (hp p hnp)⟩

theorem ends_lift (h : Ordered rank s) (ha : Anchored rank s r after)
    (hn : (s.get? n).isSome = true) (hlt : rank n < rank r) :
    Ends (lift after n : Edit ρ NodeId) s fun after' s' => after' = n ∧
      Moved c [n] rank s rank s' ∧ Anchored rank s' r after' :=
  (ends_insertAfter h ha hn hlt).bind fun _ _ h => ends_pure ⟨rfl, h⟩

theorem ends_flush (h : Ordered rank s) (hs : Stock rank s r ns) (ha : Anchored rank s r after)
    (selectors : List String) :
    Ends (flush r selectors ns after : Edit ρ NodeId) s fun after' s' =>
      ∃ rank', Moved (rank r) ns rank s rank' s' ∧ Anchored rank' s' r after' := by
  unfold flush
  split
  · exact ends_pure ⟨rank, Moved.refl h, ha⟩
  · refine (ends_gather (c := rank r) h hs selectors).bind
      fun copy s₁ ⟨hfresh, rank₁, hm, hcopy, hlt⟩ => Ends.bind_note ?_
    have ha₁ := ha.moved hs.known hm le_rfl (ha.not_mem hs le_rfl)
    exact (ends_insertAfter (c := rank r) hm.ordered ha₁ hcopy hlt).bind fun _ s₂ ⟨hm', ha'⟩ =>
      ends_pure ⟨rank₁, hm.trans_new hm' hfresh.ge, ha'⟩

/-- What a container gathers into a copy of a rule goes no further than to the front of its list. -/
theorem ends_gather_front (selectors : List String) (h : Ordered rank s) (hs : Stock rank s q ns)
    (hc : rank q < c) :
    Ends (gather q selectors ns >>= fun copy => attempt (·.prepend q copy) : Edit ρ Unit) s
      fun _ s' => ∃ rank', Moved c [] rank s rank' s' := by
  refine (ends_gather (c := c) h hs selectors).bind
    fun copy s₁ ⟨hfresh, rank₁, hm, hcopy, hlt⟩ => ?_
  have hperm : ∀ cs : List NodeId, (copy :: cs).Perm (copy :: cs) := fun cs => .refl _
  refine ends_attempt ⟨rank₁, hm.ordered.insert hcopy hperm fun _ => hlt⟩ fun s₂ hok => ?_
  have hm' := hm.ordered.moved_insert (c := c) hcopy hperm (fun _ => hlt) hok
  exact ⟨rank₁, (hm.trans_new hm' hfresh.ge).unname (hs.low hc)⟩

/-- Only what stands in the at-rule or deeper is moved. -/
theorem ends_bubble (o : Options) (selectors : List String) (resolved : Bool) (depth : Nat)
    {atRule : NodeId} (h : Ordered rank s) (hknown : atRule < s.size) (hc : rank atRule < c) :
    Ends (bubble o selectors resolved depth atRule : Edit ρ Unit) s fun _ s' =>
      ∃ rank', Moved c [] rank s rank' s' := by
  induction depth generalizing s rank c atRule with
  | zero => exact ends_pure ⟨rank, Moved.refl h⟩
  | succ depth ih =>
    have hs := h.stock hknown
    set leftovers := (s.children atRule).filter fun n => !s.bubblesAlong o n
    have hleft : leftovers.Sublist (s.children atRule) := List.filter_sublist
    refine Ends.bind_look (Ends.bind_look ((ends_forM (fun rest s' => rest ⊆ s.children atRule ∧
      ∃ rank', Moved (rank atRule) [] rank s rank' s') (fun n rest s₁ hinv => ?_)
      ⟨List.Subset.refl _, rank, Moved.refl h⟩).bind fun _ s₁ ⟨_, rank₁, hm⟩ => ?_))
    · obtain ⟨hsub, rank₁, hm⟩ := hinv
      have hrest : rest ⊆ s.children atRule := fun m hm => hsub (List.mem_cons_of_mem n hm)
      have hs₁ := hs.kept hm le_rfl
      have hn : n ∈ s.children atRule := hsub List.mem_cons_self
      refine Ends.mono
        (?_ : Ends _ s₁ fun _ s' => ∃ rank', Moved (rank atRule) [] rank₁ s₁ rank' s')
        fun _ s' ⟨rank', hm'⟩ => ⟨hrest, rank', hm.trans hm' (by simp)⟩
      have hstay : Ends (pure () : Edit ρ Unit) s₁ fun _ s' =>
          ∃ rank', Moved (rank atRule) [] rank₁ s₁ rank' s' :=
        ends_pure ⟨rank₁, Moved.refl hm.ordered⟩
      refine Ends.bind_look ?_
      split
      · split
        · exact (ends_resolve hm.ordered selectors n).mono fun _ _ h => ⟨rank₁, h⟩
        · exact hstay
      · refine Ends.bind_look ?_
        split
        · refine ih hm.ordered (lt_size_of_isSome (hs₁.alive n hn)) ?_
          rw [← hm.ranks atRule hknown]
          exact hs₁.falls n hn
        · exact hstay
    · have hm₁ := hm.raise hc.le
      split
      · have hc₁ : rank₁ atRule < c := by rwa [hm.ranks atRule hknown]
        have hs₁ := (hs.kept hm le_rfl).sublist hleft
        exact (ends_gather_front selectors hm.ordered hs₁ hc₁).mono fun _ s₂ ⟨rank₂, hm₂⟩ =>
          ⟨rank₂, hm₁.trans hm₂ fun _ h _ => h⟩
      · exact ends_pure ⟨rank₁, hm₁⟩

theorem ends_bubbleAll {o : Options} {selectors : List String} {resolved : Bool}
    {atRule : NodeId} (h : Ordered rank s) (hknown : atRule < s.size) (hc : rank atRule < c) :
    Ends (bubbleAll o selectors resolved atRule : Edit ρ Unit) s fun _ s' =>
      ∃ rank', Moved c [] rank s rank' s' :=
  Ends.bind_look (ends_bubble o selectors resolved s.size h hknown hc)

/-- A child `n` of a root rule `q` leaves it; its siblings stay. -/
theorem ends_escape (o : Options) (selectors : List String) (prelude : Option (List String))
    (h : Ordered rank s) (hs : Stock rank s q (n :: ns)) (hr : r < s.size) (hqr : rank q < rank r)
    (ha : Anchored rank s r after) :
    Ends (escape o selectors prelude after n : Edit ρ NodeId) s fun after' s' => ∃ rank',
      Moved (rank r) [] rank s rank' s' ∧ Stock rank' s' q ns ∧ Anchored rank' s' r after' := by
  have hn := hs.alive n List.mem_cons_self
  have hfall := hs.falls n List.mem_cons_self
  have hlift : ∀ rank₁ s₁, Moved (rank q) [] rank s rank₁ s₁ →
      Ends (lift after n : Edit ρ NodeId) s₁ fun after' s' => ∃ rank',
        Moved (rank r) [] rank s rank' s' ∧ Stock rank' s' q ns ∧ Anchored rank' s' r after' := by
    intro rank₁ s₁ hm
    have ha₁ := ha.moved hr hm hqr.le fun _ => List.not_mem_nil
    refine (ends_lift (c := rank q) hm.ordered ha₁ (hm.alive n hn) ?_).mono
      fun after' s' ⟨_, hm', ha'⟩ => ?_
    · rw [hm.ranks n (lt_size_of_isSome hn), hm.ranks r hr]
      exact hfall.trans hqr
    · have hm : Moved (rank q) [n] rank s rank₁ s' :=
        (hm.widen (List.nil_subset _)).trans hm' fun m hm _ => hm
      exact ⟨rank₁, (hm.raise hqr.le).unname ((hs.sublist (by simp)).low hqr),
        Stock.moved (show Stock rank s q ([n] ++ ns) from hs) hm le_rfl, ha'⟩
  unfold escape
  refine Ends.bind_look ?_
  split
  · exact (ends_bubbleAll h (lt_size_of_isSome hn) hfall).bind
      fun _ s₁ ⟨rank₁, hm⟩ => hlift rank₁ s₁ hm
  · split
    · exact (ends_resolve h _ n).bind fun _ s₁ hm => hlift rank s₁ hm
    · exact hlift rank s (Moved.refl h)

/-- The children of a root rule leave it one by one. -/
theorem ends_escapeAll (o : Options) (selectors : List String) (prelude : Option (List String))
    (h : Ordered rank s) (hs : Stock rank s q ns) (hr : r < s.size) (hqr : rank q < rank r)
    (ha : Anchored rank s r after) :
    Ends (ns.foldlM (escape o selectors prelude) after : Edit ρ NodeId) s fun after' s' =>
      ∃ rank', Moved (rank r) [] rank s rank' s' ∧ Anchored rank' s' r after' := by
  refine (ends_foldlM (fun ns after s' => ∃ rank', Moved (rank r) [] rank s rank' s' ∧
    Stock rank' s' q ns ∧ Anchored rank' s' r after) (fun n ns after s₁ h₁ => ?_)
    ⟨rank, Moved.refl h, hs, ha⟩).mono fun _ _ ⟨rank', hm, _, ha'⟩ => ⟨rank', hm, ha'⟩
  obtain ⟨rank₁, hm, hs₁, ha₁⟩ := h₁
  have hr₁ : r < s₁.size := Nat.lt_of_lt_of_le hr hm.size
  have hqr₁ : rank₁ q < rank₁ r := by rwa [hm.ranks q hs.known, hm.ranks r hr]
  refine (ends_escape o selectors prelude hm.ordered hs₁ hr₁ hqr₁ ha₁).mono
    fun after' s₂ ⟨rank₂, hm₂, h₂⟩ => ⟨rank₂, ?_, h₂⟩
  rw [hm.ranks r hr] at hm₂
  exact hm.trans hm₂ fun m hm _ => hm

/-- What cannot leave a root rule `q` as it is goes first, in a copy of the rule. -/
theorem ends_gather_first (selectors : List String) (h : Ordered rank s)
    (hs : Stock rank s q (ns ++ ns')) (hr : r < s.size) (hqr : rank q < rank r)
    (ha : Anchored rank s r after) :
    Ends (if ns.isEmpty then pure after else gather q selectors ns >>= lift after :
        Edit ρ NodeId) s fun after' s' => ∃ rank',
      Moved (rank r) [] rank s rank' s' ∧ Stock rank' s' q ns' ∧ Anchored rank' s' r after' := by
  have hns := hs.sublist (List.sublist_append_left ns ns')
  split
  · exact ends_pure ⟨rank, Moved.refl h, hs.sublist (List.sublist_append_right ns ns'), ha⟩
  · refine (ends_gather (c := rank q) h hns selectors).bind
      fun copy s₁ ⟨hfresh, rank₁, hm, hcopy, hlt⟩ => ?_
    have ha₁ := ha.moved hr hm hqr.le (ha.not_mem hns hqr.le)
    have hlt : rank₁ copy < rank₁ r := by
      rw [hm.ranks q hs.known] at hlt
      rw [hm.ranks r hr]
      exact hlt.trans hqr
    refine (ends_lift (c := rank q) hm.ordered ha₁ hcopy hlt).mono
      fun after' s' ⟨_, hm', ha'⟩ => ?_
    have hm := hm.trans_new hm' hfresh.ge
    exact ⟨rank₁, (hm.raise hqr.le).unname (hns.low hqr), hs.moved hm le_rfl, ha'⟩

theorem ends_dissolve (o : Options) (selectors : List String) (h : Ordered rank s)
    (hs : Stock rank s r [q]) (ha : Anchored rank s r after) :
    Ends (dissolve o selectors after q : Edit ρ NodeId) s fun after' s' => ∃ rank',
      Moved (rank r) [q] rank s rank' s' ∧ Anchored rank' s' r after' := by
  have hr := hs.known
  have hqr := hs.falls q List.mem_cons_self
  have hparts := (h.stock (lt_size_of_isSome (hs.alive q List.mem_cons_self))).perm
    ((List.filter_append_perm (fun n => !s.liftsAlone o n) (s.children q)).symm)
  simp only [Bool.not_not] at hparts
  have hpartition : (s.children q).partition (s.liftsAlone o) =
      ((s.children q).filter (s.liftsAlone o),
        (s.children q).filter fun n => !s.liftsAlone o n) := List.partition_eq_filter_filter ..
  unfold dissolve
  refine Ends.bind_any_look fun prelude => Ends.bind_look ?_
  rw [hpartition]
  have hfirst := ends_gather_first (ρ := ρ) (prelude.getD selectors) h hparts hr hqr ha
  have hrest : ∀ after₁ s₁, (∃ rank₁, Moved (rank r) [] rank s rank₁ s₁ ∧
      Stock rank₁ s₁ q ((s.children q).filter (s.liftsAlone o)) ∧ Anchored rank₁ s₁ r after₁) →
      Ends (do
        let after ←
          ((s.children q).filter (s.liftsAlone o)).foldlM (escape o selectors prelude) after₁
        let _ ← change (·.detach q)
        return after : Edit ρ NodeId) s₁ fun after' s' => ∃ rank',
          Moved (rank r) [q] rank s rank' s' ∧ Anchored rank' s' r after' := by
    intro after₁ s₁ ⟨rank₁, hm₁, hlone, ha₁⟩
    have hs₁ := hs.kept hm₁ le_rfl
    refine (ends_escapeAll o selectors prelude hm₁.ordered hlone hs₁.known
      (hs₁.falls q List.mem_cons_self) ha₁).bind
      fun after' s₂ ⟨rank₂, hm₂, ha₂⟩ => Ends.bind_change (ends_pure ?_)
    rw [hm₁.ranks r hr] at hm₂
    have hm := hm₁.trans hm₂ fun m hm _ => hm
    have hs₂ := hs.kept hm le_rfl
    have hm' := hm.ordered.moved_detach (c := rank r) q
    refine ⟨rank₂, (hm.widen (List.nil_subset _)).trans hm' fun m hm _ => hm, ?_⟩
    exact ha₂.moved hs₂.known hm' (hm.ranks r hr).ge (ha₂.not_mem hs₂ le_rfl)
  cases hempty : ((s.children q).filter fun n => !s.liftsAlone o n).isEmpty <;>
    rw [hempty] at hfirst
  · exact hfirst.bind hrest
  · exact hfirst.bind hrest

theorem ends_release (o : Options) (selectors : List String) (h : Ordered rank s)
    (hs : Stock rank s r [n]) (ha : Anchored rank s r after) (role : Role) :
    Ends (release o selectors after n role : Edit ρ NodeId) s fun after' s' => ∃ rank',
      Moved (rank r) [n] rank s rank' s' ∧ Anchored rank' s' r after' := by
  have hn := hs.alive n List.mem_cons_self
  have hlt := hs.falls n List.mem_cons_self
  have hlift : ∀ rank₁ s₁, Moved (rank r) [] rank s rank₁ s₁ →
      Ends (lift after n : Edit ρ NodeId) s₁ fun after' s' => ∃ rank',
        Moved (rank r) [n] rank s rank' s' ∧ Anchored rank' s' r after' := by
    intro rank₁ s₁ hm
    have hlt₁ := (hs.kept hm le_rfl).falls n List.mem_cons_self
    have ha₁ := ha.moved hs.known hm le_rfl fun _ => List.not_mem_nil
    exact (ends_lift hm.ordered ha₁ (hm.alive n hn) hlt₁).mono fun after' s' ⟨_, hm', ha'⟩ =>
      ⟨rank₁, (hm.widen (List.nil_subset _)).trans hm' fun m hm _ => hm, ha'⟩
  unfold release
  cases role with
  | rootRule => exact ends_dissolve o selectors h hs ha
  | nested => exact (ends_resolve h selectors n).bind fun _ s₁ hm => hlift rank s₁ hm
  | bubbling =>
    exact (ends_bubbleAll h (lt_size_of_isSome hn) hlt).bind
      fun _ s₁ ⟨rank₁, hm⟩ => hlift rank₁ s₁ hm
  | unwrapped => exact hlift rank s (Moved.refl h)
  | movable => exact hlift rank s (Moved.refl h)
  | fixed => exact hlift rank s (Moved.refl h)

/-- The children to come stand in the rule still, and so do the declarations set aside; what leaves
the rule next goes up. -/
def Underway (r : NodeId) (rest : List NodeId) (p : Progress) (s : Store) : Prop :=
  ∃ rank, Ordered rank s ∧ Anchored rank s r p.after ∧ Stock rank s r (p.pending ++ rest)

theorem ends_handle (o : Options) (selectors : List String) (n : NodeId) (rest : List NodeId)
    (p : Progress) (s : Store) (h : Underway r (n :: rest) p s) :
    Ends (handle o r selectors p n : Edit ρ Progress) s fun p' s' => Underway r rest p' s' := by
  obtain ⟨rank, h, ha, hs⟩ := h
  unfold handle
  refine Ends.bind_any_look fun role => ?_
  have hgo : Ends (do
      let after ← flush r selectors p.pending p.after
      return ⟨← release o selectors after n role, true, []⟩ : Edit ρ Progress) s
      fun p' s' => Underway r rest p' s' := by
    refine (ends_flush h (hs.sublist (List.sublist_append_left ..)) ha selectors).bind
      fun after₁ s₁ ⟨rank₁, hm, ha₁⟩ => ?_
    have hs₁ : Stock rank₁ s₁ r ([n] ++ rest) := hs.moved hm le_rfl
    refine (ends_release o selectors hm.ordered (hs₁.sublist (List.sublist_append_left ..)) ha₁
      role).bind fun after₂ s₂ ⟨rank₂, hm₂, ha₂⟩ => ends_pure ?_
    exact ⟨rank₂, hm₂.ordered, ha₂, hs₁.moved hm₂ le_rfl⟩
  have hstay : Underway r rest p s :=
    ⟨rank, h, ha, hs.sublist ((List.sublist_cons_self n rest).append_left _)⟩
  cases role with
  | fixed => exact ends_pure hstay
  | movable =>
    refine ends_pure ?_
    split
    · exact ⟨rank, h, ha, by simpa using hs⟩
    · exact hstay
  | nested => exact hgo
  | rootRule => exact hgo
  | bubbling => exact hgo
  | unwrapped => exact hgo

theorem ends_unnestChildren (o : Options) (selectors : List String) (h : Ordered rank s)
    (hr : r < s.size) :
    Ends (unnestChildren o r selectors (s.children r) : Edit ρ Unit) s
      fun _ s' => s'.InOrder := by
  unfold unnestChildren
  have hstart : Underway r (s.children r) ⟨r, false, []⟩ s :=
    ⟨rank, h, ⟨hr, fun p hp => h.lt_of_parent? hp⟩, h.stock hr⟩
  refine (ends_foldlM (Underway r) (fun n rest p s h => ends_handle o selectors n rest p s h)
    hstart).bind fun p s₁ ⟨rank₁, h₁, ha₁, hs₁⟩ => ?_
  rw [List.append_nil] at hs₁
  refine (ends_flush h₁ hs₁ ha₁ selectors).bind fun _ s₂ ⟨rank₂, hm, _⟩ => Ends.bind_look ?_
  split
  · exact Ends.bind_note (Ends.bind_change (ends_pure ⟨rank₂, hm.ordered.detach r⟩))
  · exact ends_pure ⟨rank₂, hm.ordered⟩

/-- The standard handler keeps a store in order, whatever rule it is given and however it ends. -/
theorem ends_unnest (o : Options) (r : NodeId) (h : s.InOrder) :
    Ends (unnest o r : Edit ρ Unit) s fun _ s' => s'.InOrder := by
  obtain ⟨rank, h⟩ := h
  unfold unnest
  refine Ends.bind_look ?_
  cases hx : s.get? r with
  | none => exact ends_throw _ ⟨rank, h⟩
  | some x =>
    cases x with
    | rule selectors children link =>
      have hchildren : s.children r = children := by
        simp [Store.children, children?, hx, Node.children?]
      refine Ends.bind_look ?_
      split
      · exact fun _ _ => ⟨rank, h⟩
      · rw [← hchildren]
        exact ends_unnestChildren o selectors h (lt_size_of_get? hx)
    | leaf l => exact ends_throw _ ⟨rank, h⟩
    | root cs => exact ends_throw _ ⟨rank, h⟩
    | atRule a b c d => exact ends_throw _ ⟨rank, h⟩

end Pass

end Unnest
