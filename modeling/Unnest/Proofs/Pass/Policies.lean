import Unnest.Proofs.Pass.Calls

/-! The policy for rules that have left the tree decides who passes over them, the pass or the
standard handler, and nothing else. What the handler does with the children of a rule depends
neither on the policy (`unnestChildren_stale`) nor on what has been reported so far (`Unread`), and
it leaves rules rules, so it refuses no rule that was listed. None of this needs links and child
lists to agree. -/

namespace Unnest

open Edit Store Selector

variable {ρ α β : Type}

namespace Store

variable {s s₁ s₂ : Store}

def KeepsRules (s s' : Store) : Prop := ∀ n, s.isRule n = true → s'.isRule n = true

theorem KeepsRules.refl (s : Store) : s.KeepsRules s := fun _ => id

theorem KeepsRules.trans (h : s.KeepsRules s₁) (h' : s₁.KeepsRules s₂) : s.KeepsRules s₂ :=
  fun n hn => h' n (h n hn)

theorem keepsRules_modify (s : Store) (n : NodeId) {f : Node → Node}
    (hf : ∀ x, (f x).isRule = x.isRule) : s.KeepsRules (s.modify n f) := by
  intro m hm
  unfold Store.isRule at hm ⊢
  rw [get?_modify]
  split
  · cases hx : s.get? m with
    | none => simp [hx] at hm
    | some x => simpa [hx, hf] using hm
  · exact hm

theorem keepsRules_withLink (s : Store) (n : NodeId) (l : Option NodeId) :
    s.KeepsRules (s.modify n (Node.withLink l)) :=
  keepsRules_modify s n fun x => by cases x <;> rfl

theorem keepsRules_editChildren (s : Store) (n : NodeId) (f : List NodeId → List NodeId) :
    s.KeepsRules (s.modify n (Node.editChildren f)) :=
  keepsRules_modify s n fun x => by cases x <;> rfl

theorem keepsRules_editSelectors (s : Store) (n : NodeId) (f : List String → List String) :
    s.KeepsRules (s.editSelectors n f) :=
  keepsRules_modify s n fun x => by cases x <;> rfl

theorem keepsRules_alloc (s : Store) (x : Node) : s.KeepsRules (s.alloc x).2 := by
  intro n hn
  unfold Store.isRule at hn ⊢
  rw [get?_alloc, if_neg fun he => by
    rw [he, get?_eq_none_of_size_le (Nat.le_refl s.size)] at hn
    cases hn]
  exact hn

theorem keepsRules_remove (s : Store) (p n : NodeId) : s.KeepsRules (s.remove p n).2 := by
  unfold remove
  dsimp only
  split
  · exact (keepsRules_editChildren s p _).trans (keepsRules_withLink _ n none)
  · exact keepsRules_editChildren s p _

theorem keepsRules_detach (s : Store) (n : NodeId) : s.KeepsRules (s.detach n).2 := by
  unfold detach
  split
  · exact keepsRules_remove s _ n
  · exact keepsRules_withLink s n none

theorem keepsRules_insert {p n : NodeId} {add : List NodeId → List NodeId}
    (h : s.insert p n add = .ok () s₁) : s.KeepsRules s₁ := by
  unfold Store.insert at h
  split at h
  · cases h
  · split at h
    · cases h
      exact ((keepsRules_detach s n).trans (keepsRules_editChildren _ p add)).trans
        (keepsRules_withLink _ n (some p))
    · cases h

theorem keepsRules_insertAfter {anchor n : NodeId} (h : s.insertAfter anchor n = .ok () s₁) :
    s.KeepsRules s₁ := by
  unfold Store.insertAfter at h
  split at h
  · cases h
    exact KeepsRules.refl _
  · dsimp only at h
    split at h
    · cases h
    · split at h
      · cases h
        exact ((keepsRules_detach s n).trans (keepsRules_editChildren _ _ _)).trans
          (keepsRules_withLink _ n _)
      · cases h

theorem isRule_of_mem_view (bound : Nat) {n : NodeId} {t : Tree NodeId}
    (h : s.view? bound n = some t) : ∀ m ∈ t.rules, s.isRule m = true := by
  induction bound generalizing n t with
  | zero => cases h
  | succ bound ih =>
    have hbelow : ∀ cs : List NodeId, ∀ m ∈ Tree.rulesAll (cs.filterMap (s.view? bound)),
        s.isRule m = true := by
      intro cs m hm
      rw [Tree.rulesAll_eq, List.mem_flatMap] at hm
      obtain ⟨u, hu, hm⟩ := hm
      obtain ⟨c, -, hc⟩ := List.mem_filterMap.1 hu
      exact ih hc m hm
    rw [view?] at h
    cases hx : s.get? n with
    | none => simp [hx] at h
    | some x =>
      rw [hx] at h
      intro m hm
      rcases x with l | cs | ⟨sel, cs, l⟩ | ⟨a, q, _ | cs, l⟩
      · cases h
        cases hm
      · cases h
        exact hbelow cs m hm
      · cases h
        rcases List.mem_cons.1 (show m ∈ n :: Tree.rulesAll _ from hm) with rfl | hm
        · simp [Store.isRule, hx, Node.isRule]
        · exact hbelow cs m hm
      · cases h
        cases hm
      · cases h
        exact hbelow cs m hm

/-- What is listed as a rule is one. -/
theorem isRule_of_mem_rulesUnder (doc : NodeId) : ∀ n ∈ s.rulesUnder doc, s.isRule n = true := by
  intro n hn
  unfold rulesUnder tree? at hn
  cases ht : s.view? s.size doc with
  | none => simp [ht] at hn
  | some t => exact isRule_of_mem_view s.size ht n (by simpa [ht] using hn)

end Store

namespace Pass

/-- Two ends of a step that differ in the reports only; rules are still rules. -/
inductive SameEnd (s : Store) : EStateM.Result Error (Scene ρ) α →
    EStateM.Result Error (Scene ρ) α → Prop where
  | ok (a : α) (s' : Store) (log log' : Array Event) (own : ρ) (h : s.KeepsRules s') :
      SameEnd s (.ok a ⟨s', log, own⟩) (.ok a ⟨s', log', own⟩)
  | error (e : Error) (s' : Store) (log log' : Array Event) (own : ρ) :
      SameEnd s (.error e ⟨s', log, own⟩) (.error e ⟨s', log', own⟩)

/-- The step goes the same way whatever has been reported, and keeps rules. -/
def Unread (m : Edit ρ α) : Prop :=
  ∀ s log log' own, SameEnd s (m ⟨s, log, own⟩) (m ⟨s, log', own⟩)

theorem unread_pure (a : α) : Unread (pure a : Edit ρ α) :=
  fun s log log' own => .ok a s log log' own (KeepsRules.refl s)

theorem Unread.bind {m : Edit ρ α} {f : α → Edit ρ β} (h : Unread m) (hf : ∀ a, Unread (f a)) :
    Unread (m >>= f) := by
  intro s log log' own
  have hm := h s log log' own
  simp only [Bind.bind, EStateM.bind]
  revert hm
  generalize m ⟨s, log, own⟩ = r
  generalize m ⟨s, log', own⟩ = r'
  rintro (⟨a, s₁, log₁, log₁', own₁, hkeeps⟩ | ⟨e, s₁, log₁, log₁', own₁⟩)
  · dsimp only
    have hf := hf a s₁ log₁ log₁' own₁
    revert hf
    generalize f a ⟨s₁, log₁, own₁⟩ = r
    generalize f a ⟨s₁, log₁', own₁⟩ = r'
    rintro (⟨b, s₂, log₂, log₂', own₂, hkeeps'⟩ | ⟨e, s₂, log₂, log₂', own₂⟩)
    · exact .ok b s₂ log₂ log₂' own₂ (hkeeps.trans hkeeps')
    · exact .error e s₂ log₂ log₂' own₂
  · exact .error e s₁ log₁ log₁' own₁

theorem unread_look (f : Store → α) : Unread (look f : Edit ρ α) :=
  fun s log log' own => .ok (f s) s log log' own (KeepsRules.refl s)

theorem unread_note (e : Event) : Unread (note e : Edit ρ Unit) :=
  fun s log log' own => .ok () s (log.push e) (log'.push e) own (KeepsRules.refl s)

theorem unread_change {f : Store → α × Store} (h : ∀ s : Store, s.KeepsRules (f s).2) :
    Unread (change f : Edit ρ α) :=
  fun s log log' own => .ok (f s).1 (f s).2 log log' own (h s)

theorem unread_attempt {f : Store → Outcome} (h : ∀ s s', f s = .ok () s' → s.KeepsRules s') :
    Unread (attempt f : Edit ρ Unit) := by
  intro s log log' own
  have hs := h s
  simp only [attempt]
  revert hs
  cases f s with
  | ok u s' => exact fun hs => .ok () s' log log' own (hs s' rfl)
  | error e s' => exact fun _ => .error e s' log log' own

theorem unread_forM {f : α → Edit ρ Unit} (h : ∀ a, Unread (f a)) (as : List α) :
    Unread (as.forM f) := by
  induction as with
  | nil => exact unread_pure ()
  | cons a as ih => exact (h a).bind fun _ => ih

theorem unread_foldlM {f : β → α → Edit ρ β} (h : ∀ b a, Unread (f b a)) (as : List α) (b : β) :
    Unread (as.foldlM f b) := by
  induction as generalizing b with
  | nil => exact unread_pure b
  | cons a as ih =>
    rw [List.foldlM_cons]
    exact (h b a).bind ih

theorem Unread.ite {c : Prop} [Decidable c] {m m' : Edit ρ α} (h : Unread m) (h' : Unread m') :
    Unread (if c then m else m') := by
  split
  · exact h
  · exact h'

theorem unread_resolve (parents : List String) (n : NodeId) :
    Unread (resolve parents n : Edit ρ Unit) :=
  unread_change fun s => keepsRules_editSelectors s n _

theorem unread_gather (source : NodeId) (selectors : List String) (nodes : List NodeId) :
    Unread (gather source selectors nodes : Edit ρ NodeId) :=
  (unread_change fun s => keepsRules_alloc s _).bind fun copy =>
    (unread_forM (fun n => (unread_change fun s => keepsRules_remove s source n).bind fun _ =>
      unread_attempt fun _ _ => keepsRules_insert) nodes).bind fun _ => unread_pure copy

theorem unread_lift (after n : NodeId) : Unread (lift after n : Edit ρ NodeId) :=
  (unread_attempt fun _ _ => keepsRules_insertAfter).bind fun _ => unread_pure n

theorem unread_flush (rule : NodeId) (selectors : List String) (pending : List NodeId)
    (after : NodeId) : Unread (flush rule selectors pending after : Edit ρ NodeId) :=
  Unread.ite (unread_pure after) ((unread_gather rule selectors pending).bind fun copy =>
    (unread_note _).bind fun _ => (unread_attempt fun _ _ => keepsRules_insertAfter).bind fun _ =>
      unread_pure copy)

theorem unread_bubble (o : Options) (selectors : List String) (resolved : Bool) (depth : Nat)
    (atRule : NodeId) : Unread (bubble o selectors resolved depth atRule : Edit ρ Unit) := by
  induction depth generalizing atRule with
  | zero => exact unread_pure ()
  | succ depth ih =>
    refine (unread_look _).bind fun children => (unread_look _).bind fun leftovers =>
      (unread_forM (fun n => (unread_look _).bind fun nested => ?_) children).bind fun _ => ?_
    · exact Unread.ite (Unread.ite (unread_resolve selectors n) (unread_pure ()))
        ((unread_look _).bind fun block => Unread.ite (ih n) (unread_pure ()))
    · exact Unread.ite ((unread_gather atRule selectors leftovers).bind fun copy =>
        unread_attempt fun _ _ => keepsRules_insert) (unread_pure ())

theorem unread_bubbleAll (o : Options) (selectors : List String) (resolved : Bool)
    (atRule : NodeId) : Unread (bubbleAll o selectors resolved atRule : Edit ρ Unit) :=
  (unread_look _).bind fun depth => unread_bubble o selectors resolved depth atRule

theorem unread_escape (o : Options) (selectors : List String) (prelude : Option (List String))
    (after n : NodeId) : Unread (escape o selectors prelude after n : Edit ρ NodeId) := by
  have hlift : ∀ u : Unit, Unread (lift after n : Edit ρ NodeId) := fun _ => unread_lift after n
  refine (unread_look _).bind fun block => Unread.ite ?_ ?_
  · exact (unread_bubbleAll o _ _ n).bind hlift
  · cases prelude with
    | some p => exact (unread_resolve p n).bind hlift
    | none => exact (unread_pure ()).bind hlift

theorem unread_dissolve (o : Options) (selectors : List String) (after rootRule : NodeId) :
    Unread (dissolve o selectors after rootRule : Edit ρ NodeId) := by
  refine (unread_look _).bind fun prelude => (unread_look _).bind fun parts => ?_
  have hrest : ∀ after, Unread (do
      let after ← parts.1.foldlM (escape o selectors prelude) after
      let _ ← change (·.detach rootRule)
      return after : Edit ρ NodeId) := fun after =>
    (unread_foldlM (unread_escape o selectors prelude) parts.1 after).bind fun after =>
      (unread_change fun s => keepsRules_detach s rootRule).bind fun _ => unread_pure after
  refine Unread.ite ((unread_pure after).bind hrest) ?_
  exact ((unread_gather rootRule _ parts.2).bind (unread_lift after)).bind hrest

theorem unread_release (o : Options) (selectors : List String) (after child : NodeId)
    (role : Role) : Unread (release o selectors after child role : Edit ρ NodeId) := by
  have hlift : ∀ u : Unit, Unread (lift after child : Edit ρ NodeId) := fun _ =>
    unread_lift after child
  cases role with
  | rootRule => exact unread_dissolve o selectors after child
  | nested => exact (unread_resolve selectors child).bind hlift
  | bubbling => exact (unread_bubbleAll o selectors false child).bind hlift
  | unwrapped => exact hlift ()
  | movable => exact hlift ()
  | fixed => exact hlift ()

theorem unread_handle (o : Options) (rule : NodeId) (selectors : List String) (p : Progress)
    (child : NodeId) : Unread (handle o rule selectors p child : Edit ρ Progress) := by
  refine (unread_look _).bind fun role => ?_
  have hgo : Unread (do
      let after ← flush rule selectors p.pending p.after
      return ⟨← release o selectors after child role, true, []⟩ : Edit ρ Progress) :=
    (unread_flush rule selectors p.pending p.after).bind fun after =>
      (unread_release o selectors after child role).bind fun after => unread_pure _
  cases role with
  | fixed => exact unread_pure p
  | movable => exact unread_pure _
  | nested => exact hgo
  | rootRule => exact hgo
  | bubbling => exact hgo
  | unwrapped => exact hgo

theorem unread_unnestChildren (o : Options) (rule : NodeId) (selectors : List String)
    (children : List NodeId) :
    Unread (unnestChildren o rule selectors children : Edit ρ Unit) :=
  (unread_foldlM (unread_handle o rule selectors) children _).bind fun p =>
    (unread_flush rule selectors p.pending p.after).bind fun _ =>
      (unread_look _).bind fun _ => Unread.ite
        ((unread_note _).bind fun _ =>
          (unread_change fun s => keepsRules_detach s rule).bind fun _ => unread_pure ())
        (unread_pure ())

/-! Only the check before the children reads the policy. -/

theorem bubble_stale (o : Options) (stale : Stale) (selectors : List String) (resolved : Bool)
    (depth : Nat) (atRule : NodeId) :
    (bubble { o with stale := stale } selectors resolved depth atRule : Edit ρ Unit) =
      bubble o selectors resolved depth atRule := by
  induction depth generalizing atRule with
  | zero => rfl
  | succ depth ih =>
    unfold bubble
    simp only [ih]
    rfl

theorem bubbleAll_stale (o : Options) (stale : Stale) (selectors : List String) (resolved : Bool)
    (atRule : NodeId) :
    (bubbleAll { o with stale := stale } selectors resolved atRule : Edit ρ Unit) =
      bubbleAll o selectors resolved atRule := by
  simp only [bubbleAll, bubble_stale]

theorem handle_stale (o : Options) (stale : Stale) (rule : NodeId) (selectors : List String) :
    (handle { o with stale := stale } rule selectors : Progress → NodeId → Edit ρ Progress) =
      handle o rule selectors := by
  have hescape : ∀ prelude, (escape { o with stale := stale } selectors prelude :
      NodeId → NodeId → Edit ρ NodeId) = escape o selectors prelude := by
    intro prelude
    funext after n
    simp only [escape, bubbleAll_stale]
    rfl
  have hrelease : ∀ after child role,
      (release { o with stale := stale } selectors after child role : Edit ρ NodeId) =
        release o selectors after child role := by
    intro after child role
    cases role <;> simp only [release, dissolve, hescape, bubbleAll_stale]
    rfl
  funext p child
  simp only [handle, hrelease]
  rfl

theorem unnestChildren_stale (o : Options) (stale : Stale) (rule : NodeId)
    (selectors : List String) (children : List NodeId) :
    (unnestChildren { o with stale := stale } rule selectors children : Edit ρ Unit) =
      unnestChildren o rule selectors children := by
  simp only [unnestChildren, handle_stale]

theorem unnest_attached {o : Options} {n : NodeId} {s : Store} {selectors : List String}
    {children : List NodeId} {link : Option NodeId}
    (hn : s.get? n = some (.rule selectors children link)) (hr : s.reachesRoot n = true)
    (log : Array Event) (own : ρ) :
    unnest o n ⟨s, log, own⟩ = unnestChildren o n selectors children ⟨s, log, own⟩ := by
  simp [unnest, bind, EStateM.bind, look, hn, hr]

theorem unnest_gone {o : Options} {n : NodeId} {s : Store} {selectors : List String}
    {children : List NodeId} {link : Option NodeId} (ho : o.stale = .dispatch)
    (hn : s.get? n = some (.rule selectors children link)) (hr : s.reachesRoot n = false)
    (log : Array Event) (own : ρ) :
    unnest o n ⟨s, log, own⟩ = .ok () ⟨s, log.push (.notInTree (listText selectors)), own⟩ := by
  simp [unnest, bind, EStateM.bind, look, note, hn, hr, ho]

theorem exists_of_isRule {s : Store} {n : NodeId} (h : s.isRule n = true) :
    ∃ selectors children link, s.get? n = some (.rule selectors children link) := by
  unfold Store.isRule at h
  cases hx : s.get? n with
  | none => simp [hx] at h
  | some x =>
    cases x with
    | rule selectors children link => exact ⟨selectors, children, link, rfl⟩
    | leaf l => simp [hx, Node.isRule] at h
    | root cs => simp [hx, Node.isRule] at h
    | atRule a q b l => simp [hx, Node.isRule] at h

/-- What one policy counts as skipped, the other counts as dispatched. -/
structure SameCounts (skipping dispatching : Stats) : Prop where
  listed : dispatching.listed = skipping.listed
  skipped : dispatching.skipped = 0
  dispatched : dispatching.dispatched = skipping.dispatched + skipping.skipped

/-- Ends of a pass under either policy: in the same store, or with the same failure. -/
inductive SamePass : EStateM.Result Error (Scene ρ) Stats →
    EStateM.Result Error (Scene ρ) Stats → Prop where
  | ok {skipping dispatching : Stats} (s : Store) (log log' : Array Event) (own : ρ)
      (h : SameCounts skipping dispatching) :
      SamePass (.ok skipping ⟨s, log, own⟩) (.ok dispatching ⟨s, log', own⟩)
  | error (e : Error) (s : Store) (log log' : Array Event) (own : ρ) :
      SamePass (.error e ⟨s, log, own⟩) (.error e ⟨s, log', own⟩)

theorem visit_policies (o : Options) {rules : List NodeId} {s : Store}
    (hrules : ∀ n ∈ rules, s.isRule n = true) (log log' : Array Event) (own : ρ) {st st' : Stats}
    (h : SameCounts st st') :
    SamePass (visit .skip (unnest { o with stale := .skip }) rules st ⟨s, log, own⟩)
      (visit .dispatch (unnest { o with stale := .dispatch }) rules st' ⟨s, log', own⟩) := by
  induction rules generalizing s log log' own st st' with
  | nil => exact .ok s log log' own h
  | cons n rules ih =>
    obtain ⟨hn, hrules⟩ := List.forall_mem_cons.1 hrules
    obtain ⟨selectors, children, link, hn⟩ := exists_of_isRule hn
    have hfound : ∀ log, announce n ⟨s, log, own⟩ =
        ⟨s, log.push (.expanding (listText selectors)), own⟩ := fun log => by
      simp [announce, selectors?, hn, Node.selectors?]
    rw [visit_call (.inl rfl), hfound]
    cases hr : s.reachesRoot n with
    | false =>
      -- the pass skips the rule, or the handler finds it gone
      rw [visit_skip hr, unnest_gone rfl hn hr]
      exact ih hrules _ _ own ⟨h.listed, h.skipped, by simp only [h.dispatched]; omega⟩
    | true =>
      rw [visit_call (.inr hr), hfound, unnest_attached hn hr, unnest_attached hn hr,
        unnestChildren_stale o .skip, unnestChildren_stale o .dispatch]
      have hsame := unread_unnestChildren (ρ := ρ) o n selectors children s
        (log.push (.expanding (listText selectors)))
        (log'.push (.expanding (listText selectors))) own
      revert hsame
      generalize unnestChildren o n selectors children ⟨s, log.push _, own⟩ = r
      generalize unnestChildren o n selectors children ⟨s, log'.push _, own⟩ = r'
      rintro (⟨_, s', log₁, log₁', own', hkeeps⟩ | ⟨e, s', log₁, log₁', own'⟩)
      · exact ih (fun m hm => hkeeps m (hrules m hm)) log₁ log₁' own'
          ⟨h.listed, h.skipped, by simp only [h.dispatched]; omega⟩
      · exact .error e s' log₁ log₁' own'

/-- Whatever the links and child lists of the nodes are, the two policies lead the standard handler
to the same store, or to the same failure in the same store. -/
theorem flatten_policies (o : Options) (doc : NodeId) (sc : Scene ρ) :
    SamePass (flatten { o with stale := .skip } doc sc)
      (flatten { o with stale := .dispatch } doc sc) := by
  obtain ⟨s, log, own⟩ := sc
  have hstart : SameCounts ⟨(s.rulesUnder doc).length, 0, 0⟩ ⟨(s.rulesUnder doc).length, 0, 0⟩ :=
    ⟨rfl, rfl, rfl⟩
  have hvisit := visit_policies o (isRule_of_mem_rulesUnder (s := s) doc)
    (log.push (.started (s.rulesUnder doc).length)) (log.push (.started (s.rulesUnder doc).length))
    own hstart
  simp only [flatten, sweep, bind, EStateM.bind, look, note]
  revert hvisit
  generalize visit Stale.skip _ _ _ _ = r
  generalize visit Stale.dispatch _ _ _ _ = r'
  rintro (⟨s', log₁, log₁', own', h⟩ | ⟨e, s', log₁, log₁', own'⟩)
  · exact .ok s' _ _ own' h
  · exact .error e s' log₁ log₁' own'

end Pass

end Unnest
