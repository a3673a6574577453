import Unnest.Proofs.Pass.Held

/-! A second pass. A document is settled if no rule holds anything that would leave it; a pass over
such a document does not touch the store. The first pass settles every document in which at-rules
below a rule are inside each other in an orderly way. -/

namespace Unnest

open Tree Store

namespace Tree

variable {α : Type} {o : Options}

mutual

/-- Below a rule, an at-rule in an at-rule is a block that bubbles, or a pass does not look for it.
-/
def orderly (o : Options) (below inAtRule : Bool) : Tree α → Bool
  | .leaf _ _ => true
  | .statement _ n _ => !(below && inAtRule) || o.ignores n
  | .branch _ .root ts => orderlyAll o below false ts
  | .branch _ (.rule _) ts => orderlyAll o true false ts
  | .branch _ (.atRule n _) ts =>
    (!(below && inAtRule) || o.bubbles n || o.ignores n) && orderlyAll o below true ts

def orderlyAll (o : Options) (below inAtRule : Bool) : List (Tree α) → Bool
  | [] => true
  | t :: ts => orderly o below inAtRule t && orderlyAll o below inAtRule ts

end

/-- Whether trees in this place are below a rule, and in an at-rule, as the two flags say. Outside
may be anywhere: below an unwrapped at-rule that was in a rule, too. -/
def Place.fits : Place → Bool → Bool → Prop
  | .outside, _, _ => True
  | .inRule, below, _ => below = true
  | .inBubbling, below, inAtRule => below = true ∧ inAtRule = true
  | .inRootRule, below, inAtRule => below = true ∧ inAtRule = true

/-- No rule holds anything that leaves it at its turn. -/
def Settled (o : Options) (ts : List (Tree α)) : Prop := ∀ f ∈ held ts, f.settles o = true

section Place

variable {place inner : Place} {below inAtRule : Bool}

theorem fits_outside : Place.outside.fits below inAtRule := trivial

theorem fits_of_enter_root (h : place.enter? o .root = some inner) : inner.fits below false := by
  cases place <;> cases h
  trivial

theorem fits_of_enter_rule {r : List String} (h : place.enter? o (.rule r) = some inner) :
    inner.fits true false := by
  rw [Place.enter_rule] at h
  cases h
  rfl

theorem fits_of_enter_atRule {n q : String} (hplace : place.fits below inAtRule)
    (h : place.enter? o (.atRule n q) = some inner) : inner.fits below true := by
  cases place with
  | outside =>
    cases h
    trivial
  | inRule | inBubbling | inRootRule =>
    simp only [Place.fits] at hplace
    simp only [Place.enter?] at h
    split_ifs at h <;> cases h <;> simp [Place.fits, hplace]

/-- An at-rule that stays in a rule is one that a pass does not look for. -/
theorem ignores_of_enter_none {n q : String} (hplace : place.fits below inAtRule)
    (h : place.enter? o (.atRule n q) = none)
    (hn : (!(below && inAtRule) || o.bubbles n || o.ignores n) = true) : o.ignores n = true := by
  cases place with
  | outside => cases h
  | inRule =>
    simp only [Place.enter?] at h
    split_ifs at h with hroot hbubble hunwrap
    simp [Options.ignores, hroot, hbubble, hunwrap]
  | inBubbling | inRootRule =>
    simp only [Place.enter?] at h
    split_ifs at h with hbubble
    simpa [hplace.1, hplace.2, hbubble] using hn

end Place

mutual

/-- In an orderly tree nothing stays that would leave a rule. The flags follow the places down. -/
theorem settles_of_mem_stays {f : Face} {place : Place} {below inAtRule : Bool}
    (hplace : place.fits below inAtRule) : (t : Tree α) → orderly o below inAtRule t = true →
    f ∈ stays o place t → f.settles o = true
  | .leaf _ _, _, hf => by
    obtain ⟨-, rfl⟩ := mem_stays_single hf
    rfl
  | .statement _ n q, h, hf => by
    obtain ⟨hholds, rfl⟩ := mem_stays_single hf
    cases place with
    | outside => cases hholds
    | inRule => exact hholds
    | inBubbling | inRootRule =>
      -- held by a copy of the rule, which did not ask for its name
      rw [orderly, hplace.1, hplace.2] at h
      exact h
  | .branch _ .root ts, h, hf => by
    obtain ⟨inner, henter, hm⟩ | ⟨-, rfl | hm⟩ := mem_stays_branch hf
    · exact settles_of_mem_staysAll (fits_of_enter_root henter) ts h hm
    · rfl
    · exact settles_of_mem_staysAll fits_outside ts h hm
  | .branch _ (.rule _) ts, h, hf => by
    obtain ⟨inner, henter, hm⟩ | ⟨hnone, -⟩ := mem_stays_branch hf
    · exact settles_of_mem_staysAll (fits_of_enter_rule henter) ts h hm
    · rw [Place.enter_rule] at hnone
      cases hnone
  | .branch _ (.atRule n q) ts, h, hf => by
    rw [orderly, Bool.and_eq_true] at h
    obtain ⟨inner, henter, hm⟩ | ⟨hnone, rfl | hm⟩ := mem_stays_branch hf
    · exact settles_of_mem_staysAll (fits_of_enter_atRule hplace henter) ts h.2 hm
    · exact ignores_of_enter_none hplace hnone h.1
    · exact settles_of_mem_staysAll fits_outside ts h.2 hm

theorem settles_of_mem_staysAll {f : Face} {place : Place} {below inAtRule : Bool}
    (hplace : place.fits below inAtRule) : (ts : List (Tree α)) →
    orderlyAll o below inAtRule ts = true → f ∈ staysAll o place ts → f.settles o = true
  | [], _, hf => absurd hf (Multiset.notMem_zero f)
  | t :: ts, h, hf => by
    rw [orderlyAll, Bool.and_eq_true] at h
    rcases Multiset.mem_add.1 hf with hf | hf
    · exact settles_of_mem_stays hplace t h.1 hf
    · exact settles_of_mem_staysAll hplace ts h.2 hf

end

end Tree

namespace Pass

variable {ρ : Type} {o : Options} {s : Store} {doc r p : NodeId} {ts : List (Tree NodeId)}

theorem role_of_settles {t : Tree NodeId} (h : t.face.settles o = true) (p : NodeId) :
    (t.cell p).role o = .fixed ∨ (t.cell p).role o = .movable := by
  rcases t with ⟨n, _ | _ | _⟩ | ⟨n, a, q⟩ | ⟨n, _ | sel | ⟨a, q⟩, ts⟩ <;>
    simp_all [face, Face.settles, Options.ignores, cell, Node.role]

/-- A child that stays does not even have to be moved. -/
theorem runs_handle_settled {t : Tree NodeId} {rule after : NodeId}
    {selectors : List String} (h : s.Holds p t) (hs : t.face.settles o = true) :
    Runs (handle o rule selectors ⟨after, false, []⟩ t.label : Edit ρ Progress) s s
      ⟨after, false, []⟩ := by
  refine .bind_look ?_
  rw [h.role_eq]
  rcases role_of_settles hs p with hr | hr <;> rw [hr] <;> exact runs_pure s _

theorem runs_handleAll_settled {rule after : NodeId} {selectors : List String}
    {us : List (Tree NodeId)} (h : s.HoldsAll p us) (hs : ∀ t ∈ us, t.face.settles o = true) :
    Runs ((us.map label).foldlM (handle o rule selectors) ⟨after, false, []⟩ : Edit ρ Progress) s s
      ⟨after, false, []⟩ := by
  induction us with
  | nil => exact runs_pure s _
  | cons t us ih =>
    obtain ⟨ht, hus⟩ := List.forall_mem_cons.1 hs
    exact runs_foldlM_cons (runs_handle_settled h.1 ht) (ih h.2 hus)

theorem runs_unnest_settled (h : s.IsDocument doc ts) (hs : Settled o ts)
    (hr : r ∈ rulesAll ts) : Runs (unnest o r : Edit ρ Unit) s s () := by
  obtain ⟨t, ht, hrule, rfl⟩ := mem_rulesAll.1 hr
  obtain ⟨q, hholds⟩ := h.below.of_mem_nodes t ht
  obtain ⟨hcell, -, hbelow⟩ := (holds_iff t).1 hholds
  have hstay : ∀ c ∈ t.children, c.face.settles o = true := fun c hc =>
    hs _ (mem_held.2 ⟨t, ht, hrule, c, hc, rfl⟩)
  have hroot : ¬ (o.stale = .dispatch ∧ (!s.reachesRoot t.label) = true) := by
    simp [h.reachesRoot hr]
  obtain ⟨n, sel, us, rfl⟩ : ∃ n sel us, t = .branch n (.rule sel) us := by
    rcases t with ⟨n, l⟩ | ⟨n, a, b⟩ | ⟨n, _ | sel | ⟨a, b⟩, us⟩ <;> simp_all [Tree.isRule]
  refine .bind_look ?_
  rw [hcell]
  refine .bind_look ?_
  rw [if_neg hroot]
  exact (runs_handleAll_settled hbelow hstay).bind
    ((runs_pure s _).bind (.bind_look (runs_pure s _)))

theorem runs_visit_settled (h : s.IsDocument doc ts) (hs : Settled o ts)
    (stale : Stale) {rules : List NodeId} (hrules : ∀ r ∈ rules, r ∈ rulesAll ts) (st : Stats) :
    Runs (visit stale (unnest o) rules st : Edit ρ Stats) s s
      { st with dispatched := st.dispatched + rules.length } := by
  induction rules generalizing st with
  | nil => exact runs_pure s st
  | cons r rules ih =>
    obtain ⟨hr, hrules⟩ := List.forall_mem_cons.1 hrules
    have hrest := ih hrules { st with dispatched := st.dispatched + 1 }
    have hst : st.dispatched + (r :: rules).length = st.dispatched + 1 + rules.length := by
      simp only [List.length_cons]
      omega
    rw [hst]
    exact runs_visit_cons stale _ (h.reachesRoot hr) (runs_unnest_settled h hs hr) hrest

/-- A pass over a settled document hands over every rule and leaves the store as it is. -/
theorem runs_flatten_settled (h : s.IsDocument doc ts) (hs : Settled o ts) :
    Runs (flatten o doc : Edit ρ Stats) s s ⟨(rulesAll ts).length, (rulesAll ts).length, 0⟩ := by
  have hvisit := runs_visit_settled (ρ := ρ) h hs o.stale (fun _ hr => hr)
    ⟨(rulesAll ts).length, 0, 0⟩
  refine .bind_look ?_
  rw [h.rulesUnder_eq]
  refine .bind_note (hvisit.bind (.bind_note ?_))
  simpa using runs_pure s _

theorem settled_of_pass {k : Nat} {ts' : List (Tree NodeId)}
    (h : orderlyAll o false false ts = true)
    (hts : mapAll (origin k) ts' = flatAll o none (fun _ => true) (mapAll some ts)) :
    Settled o ts' := by
  intro f hf
  rw [held_after_pass hts] at hf
  exact settles_of_mem_staysAll fits_outside ts h hf

/-- If the at-rules of a document are orderly, a second pass hands over all the rules there are by
then and leaves the store as it is: the child lists, the selectors and the links, hence the text. -/
theorem flatten_twice (o : Options) (h : s.IsDocument doc ts)
    (horderly : orderlyAll o false false ts = true) (log : Array Event) (own : ρ) :
    ∃ st s' ts' log', flatten o doc ⟨s, log, own⟩ = .ok st ⟨s', log', own⟩ ∧
      s'.IsDocument doc ts' ∧
      ∀ (log : Array Event) (own : ρ), ∃ log', flatten o doc ⟨s', log, own⟩ =
        .ok ⟨(rulesAll ts').length, (rulesAll ts').length, 0⟩ ⟨s', log', own⟩ := by
  obtain ⟨s', ts', hrun, hb, hts⟩ := runs_flatten (ρ := ρ) o h
  obtain ⟨log', hok⟩ := hrun log own
  have hdoc := hb.part.isDocument
  exact ⟨_, s', ts', log', hok, hdoc, runs_flatten_settled hdoc (settled_of_pass horderly hts)⟩

/-- A root rule, an at-rule that no pass looks for with another one inside, and two bubbling blocks
inside each other. -/
def orderlyTrees : List (Tree NodeId) :=
  [.branch 1 (.rule ["a"]) [
    .branch 2 (.atRule "at-root" "") [.branch 3 (.rule ["b"]) [.leaf 4 (.raw "x")]],
    .branch 5 (.atRule "scope" "") [.statement 6 "font" "serif"],
    .branch 7 (.atRule "media" "print") [.branch 8 (.atRule "layer" "") [.leaf 9 (.raw "y")]]]]

def orderlyStore : Store :=
  ⟨#[some (.root [1]), some (.rule ["a"] [2, 5, 7] (some 0)),
    some (.atRule "at-root" "" (some [3]) (some 1)), some (.rule ["b"] [4] (some 2)),
    some (.leaf (.raw "x")), some (.atRule "scope" "" (some [6]) (some 1)),
    some (.atRule "font" "serif" none (some 5)), some (.atRule "media" "print" (some [8]) (some 1)),
    some (.atRule "layer" "" (some [9]) (some 7)), some (.leaf (.raw "y"))]⟩

theorem orderlyStore_isDocument : orderlyStore.IsDocument 0 orderlyTrees :=
  ⟨rfl, ⟨⟨rfl, ⟨rfl, ⟨rfl, rfl, trivial⟩, trivial⟩, ⟨rfl, rfl, trivial⟩,
    ⟨rfl, ⟨rfl, rfl, trivial⟩, trivial⟩, trivial⟩, trivial⟩, by decide⟩

theorem flatten_orderlyStore :
    orderlyAll {} false false orderlyTrees = true ∧
    ∃ st s' ts' log', flatten {} 0 ⟨orderlyStore, #[], ()⟩ = .ok st ⟨s', log', ()⟩ ∧
      s'.IsDocument 0 ts' ∧
      ∀ (log : Array Event) (own : Unit), ∃ log', flatten {} 0 ⟨s', log, own⟩ =
        .ok ⟨(rulesAll ts').length, (rulesAll ts').length, 0⟩ ⟨s', log', own⟩ := by
  have horderly : orderlyAll {} false false orderlyTrees = true := by rfl
  exact ⟨horderly, flatten_twice {} orderlyStore_isDocument horderly #[] ()⟩

end Pass

end Unnest
