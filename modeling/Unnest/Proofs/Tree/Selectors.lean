import Unnest.Proofs.Tree.Nodes
import Unnest.Proofs.Tree.Total

/-! The selectors of a flat form. Rules below a rule get their selectors nested below its own; all
others, and the preludes of root rules, are taken as they are written. If the written selectors suit
that, and nesting keeps a property, then all the selectors of the flat form have it. -/

namespace Unnest.Tree

open Selector

variable {α β : Type}

/-- The selectors of a rule; no other tree has any. -/
def ownSelectors : Tree α → List String
  | .branch _ (.rule s) _ => s
  | _ => []

/-- The selectors of a rule, or those in front of the content of a root rule. -/
def brought (o : Options) : Tree α → List String
  | .branch _ (.atRule n p) _ => if o.namesRootRule n then (rootPrelude p).getD [] else []
  | t => t.ownSelectors

@[simp] theorem ownSelectors_map (f : α → β) (t : Tree α) :
    (t.map f).ownSelectors = t.ownSelectors := by
  rcases t with ⟨a, l⟩ | ⟨a, n, p⟩ | ⟨a, _ | s | ⟨n, p⟩, ts⟩ <;> rfl

@[simp] theorem brought_map (o : Options) (f : α → β) (t : Tree α) :
    (t.map f).brought o = t.brought o := by
  rcases t with ⟨a, l⟩ | ⟨a, n, p⟩ | ⟨a, _ | s | ⟨n, p⟩, ts⟩ <;> rfl

section Suits

variable (o : Options) (P Q : String → Prop)

mutual

/-- The selectors that a pass takes as they are have `P`, and those that it nests have `Q`. Below a
rule all is `nested`, but an at-rule that does not bubble ends that; a root rule may end it or not,
so what it holds has to suit both. -/
def Suits (nested : Bool) : Tree α → Prop
  | .leaf _ _ => True
  | .statement _ _ _ => True
  | .branch _ .root ts => SuitsAll false ts
  | .branch _ (.rule s) ts => (∀ x ∈ s, if nested then Q x else P x) ∧ SuitsAll true ts
  | .branch _ (.atRule n p) ts =>
    SuitsAll nested ts ∧
    (nested = true → o.namesRootRule n = true → ∀ x ∈ (rootPrelude p).getD [], P x) ∧
    (nested = true → o.namesRootRule n = true ∨ o.bubbles n = false → SuitsAll false ts)

def SuitsAll (nested : Bool) : List (Tree α) → Prop
  | [] => True
  | t :: ts => Suits nested t ∧ SuitsAll nested ts

end

variable {o P}

mutual

theorem suits_of_forall (nested : Bool) : (t : Tree α) →
    (∀ u ∈ t.nodes, ∀ x ∈ u.brought o, P x) → Suits o P P nested t
  | .leaf _ _, _ => trivial
  | .statement _ _ _, _ => trivial
  | .branch _ .root ts, h => suitsAll_of_forall false ts (List.forall_mem_cons.1 h).2
  | .branch _ (.rule s) ts, h => by
    obtain ⟨hs, hts⟩ := List.forall_mem_cons.1 h
    refine ⟨fun x hx => ?_, suitsAll_of_forall true ts hts⟩
    rw [ite_self]
    exact hs x hx
  | .branch a (.atRule n p) ts, h => by
    obtain ⟨hp, hts⟩ := List.forall_mem_cons.1 h
    refine ⟨suitsAll_of_forall nested ts hts, fun _ hroot => ?_,
      fun _ _ => suitsAll_of_forall false ts hts⟩
    rwa [brought, if_pos hroot] at hp

theorem suitsAll_of_forall (nested : Bool) : (ts : List (Tree α)) →
    (∀ u ∈ nodesAll ts, ∀ x ∈ u.brought o, P x) → SuitsAll o P P nested ts
  | [], _ => trivial
  | t :: ts, h =>
    have h := List.forall_mem_append.1 h
    ⟨suits_of_forall nested t h.1, suitsAll_of_forall nested ts h.2⟩

end

end Suits

section Failing

variable (P : String → Prop) [DecidablePred P]

/-- How many selectors do not have `P`. -/
def failing (ts : List (Tree α)) : Nat :=
  ((nodesAll ts).flatMap ownSelectors).countP fun x => !decide (P x)

theorem adds_failing : Adds (failing P : List (Tree α) → Nat) :=
  ⟨rfl, fun ts us => by simp [failing, nodesAll_append]⟩

variable {P}

theorem failing_eq_zero {ts : List (Tree α)} :
    failing P ts = 0 ↔ ∀ u ∈ nodesAll ts, ∀ x ∈ u.ownSelectors, P x := by
  rw [failing, List.countP_eq_zero]
  constructor
  · intro h u hu x hx
    simpa using h x (List.mem_flatMap.2 ⟨u, hu, hx⟩)
  · intro h x hx
    obtain ⟨u, hu, hx⟩ := List.mem_flatMap.1 hx
    simpa using h u hu x hx

theorem failing_rule {a : α} {s : List String} (hs : ∀ x ∈ s, P x) (ts : List (Tree α)) :
    failing P [.branch a (.rule s) ts] = failing P ts := by
  have hown : s.countP (fun x => !decide (P x)) = 0 := by simpa using hs
  simp [failing, nodesAll, nodes, ownSelectors, hown]

theorem failing_atRule (a : α) (n p : String) (ts : List (Tree α)) :
    failing P [.branch a (.atRule n p) ts] = failing P ts := by
  simp [failing, nodesAll, nodes, ownSelectors]

theorem failing_root (a : α) (ts : List (Tree α)) :
    failing P [.branch a .root ts] = failing P ts := by
  simp [failing, nodesAll, nodes, ownSelectors]

theorem failing_apart {o : Options} {fresh a : α} {s : List String} (hs : ∀ x ∈ s, P x)
    (shares : List (Share α)) :
    failing P (Share.apart o fresh a s shares) = Share.total (failing P) (failing P) shares :=
  Share.total_apart (adds_failing P) (adds_failing P) (fun ts _ => failing_rule hs ts)
    (failing_rule hs) shares

theorem failing_wrap {fresh : α} {s : List String} (hs : ∀ x ∈ s, P x)
    (shares : List (Share α)) :
    failing P (Share.wrap fresh s shares) = Share.total (failing P) (failing P) shares :=
  Share.total_wrap (adds_failing P) (adds_failing P) (fun ts _ => failing_rule hs ts) shares

end Failing

section Flat

variable {o : Options} {fresh : α} {P Q : String → Prop}

theorem forall_mem_nest {parents children : List String}
    (hnest : ∀ p c x, P p → Q c → nestOne p c = some x → P x) (hp : ∀ p ∈ parents, P p)
    (hc : ∀ c ∈ children, Q c) : ∀ x ∈ nest parents children, P x := by
  intro x hx
  obtain ⟨p, hpmem, hx⟩ := List.mem_flatMap.1 hx
  obtain ⟨c, hcmem, hx⟩ := List.mem_filterMap.1 hx
  exact hnest p c x (hp p hpmem) (hc c hcmem) hx

variable [DecidablePred P]

mutual

theorem failing_flat (hnest : ∀ p c x, P p → Q c → nestOne p c = some x → P x) :
    (t : Tree α) → Suits o P Q false t → failing P (flat o fresh (fun _ => true) t) = 0
  | .leaf _ _, _ => rfl
  | .statement _ _ _, _ => rfl
  | .branch a .root ts, h => by
    rw [flat, failing_root, failing_flatAll hnest ts h]
  | .branch a (.atRule n p) ts, h => by
    rw [flat, failing_atRule, failing_flatAll hnest ts h.1]
  | .branch a (.rule s) ts, h => by
    have hs : ∀ x ∈ s, P x := h.1
    rw [flat, place, if_pos rfl, failing_apart hs, failing_shareAll hnest hs ts h.2]

theorem failing_flatAll (hnest : ∀ p c x, P p → Q c → nestOne p c = some x → P x) :
    (ts : List (Tree α)) → SuitsAll o P Q false ts →
    failing P (flatAll o fresh (fun _ => true) ts) = 0
  | [], _ => rfl
  | t :: ts, h => by
    rw [flatAll, (adds_failing P).append, failing_flat hnest t h.1, failing_flatAll hnest ts h.2]

theorem failing_share (hnest : ∀ p c x, P p → Q c → nestOne p c = some x → P x)
    {s : List String} (hs : ∀ x ∈ s, P x) : (t : Tree α) → Suits o P Q true t →
    Share.total (failing P) (failing P) [share o fresh (fun _ => true) s t] = 0
  | .leaf _ (.comment _), _ => rfl
  | .leaf _ (.declaration _), _ => rfl
  | .leaf _ (.raw _), _ => rfl
  | .statement a n p, _ => by
    simp only [share]
    split_ifs <;> rfl
  | .branch a .root ts, h => by
    rw [share, Share.total, failing_root, failing_flatAll hnest ts h]
    rfl
  | .branch a (.rule r) ts, h => by
    have hr : ∀ x ∈ nest s r, P x := forall_mem_nest hnest hs h.1
    rw [share, place, if_pos rfl, Share.total, failing_apart hr, failing_shareAll hnest hr ts h.2]
    rfl
  | .branch a (.atRule n p) ts, h => by
    obtain ⟨hin, hprelude, hout⟩ := h
    simp only [share]
    split_ifs with hroot hbubbles
    · -- only with a prelude there is something to nest below
      cases hq : rootPrelude p with
      | none =>
        rw [Share.total, Option.getD_none, failing_wrap hs]
        exact failing_insideAll hnest hs true false ts (hout rfl (.inl hroot))
      | some q =>
        have hqs : ∀ x ∈ q, P x := by simpa [hq] using hprelude rfl hroot
        rw [Share.total, Option.getD_some, failing_wrap hqs]
        exact failing_insideAll hnest hqs true true ts hin
    · rw [Share.total, failing_atRule, failing_wrap hs]
      exact failing_insideAll hnest hs false true ts hin
    · rw [Share.total, failing_atRule]
      exact failing_flatAll hnest ts (hout rfl (.inr (Bool.eq_false_iff.2 hbubbles)))
    · rw [Share.total, failing_atRule]
      exact failing_flatAll hnest ts (hout rfl (.inr (Bool.eq_false_iff.2 hbubbles)))

theorem failing_shareAll (hnest : ∀ p c x, P p → Q c → nestOne p c = some x → P x)
    {s : List String} (hs : ∀ x ∈ s, P x) : (ts : List (Tree α)) → SuitsAll o P Q true ts →
    Share.total (failing P) (failing P) (shareAll o fresh (fun _ => true) s ts) = 0
  | [], _ => rfl
  | t :: ts, h => by
    rw [shareAll, Share.total_cons, failing_share hnest hs t h.1,
      failing_shareAll hnest hs ts h.2]

theorem failing_inside (hnest : ∀ p c x, P p → Q c → nestOne p c = some x → P x)
    {s : List String} (hs : ∀ x ∈ s, P x) (unwrap merge : Bool) : (t : Tree α) →
    Suits o P Q merge t →
    Share.total (failing P) (failing P) [inside o fresh (fun _ => true) unwrap s merge t] = 0
  | .leaf _ _, _ => rfl
  | .statement _ _ _, _ => rfl
  | .branch a .root ts, h => by
    rw [inside, Share.total, failing_root, failing_flatAll hnest ts h]
    rfl
  | .branch a (.rule r) ts, h => by
    have hplace : ∀ s', (∀ x ∈ s', P x) → failing P (place o fresh (fun _ => true) a s'
        (shareAll o fresh (fun _ => true) s' ts) (flatAll o fresh (fun _ => true) ts)) = 0 := by
      intro s' hs'
      rw [place, if_pos rfl, failing_apart hs', failing_shareAll hnest hs' ts h.2]
    cases merge with
    | true => exact hplace _ (forall_mem_nest hnest hs h.1)
    | false => exact hplace _ h.1
  | .branch a (.atRule n p) ts, h => by
    have hout : o.bubbles n = false → failing P (flatAll o fresh (fun _ => true) ts) = 0 := by
      intro hbubbles
      cases merge with
      | true => exact failing_flatAll hnest ts (h.2.2 rfl (.inr hbubbles))
      | false => exact failing_flatAll hnest ts h.1
    simp only [inside]
    split_ifs with hbubbles
    · rw [Share.total, failing_atRule, failing_wrap hs]
      exact failing_insideAll hnest hs false merge ts h.1
    · rw [Share.total, failing_atRule]
      exact hout (Bool.eq_false_iff.2 hbubbles)
    · rw [Share.total, failing_atRule]
      exact hout (Bool.eq_false_iff.2 hbubbles)

theorem failing_insideAll (hnest : ∀ p c x, P p → Q c → nestOne p c = some x → P x)
    {s : List String} (hs : ∀ x ∈ s, P x) (unwrap merge : Bool) : (ts : List (Tree α)) →
    SuitsAll o P Q merge ts →
    Share.total (failing P) (failing P) (insideAll o fresh (fun _ => true) unwrap s merge ts) = 0
  | [], _ => rfl
  | t :: ts, h => by
    rw [insideAll, Share.total_cons, failing_inside hnest hs unwrap merge t h.1,
      failing_insideAll hnest hs unwrap merge ts h.2]

end

end Flat

end Unnest.Tree
