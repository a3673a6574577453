import Unnest.Proofs.Pass.Meaning
import Unnest.Proofs.Selector.Clean
import Unnest.Proofs.Tree.Selectors

/-! The selectors that a pass leaves. Ampersands are gone where nothing stops the nesting, and lists
of clean selectors can be read back from the printed sheet. -/

namespace Unnest

open Tree Selector

namespace Tree

variable {α β : Type} {o : Options} {P Q : String → Prop}

mutual

/-- The selectors of the rules without a rule around them. -/
def outermost : Tree α → List String
  | .leaf _ _ => []
  | .statement _ _ _ => []
  | .branch _ .root ts => outermostAll ts
  | .branch _ (.rule s) _ => s
  | .branch _ (.atRule _ _) ts => outermostAll ts

def outermostAll : List (Tree α) → List String
  | [] => []
  | t :: ts => t.outermost ++ outermostAll ts

end

mutual

theorem outermost_map (f : α → β) : (t : Tree α) → (t.map f).outermost = t.outermost
  | .leaf _ _ => rfl
  | .statement _ _ _ => rfl
  | .branch _ .root ts => outermostAll_mapAll f ts
  | .branch _ (.rule _) _ => rfl
  | .branch _ (.atRule _ _) ts => outermostAll_mapAll f ts

theorem outermostAll_mapAll (f : α → β) : (ts : List (Tree α)) →
    outermostAll (mapAll f ts) = outermostAll ts
  | [] => rfl
  | t :: ts => by
    rw [mapAll, outermostAll, outermostAll, outermost_map f t, outermostAll_mapAll f ts]

end

mutual

/-- Where all at-rules below rules bubble, the outermost rules alone are taken as they are. -/
theorem suits_of_bubblesOnly (nested : Bool) : (t : Tree α) → bubblesOnly o nested t = true →
    (∀ u ∈ t.nodes, ∀ x ∈ u.ownSelectors, Q x) →
    (nested = false → ∀ x ∈ t.outermost, Q x → P x) → Suits o P Q nested t
  | .leaf _ _, _, _, _ => trivial
  | .statement _ _ _, _, _, _ => trivial
  | .branch _ .root ts, hb, hQ, hP => by
    obtain ⟨hnested, hb⟩ := Bool.and_eq_true_iff.1 hb
    obtain rfl : nested = false := by simpa using hnested
    exact suitsAll_of_bubblesOnly false ts hb (fun u hu => hQ u (List.mem_cons_of_mem _ hu)) hP
  | .branch _ (.rule s) ts, hb, hQ, hP => by
    refine ⟨?_, suitsAll_of_bubblesOnly true ts hb
      (fun u hu => hQ u (List.mem_cons_of_mem _ hu)) (fun h => by cases h)⟩
    cases nested with
    | true => exact hQ _ List.mem_cons_self
    | false => exact fun x hx => hP rfl x hx (hQ _ List.mem_cons_self x hx)
  | .branch _ (.atRule n p) ts, hb, hQ, hP => by
    obtain ⟨hhead, hb⟩ := Bool.and_eq_true_iff.1 hb
    have hbubbles : nested = true → o.bubbles n = true ∧ o.namesRootRule n = false := by
      rintro rfl
      simpa using hhead
    refine ⟨suitsAll_of_bubblesOnly nested ts hb (fun u hu => hQ u (List.mem_cons_of_mem _ hu)) hP,
      fun hn hroot => ?_, fun hn hnot => ?_⟩
    · rw [(hbubbles hn).2] at hroot
      cases hroot
    · rw [(hbubbles hn).1, (hbubbles hn).2] at hnot
      simp at hnot

theorem suitsAll_of_bubblesOnly (nested : Bool) : (ts : List (Tree α)) →
    bubblesOnlyAll o nested ts = true → (∀ u ∈ nodesAll ts, ∀ x ∈ u.ownSelectors, Q x) →
    (nested = false → ∀ x ∈ outermostAll ts, Q x → P x) → SuitsAll o P Q nested ts
  | [], _, _, _ => trivial
  | t :: ts, hb, hQ, hP => by
    obtain ⟨ht, hts⟩ := Bool.and_eq_true_iff.1 hb
    exact ⟨suits_of_bubblesOnly nested t ht (fun u hu => hQ u (List.mem_append_left _ hu))
        (fun h x hx => hP h x (List.mem_append_left _ hx)),
      suitsAll_of_bubblesOnly nested ts hts (fun u hu => hQ u (List.mem_append_right _ hu))
        (fun h x hx => hP h x (List.mem_append_right _ hx))⟩

end

end Tree

namespace Pass

open Store

variable {ρ : Type} {s : Store} {doc : NodeId} {ts ts' : List (Tree NodeId)} {o : Options}
  {P Q : String → Prop}

/-- The selectors after a pass, when nesting keeps `P` and the selectors before the pass suit it. -/
theorem selectors_of_pass {k : Nat} (hnest : ∀ p c x, P p → Q c → nestOne p c = some x → P x)
    (hsuits : SuitsAll o P Q false (mapAll some ts))
    (hts : mapAll (origin k) ts' = flatAll o none (fun _ => true) (mapAll some ts)) :
    ∀ u ∈ nodesAll ts', ∀ x ∈ u.ownSelectors, P x := by
  classical
  have hzero : failing P (flatAll o none (fun _ => true) (mapAll some ts)) = 0 :=
    failing_flatAll hnest _ hsuits
  rw [← hts, failing_eq_zero, nodesAll_mapAll] at hzero
  intro u hu x hx
  exact hzero _ (List.mem_map_of_mem hu) x (by simpa using hx)

/-- No selector of a rule refers to a parent after a pass, if all at-rules below rules are blocks
that bubble, all selectors end outside strings and brackets, and those of the outermost rules do not
refer to a parent. -/
theorem flatten_resolves (o : Options) (h : s.IsDocument doc ts)
    (hbubbles : bubblesOnlyAll o false ts = true)
    (hshut : ∀ u ∈ nodesAll ts, ∀ x ∈ u.ownSelectors, Shut x)
    (houtermost : ∀ x ∈ outermostAll ts, refers .start x.toList = false)
    (log : Array Event) (own : ρ) :
    ∃ st s' ts' log', flatten o doc ⟨s, log, own⟩ = .ok st ⟨s', log', own⟩ ∧
      s'.IsDocument doc ts' ∧
      ∀ a r us, .branch a (.rule r) us ∈ nodesAll ts' →
        ∀ x ∈ r, refers .start x.toList = false := by
  obtain ⟨s', ts', hrun, hb, hts⟩ := runs_flatten (ρ := ρ) o h
  obtain ⟨log', hok⟩ := hrun log own
  have hsuits : SuitsAll o (fun x => Sound Scan.refersHere SameLevel x.toList) Shut false
      (mapAll some ts) := by
    refine suitsAll_of_bubblesOnly false _ ?_ ?_ fun _ x hx hx' => ?_
    · rwa [bubblesOnlyAll_mapAll]
    · rw [nodesAll_mapAll]
      exact List.forall_mem_map.2 fun u hu => by simpa using hshut u hu
    · rw [outermostAll_mapAll] at hx
      exact ⟨refers_eq_meets .start _ ▸ houtermost x hx, hx'⟩
  have hall := selectors_of_pass (fun _ _ _ => nestOne_refersHere) hsuits hts
  refine ⟨_, s', ts', log', hok, hb.part.isDocument, fun a r us hu x hx => ?_⟩
  rw [refers_eq_meets]
  exact (hall _ hu x hx).1

/-- Ampersands in strings and brackets stay, others go, at whatever depth of parentheses. -/
def quotingTrees : List (Tree NodeId) :=
  [.branch 1 (.rule ["a[b='&']"]) [.branch 2 (.atRule "media" "print")
    [.branch 3 (.rule [":is(&, & c)"]) [.branch 4 (.rule ["& '&' d"]) [.leaf 5 (.raw "x")]]]]]

def quotingStore : Store :=
  ⟨#[some (.root [1]), some (.rule ["a[b='&']"] [2] (some 0)),
    some (.atRule "media" "print" (some [3]) (some 1)), some (.rule [":is(&, & c)"] [4] (some 2)),
    some (.rule ["& '&' d"] [5] (some 3)), some (.leaf (.raw "x"))]⟩

theorem quotingStore_isDocument : quotingStore.IsDocument 0 quotingTrees :=
  ⟨rfl, ⟨⟨rfl, ⟨rfl, ⟨rfl, ⟨rfl, rfl, trivial⟩, trivial⟩, trivial⟩, trivial⟩, trivial⟩, by decide⟩

theorem flatten_quotingStore :
    ∃ st s' ts' log', flatten {} 0 ⟨quotingStore, #[], ()⟩ = .ok st ⟨s', log', ()⟩ ∧
      s'.IsDocument 0 ts' ∧
      ∀ a r us, .branch a (.rule r) us ∈ nodesAll ts' →
        ∀ x ∈ r, refers .start x.toList = false :=
  flatten_resolves {} quotingStore_isDocument (by decide) (by decide) (by decide) #[] ()

/-- If all selectors are clean and the params of root rules balanced, the printed selectors of every
rule that a pass leaves are read back as they are stored. -/
theorem flatten_reads_back (o : Options) (h : s.IsDocument doc ts)
    (hclean : ∀ u ∈ nodesAll ts, ∀ x ∈ u.ownSelectors, Clean x)
    (hbalanced : ∀ a n p us, .branch a (.atRule n p) us ∈ nodesAll ts →
      o.namesRootRule n = true → Balanced p)
    (log : Array Event) (own : ρ) :
    ∃ st s' ts' log', flatten o doc ⟨s, log, own⟩ = .ok st ⟨s', log', own⟩ ∧
      s'.IsDocument doc ts' ∧
      ∀ a r us, .branch a (.rule r) us ∈ nodesAll ts' → members (listText r) = r := by
  obtain ⟨s', ts', hrun, hb, hts⟩ := runs_flatten (ρ := ρ) o h
  obtain ⟨log', hok⟩ := hrun log own
  have hbrought : ∀ u ∈ nodesAll ts, ∀ x ∈ u.brought o, Clean x := by
    intro u hu
    rcases u with ⟨a, l⟩ | ⟨a, n, p⟩ | ⟨a, _ | r | ⟨n, p⟩, us⟩
    case branch.atRule =>
      rw [brought]
      split
      · next hroot => exact (hbalanced a n p us hu hroot).clean_rootPrelude
      · simp
    all_goals exact hclean _ hu
  have hsuits : SuitsAll o Clean Clean false (mapAll some ts) := by
    refine suitsAll_of_forall false _ ?_
    rw [nodesAll_mapAll]
    exact List.forall_mem_map.2 fun u hu => by simpa using hbrought u hu
  have hall := selectors_of_pass (fun _ _ _ => Clean.nestOne) hsuits hts
  exact ⟨_, s', ts', log', hok, hb.part.isDocument,
    fun a r us hu => members_listText (hall _ hu)⟩

/-- A root rule with two selectors, one of them with a comma of its own. -/
def preludeTrees : List (Tree NodeId) :=
  [.branch 1 (.rule ["a", "b"]) [.branch 2 (.atRule "at-root" ".c:is(d, e), f")
    [.leaf 3 (.raw "x"), .branch 4 (.rule ["&:not(&, g)"]) [.leaf 5 (.raw "y")]]]]

def preludeStore : Store :=
  ⟨#[some (.root [1]), some (.rule ["a", "b"] [2] (some 0)),
    some (.atRule "at-root" ".c:is(d, e), f" (some [3, 4]) (some 1)), some (.leaf (.raw "x")),
    some (.rule ["&:not(&, g)"] [5] (some 2)), some (.leaf (.raw "y"))]⟩

theorem preludeStore_isDocument : preludeStore.IsDocument 0 preludeTrees :=
  ⟨rfl, ⟨⟨rfl, ⟨rfl, rfl, ⟨rfl, rfl, trivial⟩, trivial⟩, trivial⟩, trivial⟩, by decide⟩

theorem flatten_preludeStore :
    ∃ st s' ts' log', flatten {} 0 ⟨preludeStore, #[], ()⟩ = .ok st ⟨s', log', ()⟩ ∧
      s'.IsDocument 0 ts' ∧
      ∀ a r us, .branch a (.rule r) us ∈ nodesAll ts' → members (listText r) = r := by
  refine flatten_reads_back {} preludeStore_isDocument (by decide) ?_ #[] ()
  intro a n p us hu _
  simp only [preludeTrees, nodesAll, nodes, List.append_nil, List.cons_append, List.nil_append,
    List.mem_cons, List.not_mem_nil, Tree.branch.injEq, reduceCtorEq, Head.atRule.injEq, or_false,
    false_or, false_and, and_false] at hu
  obtain ⟨-, ⟨-, rfl⟩, -⟩ := hu
  decide

end Pass

end Unnest
