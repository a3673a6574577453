import Unnest.Proofs.Tree.Places
import Unnest.Proofs.Pass.Document

/-! Which rules a pass leaves below another rule. Among the trees that a rule taken apart holds,
those that stay in it or go into a copy of it are not taken apart any further, so a rule in one of
them stays nested. What the children of a rule come to tells how many such rules there are; the sum
is zero exactly if the document is `clear`. -/

namespace Unnest

open Tree Store Selector

namespace Tree

variable {α : Type} {o : Options} {fresh : α}

mutual

/-- No rule is left below a rule: what stays in one as it is comes to no rule. -/
def clear (o : Options) (fresh : α) (place : Place) : Tree α → Bool
  | .leaf _ _ => true
  | .statement _ _ _ => true
  | .branch _ h ts =>
    match place.enter? o h with
    | some inner => clearAll o fresh inner ts
    | none => (rulesAll (flatAll o fresh (fun _ => true) ts)).isEmpty

def clearAll (o : Options) (fresh : α) (place : Place) : List (Tree α) → Bool
  | [] => true
  | t :: ts => clear o fresh place t && clearAll o fresh place ts

end

/-- How many pairs of a rule and a rule below it there are in some trees, in a rule that counts. -/
def nestedIn (ts : List (Tree α)) : Nat := (rulesAll ts).length + (nestingsAll ts).length

theorem nestingsAll_append (ts us : List (Tree α)) :
    nestingsAll (ts ++ us) = nestingsAll ts ++ nestingsAll us := by
  induction ts with
  | nil => rfl
  | cons t ts ih => simp [nestingsAll, ih]

theorem adds_nestings : Adds fun ts : List (Tree α) => (nestingsAll ts).length :=
  ⟨rfl, fun ts us => by rw [nestingsAll_append, List.length_append]⟩

theorem adds_nestedIn : Adds (nestedIn : List (Tree α) → Nat) :=
  ⟨rfl, fun ts us => by
    simp only [nestedIn, rulesAll_append, nestingsAll_append, List.length_append]
    omega⟩

theorem weighs_nestings :
    Weighs nestedIn fun ts : List (Tree α) => (nestingsAll ts).length := by
  refine ⟨adds_nestedIn, adds_nestings, ?_, ?_, ?_, ?_, ?_⟩ <;> intros <;>
    simp [nestingsAll, nestings, Head.isRule, nestedIn]

theorem nestedIn_eq_zero (ts : List (Tree α)) : nestedIn ts = 0 ↔ (rulesAll ts).isEmpty = true := by
  rw [nestedIn, Nat.add_eq_zero_iff, List.length_eq_zero_iff, List.isEmpty_iff]
  refine ⟨And.left, fun h => ⟨h, ?_⟩⟩
  rw [List.length_eq_zero_iff, List.eq_nil_iff_forall_not_mem]
  intro x hx
  have hlisted := sublist_of_mem_nestingsAll ts hx
  rw [h] at hlisted
  simpa using hlisted.subset List.mem_cons_self

mutual

/-- A clear tree adds no rule below a rule. -/
theorem weight_eq_zero_iff (place : Place) : (t : Tree α) →
    (weight o fresh nestedIn place t = 0 ↔ clear o fresh place t = true)
  | .leaf _ _ => by simp [weight, clear, nestedIn_eq_zero, rules]
  | .statement _ _ _ => by simp [weight, clear, nestedIn_eq_zero, rules]
  | .branch a h ts => by
    simp only [weight, clear]
    cases henter : place.enter? o h with
    | some inner => exact weightAll_eq_zero_iff inner ts
    | none =>
      have hrule : h.isRule = false := by
        cases h with
        | rule s =>
          rw [Place.enter_rule] at henter
          cases henter
        | root => rfl
        | atRule n q => rfl
      simp only [nestedIn_eq_zero, rulesAll_singleton, rules, hrule, Bool.false_eq_true, if_false]

theorem weightAll_eq_zero_iff (place : Place) : (ts : List (Tree α)) →
    (weightAll o fresh nestedIn place ts = 0 ↔ clearAll o fresh place ts = true)
  | [] => by simp [weightAll, clearAll]
  | t :: ts => by
    rw [weightAll, clearAll, Nat.add_eq_zero_iff, Bool.and_eq_true, weight_eq_zero_iff place t,
      weightAll_eq_zero_iff place ts]

end

theorem nestings_flatAll (ts : List (Tree α)) :
    (nestingsAll (flatAll o fresh (fun _ => true) ts)).length = 0 ↔
      clearAll o fresh .outside ts = true := by
  rw [← weightAll_eq_zero_iff, ← weighs_nestings.total_flatAll]

mutual

/-- Every at-rule below a rule is a block whose name the options know. -/
def known (o : Options) (below : Bool) : Tree α → Bool
  | .leaf _ _ => true
  | .statement _ _ _ => !below
  | .branch _ .root ts => knownAll o below ts
  | .branch _ (.rule _) ts => knownAll o true ts
  | .branch _ (.atRule n _) ts =>
    (!below || o.bubbles n || o.unwraps n || o.namesRootRule n) && knownAll o below ts

def knownAll (o : Options) (below : Bool) : List (Tree α) → Bool
  | [] => true
  | t :: ts => known o below t && knownAll o below ts

end

end Tree

namespace Pass

variable {ρ : Type} {s : Store} {doc : NodeId} {ts ts' : List (Tree NodeId)}

theorem nestings_eq_nil_iff {o : Options} {k : Nat}
    (h : mapAll (origin k) ts' = flatAll o none (fun _ => true) (mapAll some ts)) :
    nestingsAll ts' = [] ↔ clearAll o none .outside (mapAll some ts) = true := by
  rw [← nestings_flatAll, ← h, nestingsAll_mapAll, List.length_map, List.length_eq_zero_iff]

/-- After a pass no rule has a rule above it exactly if the document was clear. -/
theorem flatten_complete_iff_clear (o : Options) (h : s.IsDocument doc ts) (log : Array Event)
    (own : ρ) :
    ∃ st s' ts' log', flatten o doc ⟨s, log, own⟩ = .ok st ⟨s', log', own⟩ ∧
      s'.IsDocument doc ts' ∧
      (nestingsAll ts' = [] ↔ clearAll o none .outside (mapAll some ts) = true) := by
  obtain ⟨s', ts', hrun, hb, hts⟩ := runs_flatten (ρ := ρ) o h
  obtain ⟨log', hok⟩ := hrun log own
  exact ⟨_, s', ts', log', hok, hb.part.isDocument, nestings_eq_nil_iff hts⟩

/-- A root rule in a bubbling at-rule. The at-rule leaves the rule with the root rule in a copy of
it, and the rule in the root rule stays there. -/
def wrappedTrees : List (Tree NodeId) :=
  [.branch 1 (.rule ["a"]) [.branch 2 (.atRule "media" "print") [.branch 3 (.atRule "at-root" "")
    [.branch 4 (.rule ["b"]) [.leaf 5 (.declaration ⟨"color", "red", false⟩)]]]]]

def wrappedStore : Store :=
  ⟨#[some (.root [1]), some (.rule ["a"] [2] (some 0)),
    some (.atRule "media" "print" (some [3]) (some 1)),
    some (.atRule "at-root" "" (some [4]) (some 2)),
    some (.rule ["b"] [5] (some 3)), some (.leaf (.declaration ⟨"color", "red", false⟩))]⟩

theorem wrappedStore_isDocument : wrappedStore.IsDocument 0 wrappedTrees :=
  ⟨rfl, ⟨⟨rfl, ⟨rfl, ⟨rfl, ⟨rfl, rfl, trivial⟩, trivial⟩, trivial⟩, trivial⟩, trivial⟩, by decide⟩

theorem flatten_wrappedStore :
    ∃ st s' ts' log', flatten {} 0 ⟨wrappedStore, #[], ()⟩ = .ok st ⟨s', log', ()⟩ ∧
      s'.IsDocument 0 ts' ∧ nestingsAll ts' ≠ [] := by
  obtain ⟨st, s', ts', log', hok, hdoc, hiff⟩ :=
    flatten_complete_iff_clear {} wrappedStore_isDocument #[] ()
  refine ⟨st, s', ts', log', hok, hdoc, fun hnil => ?_⟩
  have hclear : clearAll {} none .outside (mapAll some wrappedTrees) = false := by rfl
  rw [hiff.1 hnil] at hclear
  cases hclear

/-- At-rules that the options know do not make a pass complete. -/
theorem flatten_not_complete :
    ¬ ∀ (o : Options) (s : Store) (doc : NodeId) (ts : List (Tree NodeId)), s.IsDocument doc ts →
      knownAll o false ts = true →
      ∀ st s' ts' log', flatten o doc ⟨s, #[], ()⟩ = .ok st ⟨s', log', ()⟩ →
        s'.IsDocument doc ts' → nestingsAll ts' = [] := by
  intro hall
  obtain ⟨s', ts', hrun, hb, hts⟩ := runs_flatten (ρ := Unit) {} wrappedStore_isDocument
  obtain ⟨log', hok⟩ := hrun #[] ()
  have hnil := hall {} wrappedStore 0 wrappedTrees wrappedStore_isDocument (by rfl) _ s' ts' log'
    hok hb.part.isDocument
  have hclear : clearAll {} none .outside (mapAll some wrappedTrees) = false := by rfl
  rw [(nestings_eq_nil_iff hts).1 hnil] at hclear
  cases hclear

end Pass

end Unnest
