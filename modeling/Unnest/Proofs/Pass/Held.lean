import Unnest.Proofs.Tree.Places
import Unnest.Proofs.Pass.Document

/-! What the rules hold after a pass: a rule keeps the children that do not leave it at its turn,
and a copy of a rule around leftovers holds whatever could not stand alone, even at-rules that a
rule would not have kept. -/

namespace Unnest

namespace Tree

variable {α β : Type} {o : Options} {fresh : α}

/-- The children of all the rules. -/
def held (ts : List (Tree α)) : Multiset Face :=
  (((nodesAll ts).filter isRule).flatMap fun t => t.children.map face : List Face)

/-- The same in a rule that counts. -/
def heldIn (ts : List (Tree α)) : Multiset Face := (ts.map face : List Face) + held ts

mutual

/-- What the rules hold after a pass, of a tree in its place. -/
def stays (o : Options) (place : Place) : Tree α → Multiset Face
  | .leaf _ l => if place.holds o (.leaf l) then {.leaf l} else 0
  | .statement _ n p => if place.holds o (.atRule n p false) then {.atRule n p false} else 0
  | .branch a h ts =>
    match place.enter? o h with
    | some inner => staysAll o inner ts
    | none => {(Tree.branch a h ts).face} + staysAll o .outside ts

def staysAll (o : Options) (place : Place) : List (Tree α) → Multiset Face
  | [] => 0
  | t :: ts => stays o place t + staysAll o place ts

end

theorem mem_staysAll {place : Place} {f : Face} {ts : List (Tree α)} :
    f ∈ staysAll o place ts ↔ ∃ t ∈ ts, f ∈ stays o place t := by
  induction ts with
  | nil => simp [staysAll]
  | cons t ts ih => simp [staysAll, ih]

theorem mem_stays_single {place : Place} {f x : Face}
    (h : f ∈ if place.holds o x then ({x} : Multiset Face) else 0) :
    place.holds o x = true ∧ f = x := by
  split at h
  · next hx => exact ⟨hx, Multiset.mem_singleton.1 h⟩
  · exact absurd h (Multiset.notMem_zero f)

theorem mem_stays_branch {place : Place} {f : Face} {a : α} {hd : Head} {ts : List (Tree α)}
    (h : f ∈ stays o place (.branch a hd ts)) :
    (∃ inner, place.enter? o hd = some inner ∧ f ∈ staysAll o inner ts) ∨
      (place.enter? o hd = none ∧
        (f = (Tree.branch a hd ts).face ∨ f ∈ staysAll o .outside ts)) := by
  rw [stays] at h
  cases hin : place.enter? o hd with
  | some inner => exact .inl ⟨inner, rfl, by rwa [hin] at h⟩
  | none =>
    rw [hin] at h
    exact .inr ⟨rfl, (Multiset.mem_add.1 h).imp Multiset.mem_singleton.1 id⟩

theorem mem_held {f : Face} {ts : List (Tree α)} :
    f ∈ held ts ↔ ∃ t ∈ nodesAll ts, t.isRule = true ∧ ∃ c ∈ t.children, c.face = f := by
  simp [held, and_assoc]

theorem held_mapAll (f : α → β) (ts : List (Tree α)) : held (mapAll f ts) = held ts := by
  have hfaces : ∀ us : List (Tree α), (mapAll f us).map face = us.map face := by
    intro us
    simp [mapAll_eq, Function.comp_def]
  rw [held, nodesAll_mapAll, List.filter_map, List.flatMap_map]
  simp only [Function.comp_def, isRule_map, children_map, hfaces]
  rfl

theorem adds_held : Adds (held : List (Tree α) → Multiset Face) :=
  ⟨rfl, fun ts us => by simp [held, nodesAll_append]⟩

theorem adds_heldIn : Adds (heldIn : List (Tree α) → Multiset Face) :=
  ⟨rfl, fun ts us => by
    rw [heldIn, List.map_append, ← Multiset.coe_add, adds_held.append, add_add_add_comm]
    rfl⟩

theorem weighs_held : Weighs heldIn (held : List (Tree α) → Multiset Face) := by
  refine ⟨adds_heldIn, adds_held, ?_, ?_, ?_, ?_, ?_⟩ <;> intros <;>
    simp [held, heldIn, nodesAll, nodes, List.filter_cons, isRule, Tree.children]

mutual

theorem weight_heldIn (place : Place) : (t : Tree α) →
    weight o fresh heldIn place t = stays o place t
  | .leaf _ _ => rfl
  | .statement _ _ _ => rfl
  | .branch a h ts => by
    simp only [weight, stays]
    cases henter : place.enter? o h with
    | some inner => exact weightAll_heldIn inner ts
    | none =>
      have hflat : held (flatAll o fresh (fun _ => true) ts) = staysAll o .outside ts := by
        rw [weighs_held.total_flatAll, weightAll_heldIn .outside ts]
      cases h with
      | rule s =>
        rw [Place.enter_rule] at henter
        cases henter
      | root => rw [← hflat, ← weighs_held.root a]; rfl
      | atRule n q => rw [← hflat, ← weighs_held.atRule a n q]; rfl

theorem weightAll_heldIn (place : Place) : (ts : List (Tree α)) →
    weightAll o fresh heldIn place ts = staysAll o place ts
  | [] => rfl
  | t :: ts => by rw [weightAll, staysAll, weight_heldIn place t, weightAll_heldIn place ts]

end

/-- What the rules of a flat form hold. -/
theorem held_flatAll (ts : List (Tree α)) :
    held (flatAll o fresh (fun _ => true) ts) = staysAll o .outside ts := by
  rw [weighs_held.total_flatAll, weightAll_heldIn]

mutual

theorem stays_map (f : α → β) (place : Place) : (t : Tree α) →
    stays o place (t.map f) = stays o place t
  | .leaf _ _ => rfl
  | .statement _ _ _ => rfl
  | .branch a h ts => by
    rw [Tree.map, stays, stays, ← Tree.map, face_map]
    split
    · exact staysAll_mapAll f _ ts
    · rw [staysAll_mapAll f _ ts]

theorem staysAll_mapAll (f : α → β) (place : Place) : (ts : List (Tree α)) →
    staysAll o place (mapAll f ts) = staysAll o place ts
  | [] => rfl
  | t :: ts => by rw [mapAll, staysAll, staysAll, stays_map f place t, staysAll_mapAll f place ts]

end

end Tree

namespace Pass

open Tree

/-- What the rules hold after a pass is told by the tree before it. -/
theorem held_after_pass {o : Options} {k : Nat} {ts ts' : List (Tree NodeId)}
    (hts : mapAll (origin k) ts' = flatAll o none (fun _ => true) (mapAll some ts)) :
    held ts' = staysAll o .outside ts := by
  rw [← held_mapAll (origin k), hts, held_flatAll, staysAll_mapAll]

end Pass

end Unnest
