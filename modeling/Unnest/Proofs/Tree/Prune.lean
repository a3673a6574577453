import Unnest.Proofs.Tree.Faces

/-! Dropping emptied rules is pruning. With options that preserve empty rules a pass keeps every
rule; what the other options leave is the same without the rules that have lost everything. -/

namespace Unnest

namespace Options

/-- The options, but for empty rules, which stay. -/
def preserving (o : Options) : Options := { o with preserveEmpty := true }

/-- The options, but for emptied rules, which go. -/
def dropping (o : Options) : Options := { o with preserveEmpty := false }

variable (o : Options) (name : String)

@[simp] theorem namesRootRule_preserving :
    o.preserving.namesRootRule name = o.namesRootRule name := rfl

@[simp] theorem bubbles_preserving : o.preserving.bubbles name = o.bubbles name := rfl

@[simp] theorem unwraps_preserving : o.preserving.unwraps name = o.unwraps name := rfl

@[simp] theorem namesRootRule_dropping :
    o.dropping.namesRootRule name = o.namesRootRule name := rfl

@[simp] theorem bubbles_dropping : o.dropping.bubbles name = o.bubbles name := rfl

@[simp] theorem unwraps_dropping : o.dropping.unwraps name = o.unwraps name := rfl

end Options

namespace Tree

open Selector Share

variable {α β : Type}

mutual

/-- The tree without the rules in it that hold nothing and count as gone. -/
def prune (gone : α → Bool) : Tree α → List (Tree α)
  | .leaf a l => [.leaf a l]
  | .statement a n p => [.statement a n p]
  | .branch a .root ts => [.branch a .root (pruneAll gone ts)]
  | .branch a (.atRule n p) ts => [.branch a (.atRule n p) (pruneAll gone ts)]
  | .branch a (.rule s) ts =>
    if ts.isEmpty && gone a then [] else [.branch a (.rule s) (pruneAll gone ts)]

def pruneAll (gone : α → Bool) : List (Tree α) → List (Tree α)
  | [] => []
  | t :: ts => prune gone t ++ pruneAll gone ts

end

/-- A rule counts as gone if it holds something. -/
def Marks (gone : α → Bool) (t : Tree α) : Prop :=
  t.isRule = true → gone t.label = !t.children.isEmpty

variable {o : Options} {fresh : α} {gone : α → Bool}

theorem pruneAll_append (ts us : List (Tree α)) :
    pruneAll gone (ts ++ us) = pruneAll gone ts ++ pruneAll gone us := by
  induction ts with
  | nil => rfl
  | cons t ts ih => simp [pruneAll, ih]

theorem prune_of_not_rule (gone : α → Bool) {t : Tree α} (h : t.isRule = false) :
    ∃ u, prune gone t = [u] := by
  rcases t with ⟨a, l⟩ | ⟨a, n, p⟩ | ⟨a, _ | r | ⟨n, p⟩, ts⟩
  · exact ⟨_, rfl⟩
  · exact ⟨_, rfl⟩
  · exact ⟨_, rfl⟩
  · simp [Tree.isRule] at h
  · exact ⟨_, rfl⟩

theorem isEmpty_pruneAll {ts : List (Tree α)} (h : ∀ t ∈ ts, t.isRule = false) :
    (pruneAll gone ts).isEmpty = ts.isEmpty := by
  cases ts with
  | nil => rfl
  | cons t ts =>
    obtain ⟨u, hu⟩ := prune_of_not_rule gone (h t List.mem_cons_self)
    simp [pruneAll, hu]

theorem piecewise_pruneAll (fresh : α) (gone : α → Bool) :
    Piecewise fresh fresh (pruneAll gone) := by
  refine ⟨rfl, pruneAll_append, fun s ts hts => ?_⟩
  rw [copy, copy, isEmpty_pruneAll hts]
  cases hempty : ts.isEmpty <;> simp [pruneAll, prune, hempty]

mutual

theorem prune_map (f : α → β) (gone : β → Bool) : (t : Tree α) →
    prune gone (t.map f) = mapAll f (prune (gone ∘ f) t)
  | .leaf _ _ => rfl
  | .statement _ _ _ => rfl
  | .branch a .root ts => by simp only [Tree.map, prune, mapAll, pruneAll_mapAll f gone ts]
  | .branch a (.atRule n p) ts => by simp only [Tree.map, prune, mapAll, pruneAll_mapAll f gone ts]
  | .branch a (.rule s) ts => by
    have hempty : (mapAll f ts).isEmpty = ts.isEmpty := by simp [mapAll_eq]
    simp only [Tree.map, prune, hempty, Function.comp_apply, pruneAll_mapAll f gone ts]
    split <;> rfl

theorem pruneAll_mapAll (f : α → β) (gone : β → Bool) : (ts : List (Tree α)) →
    pruneAll gone (mapAll f ts) = mapAll f (pruneAll (gone ∘ f) ts)
  | [] => rfl
  | t :: ts => by
    rw [mapAll, pruneAll, pruneAll, prune_map f gone t, pruneAll_mapAll f gone ts]
    simp [mapAll_eq]

end

theorem share_solid (o : Options) (fresh : α) (due : α → Bool) (s : List String) (t : Tree α) :
    (share o fresh due s t).isLifted = true ∨
      ∃ u, share o fresh due s t = .fixed [u] ∨ share o fresh due s t = .movable [u] := by
  rcases t with ⟨a, _ | _ | _⟩ | ⟨a, n, p⟩ | ⟨a, _ | r | ⟨n, p⟩, ts⟩ <;> simp only [share]
  all_goals try split_ifs
  all_goals simp [isLifted]

/-- A rule that keeps nothing has held something if and only if something has left it. -/
theorem any_isLifted_of_kept_eq_nil {due : α → Bool} {s : List String} {ts : List (Tree α)}
    (h : kept false (shareAll o fresh due s ts) = []) :
    (shareAll o fresh due s ts).any isLifted = !ts.isEmpty := by
  cases ts with
  | nil => rfl
  | cons t ts =>
    rw [shareAll] at h ⊢
    rcases share_solid o fresh due s t with hl | ⟨u, hu | hu⟩
    · simp [hl]
    · simp [hu, kept] at h
    · simp [hu, kept] at h

/-- What is dropped is pruned: a rule taken apart under the two policies for empty rules. -/
theorem pruneAll_place {a : α} {s r : List String} {ts : List (Tree α)}
    (children children' : List (Tree α)) (hmark : Marks gone (.branch a (.rule r) ts))
    (hshares : (shareAll o.preserving fresh (fun _ => true) s ts).map (Share.map (pruneAll gone)) =
      shareAll o.dropping fresh (fun _ => true) s ts) :
    pruneAll gone (place o.preserving fresh (fun _ => true) a s
        (shareAll o.preserving fresh (fun _ => true) s ts) children) =
      place o.dropping fresh (fun _ => true) a s
        (shareAll o.dropping fresh (fun _ => true) s ts) children' := by
  have hp := piecewise_pruneAll fresh gone
  have hstill : ∀ x ∈ shareAll o.preserving fresh (fun _ => true) s ts, x.Still :=
    shareAll_still _ s ts
  have hlost : kept false (shareAll o.preserving fresh (fun _ => true) s ts) = [] →
      (shareAll o.preserving fresh (fun _ => true) s ts).any isLifted = gone a := fun h =>
    (any_isLifted_of_kept_eq_nil h).trans (hmark rfl).symm
  rw [← hshares, place, place, if_pos rfl, if_pos rfl]
  generalize shareAll o.preserving fresh (fun _ => true) s ts = shares at hstill hlost ⊢
  have hany : (shares.map (Share.map (pruneAll gone))).any isLifted = shares.any isLifted := by
    simp [List.any_map, Function.comp_def]
  rw [apart, apart, hp.append, hp.left s false (List.forall_mem_nil _) hstill, hp.nil, hany,
    ← hp.kept, isEmpty_pruneAll (kept_still false hstill)]
  congr 1
  cases hkept : kept false shares with
  | nil =>
    rw [hlost hkept]
    cases hgone : gone a <;> simp [Options.preserving, Options.dropping, pruneAll, prune, hgone]
  | cons t ts => simp [pruneAll, prune]

theorem pruneAll_wrap {unwrap merge : Bool} {s : List String} {ts : List (Tree α)} (r : List String)
    (hin : (insideAll o.preserving fresh (fun _ => true) unwrap s merge ts).map
        (Share.map (pruneAll gone)) =
      insideAll o.dropping fresh (fun _ => true) unwrap s merge ts) :
    pruneAll gone (wrap fresh r (insideAll o.preserving fresh (fun _ => true) unwrap s merge ts)) =
      wrap fresh r (insideAll o.dropping fresh (fun _ => true) unwrap s merge ts) := by
  rw [(piecewise_pruneAll fresh gone).wrap r (insideAll_still _ unwrap merge s ts), hin]

mutual

theorem prune_flat (o : Options) (fresh : α) : (t : Tree α) → (∀ u ∈ t.nodes, Marks gone u) →
    pruneAll gone (flat o.preserving fresh (fun _ => true) t) =
      flat o.dropping fresh (fun _ => true) t
  | .leaf _ _, _ => rfl
  | .statement _ _ _, _ => rfl
  | .branch a .root ts, h => by
    have hts := prune_flatAll o fresh ts fun u hu => h u (List.mem_cons_of_mem _ hu)
    simp [flat, pruneAll, prune, hts]
  | .branch a (.atRule n p) ts, h => by
    have hts := prune_flatAll o fresh ts fun u hu => h u (List.mem_cons_of_mem _ hu)
    simp [flat, pruneAll, prune, hts]
  | .branch a (.rule s) ts, h => by
    obtain ⟨ha, hts⟩ := List.forall_mem_cons.1 h
    rw [flat, flat]
    exact pruneAll_place _ _ ha (prune_shareAll o fresh s ts hts)

theorem prune_flatAll (o : Options) (fresh : α) : (ts : List (Tree α)) →
    (∀ u ∈ nodesAll ts, Marks gone u) →
    pruneAll gone (flatAll o.preserving fresh (fun _ => true) ts) =
      flatAll o.dropping fresh (fun _ => true) ts
  | [], _ => rfl
  | t :: ts, h => by
    obtain ⟨ht, hts⟩ := List.forall_mem_append.1 h
    rw [flatAll, flatAll, pruneAll_append, prune_flat o fresh t ht, prune_flatAll o fresh ts hts]

theorem prune_share (o : Options) (fresh : α) (s : List String) : (t : Tree α) →
    (∀ u ∈ t.nodes, Marks gone u) →
    (share o.preserving fresh (fun _ => true) s t).map (pruneAll gone) =
      share o.dropping fresh (fun _ => true) s t
  | .leaf _ (.comment _), _ => rfl
  | .leaf _ (.declaration _), _ => rfl
  | .leaf _ (.raw _), _ => rfl
  | .statement a n p, _ => by
    cases hroot : o.namesRootRule n <;> cases hgo : o.bubbles n || o.unwraps n <;>
      simp [share, hroot, hgo, Share.map, pruneAll, prune]
  | .branch a .root ts, h => by
    have hts := prune_flatAll o fresh ts fun u hu => h u (List.mem_cons_of_mem _ hu)
    simp [share, Share.map, pruneAll, prune, hts]
  | .branch a (.rule r) ts, h => by
    obtain ⟨ha, hts⟩ := List.forall_mem_cons.1 h
    rw [share, share, Share.map, pruneAll_place _ _ ha (prune_shareAll o fresh (nest s r) ts hts)]
  | .branch a (.atRule n p) ts, h => by
    have hbelow : ∀ u ∈ nodesAll ts, Marks gone u := fun u hu => h u (List.mem_cons_of_mem _ hu)
    have hts := prune_flatAll o fresh ts hbelow
    have hwrap := fun unwrap s merge =>
      pruneAll_wrap s (prune_insideAll o fresh unwrap s merge ts hbelow)
    cases hroot : o.namesRootRule n with
    | true => simp [share, hroot, Share.map, hwrap]
    | false =>
      cases hbub : o.bubbles n with
      | true => simp [share, hroot, hbub, Share.map, pruneAll, prune, hwrap]
      | false =>
        cases hun : o.unwraps n <;> simp [share, hroot, hbub, hun, Share.map, pruneAll, prune, hts]

theorem prune_shareAll (o : Options) (fresh : α) (s : List String) : (ts : List (Tree α)) →
    (∀ u ∈ nodesAll ts, Marks gone u) →
    (shareAll o.preserving fresh (fun _ => true) s ts).map (Share.map (pruneAll gone)) =
      shareAll o.dropping fresh (fun _ => true) s ts
  | [], _ => rfl
  | t :: ts, h => by
    obtain ⟨ht, hts⟩ := List.forall_mem_append.1 h
    rw [shareAll, shareAll, List.map_cons, prune_share o fresh s t ht,
      prune_shareAll o fresh s ts hts]

theorem prune_inside (o : Options) (fresh : α) (unwrap : Bool) (s : List String) (merge : Bool) :
    (t : Tree α) → (∀ u ∈ t.nodes, Marks gone u) →
    (inside o.preserving fresh (fun _ => true) unwrap s merge t).map (pruneAll gone) =
      inside o.dropping fresh (fun _ => true) unwrap s merge t
  | .leaf _ _, _ => rfl
  | .statement _ _ _, _ => rfl
  | .branch a .root ts, h => by
    have hts := prune_flatAll o fresh ts fun u hu => h u (List.mem_cons_of_mem _ hu)
    simp [inside, Share.map, pruneAll, prune, hts]
  | .branch a (.rule r) ts, h => by
    obtain ⟨ha, hts⟩ := List.forall_mem_cons.1 h
    have hplace := fun s => pruneAll_place (flatAll o.preserving fresh (fun _ => true) ts)
      (flatAll o.dropping fresh (fun _ => true) ts) ha (prune_shareAll o fresh s ts hts)
    cases merge
    · exact congrArg Share.lifted (hplace r)
    · exact congrArg Share.lifted (hplace (nest s r))
  | .branch a (.atRule n p) ts, h => by
    have hbelow : ∀ u ∈ nodesAll ts, Marks gone u := fun u hu => h u (List.mem_cons_of_mem _ hu)
    have hts := prune_flatAll o fresh ts hbelow
    have hwrap := pruneAll_wrap s (prune_insideAll o fresh false s merge ts hbelow)
    cases hbub : o.bubbles n with
    | true => simp [inside, hbub, Share.map, pruneAll, prune, hwrap]
    | false =>
      cases hun : unwrap && o.unwraps n <;>
        simp [inside, hbub, hun, Share.map, pruneAll, prune, hts]

theorem prune_insideAll (o : Options) (fresh : α) (unwrap : Bool) (s : List String) (merge : Bool) :
    (ts : List (Tree α)) → (∀ u ∈ nodesAll ts, Marks gone u) →
    (insideAll o.preserving fresh (fun _ => true) unwrap s merge ts).map
        (Share.map (pruneAll gone)) =
      insideAll o.dropping fresh (fun _ => true) unwrap s merge ts
  | [], _ => rfl
  | t :: ts, h => by
    obtain ⟨ht, hts⟩ := List.forall_mem_append.1 h
    rw [insideAll, insideAll, List.map_cons, prune_inside o fresh unwrap s merge t ht,
      prune_insideAll o fresh unwrap s merge ts hts]

end

end Tree

end Unnest
