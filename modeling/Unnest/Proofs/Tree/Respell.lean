import Unnest.Proofs.Tree.Flat

/-! Other labels and other names. A tree is respelled when its labels and the names of its at-rules
are exchanged and nothing else is. With options that take the new names for what other options take
the old ones for, the flat form of a respelled tree is the respelled flat form. -/

namespace Unnest

/-- These options do with the name `ν n` what `o` does with `n`. -/
structure Options.Follows (ν : String → String) (o o' : Options) : Prop where
  preserveEmpty : o'.preserveEmpty = o.preserveEmpty
  namesRootRule : ∀ n, o'.namesRootRule (ν n) = o.namesRootRule n
  bubbles : ∀ n, o'.bubbles (ν n) = o.bubbles n
  unwraps : ∀ n, o'.unwraps (ν n) = o.unwraps n

namespace Tree

open Selector Share

variable {α β γ : Type}

mutual

/-- The tree with the labels `f` gives and the at-rule names `ν` gives. -/
def respell (f : α → β) (ν : String → String) : Tree α → Tree β
  | .leaf a l => .leaf (f a) l
  | .statement a n p => .statement (f a) (ν n) p
  | .branch a .root ts => .branch (f a) .root (respellAll f ν ts)
  | .branch a (.rule s) ts => .branch (f a) (.rule s) (respellAll f ν ts)
  | .branch a (.atRule n p) ts => .branch (f a) (.atRule (ν n) p) (respellAll f ν ts)

def respellAll (f : α → β) (ν : String → String) : List (Tree α) → List (Tree β)
  | [] => []
  | t :: ts => t.respell f ν :: respellAll f ν ts

end

variable {f : α → β} {ν : String → String}

theorem respellAll_eq (ts : List (Tree α)) : respellAll f ν ts = ts.map (respell f ν) := by
  induction ts with
  | nil => rfl
  | cons t ts ih => simp [respellAll, ih]

theorem respellAll_append (ts us : List (Tree α)) :
    respellAll f ν (ts ++ us) = respellAll f ν ts ++ respellAll f ν us := by
  simp [respellAll_eq]

theorem isEmpty_respellAll (ts : List (Tree α)) :
    (respellAll f ν ts).isEmpty = ts.isEmpty := by
  cases ts <;> rfl

mutual

theorem respell_map (g : β → γ) : (t : Tree α) → (t.map f).respell g ν = t.respell (g ∘ f) ν
  | .leaf _ _ => rfl
  | .statement _ _ _ => rfl
  | .branch a .root ts => congrArg (Tree.branch (g (f a)) .root) (respellAll_mapAll g ts)
  | .branch a (.rule s) ts => congrArg (Tree.branch (g (f a)) (.rule s)) (respellAll_mapAll g ts)
  | .branch a (.atRule n p) ts =>
    congrArg (Tree.branch (g (f a)) (.atRule (ν n) p)) (respellAll_mapAll g ts)

theorem respellAll_mapAll (g : β → γ) : (ts : List (Tree α)) →
    respellAll g ν (mapAll f ts) = respellAll (g ∘ f) ν ts
  | [] => rfl
  | t :: ts => by
    rw [mapAll, respellAll, respellAll, respell_map g t, respellAll_mapAll g ts]

end

mutual

theorem map_respell (g : β → γ) : (t : Tree α) → (t.respell f ν).map g = t.respell (g ∘ f) ν
  | .leaf _ _ => rfl
  | .statement _ _ _ => rfl
  | .branch a .root ts => congrArg (Tree.branch (g (f a)) .root) (mapAll_respellAll g ts)
  | .branch a (.rule s) ts => congrArg (Tree.branch (g (f a)) (.rule s)) (mapAll_respellAll g ts)
  | .branch a (.atRule n p) ts =>
    congrArg (Tree.branch (g (f a)) (.atRule (ν n) p)) (mapAll_respellAll g ts)

theorem mapAll_respellAll (g : β → γ) : (ts : List (Tree α)) →
    mapAll g (respellAll f ν ts) = respellAll (g ∘ f) ν ts
  | [] => rfl
  | t :: ts => by
    rw [respellAll, mapAll, respellAll, map_respell g t, mapAll_respellAll g ts]

end

mutual

theorem rules_respell : (t : Tree α) → (t.respell f ν).rules = t.rules.map f
  | .leaf _ _ => rfl
  | .statement _ _ _ => rfl
  | .branch _ .root ts => rulesAll_respellAll ts
  | .branch a (.rule _) ts => congrArg (f a :: ·) (rulesAll_respellAll ts)
  | .branch _ (.atRule _ _) ts => rulesAll_respellAll ts

theorem rulesAll_respellAll : (ts : List (Tree α)) →
    rulesAll (respellAll f ν ts) = (rulesAll ts).map f
  | [] => rfl
  | t :: ts => by
    rw [respellAll, rulesAll, rulesAll, rules_respell t, rulesAll_respellAll ts, List.map_append]

end

variable {o o' : Options} {fresh : α}

theorem piecewise_respellAll (f : α → β) (ν : String → String) (fresh : α) :
    Piecewise fresh (f fresh) (respellAll f ν) := by
  refine ⟨rfl, respellAll_append, fun s ts _ => ?_⟩
  rw [copy, copy, isEmpty_respellAll]
  split <;> rfl

theorem respellAll_place (h : o.Follows ν o') (a : α) (s : List String) {shares : List (Share α)}
    (hs : ∀ x ∈ shares, x.Still) (children : List (Tree α)) :
    respellAll f ν (place o fresh (fun _ => true) a s shares children) =
      place o' (f fresh) (fun _ => true) (f a) s (shares.map (Share.map (respellAll f ν)))
        (respellAll f ν children) := by
  have hf := piecewise_respellAll f ν fresh
  have hany : (shares.map (Share.map (respellAll f ν))).any isLifted = shares.any isLifted := by
    simp [List.any_map, Function.comp_def]
  rw [place, place, if_pos rfl, if_pos rfl, apart, apart, hf.append,
    hf.left s false (List.forall_mem_nil _) hs, hf.nil, hany, h.preserveEmpty, ← hf.kept,
    isEmpty_respellAll]
  congr 1
  split <;> rfl

theorem respellAll_wrap {due : α → Bool} {unwrap merge : Bool} {s : List String}
    {ts : List (Tree α)} (r : List String) :
    respellAll f ν (wrap fresh r (insideAll o fresh due unwrap s merge ts)) =
      wrap (f fresh) r
        ((insideAll o fresh due unwrap s merge ts).map (Share.map (respellAll f ν))) :=
  (piecewise_respellAll f ν fresh).wrap r (insideAll_still due unwrap merge s ts)

mutual

theorem respell_flat (h : o.Follows ν o') : (t : Tree α) →
    respellAll f ν (flat o fresh (fun _ => true) t) =
      flat o' (f fresh) (fun _ => true) (t.respell f ν)
  | .leaf _ _ => rfl
  | .statement _ _ _ => rfl
  | .branch a .root ts => by
    have hts := respell_flatAll h ts
    simp only [flat, respell, respellAll, hts]
  | .branch a (.atRule n p) ts => by
    have hts := respell_flatAll h ts
    simp only [flat, respell, respellAll, hts]
  | .branch a (.rule s) ts => by
    rw [flat, respellAll_place h a s (shareAll_still _ _ ts), respell_shareAll h s ts,
      respell_flatAll h ts]
    rfl

theorem respell_flatAll (h : o.Follows ν o') : (ts : List (Tree α)) →
    respellAll f ν (flatAll o fresh (fun _ => true) ts) =
      flatAll o' (f fresh) (fun _ => true) (respellAll f ν ts)
  | [] => rfl
  | t :: ts => by
    rw [flatAll, respellAll_append, respell_flat h t, respell_flatAll h ts, respellAll, flatAll]

theorem respell_share (h : o.Follows ν o') (s : List String) : (t : Tree α) →
    (share o fresh (fun _ => true) s t).map (respellAll f ν) =
      share o' (f fresh) (fun _ => true) s (t.respell f ν)
  | .leaf _ (.comment _) => rfl
  | .leaf _ (.declaration _) => rfl
  | .leaf _ (.raw _) => rfl
  | .statement a n p => by
    simp only [share, respell, h.namesRootRule, h.bubbles, h.unwraps]
    split_ifs <;> rfl
  | .branch a .root ts => by
    have hts := respell_flatAll h ts
    simp only [share, Share.map, respell, respellAll, hts]
  | .branch a (.rule r) ts => by
    rw [share, Share.map, respellAll_place h a _ (shareAll_still _ _ ts),
      respell_shareAll h (nest s r) ts, respell_flatAll h ts]
    rfl
  | .branch a (.atRule n p) ts => by
    have hts := respell_flatAll h ts
    have hin := fun unwrap s merge => respell_insideAll h unwrap s merge ts
    simp only [share, respell, h.namesRootRule, h.bubbles, h.unwraps]
    split_ifs <;> simp only [Share.map, respellAll, respell, respellAll_wrap, hin, hts]

theorem respell_shareAll (h : o.Follows ν o') (s : List String) : (ts : List (Tree α)) →
    (shareAll o fresh (fun _ => true) s ts).map (Share.map (respellAll f ν)) =
      shareAll o' (f fresh) (fun _ => true) s (respellAll f ν ts)
  | [] => rfl
  | t :: ts => by
    rw [shareAll, List.map_cons, respell_share h s t, respell_shareAll h s ts, respellAll, shareAll]

theorem respell_inside (h : o.Follows ν o') (unwrap : Bool) (s : List String) (merge : Bool) :
    (t : Tree α) → (inside o fresh (fun _ => true) unwrap s merge t).map (respellAll f ν) =
      inside o' (f fresh) (fun _ => true) unwrap s merge (t.respell f ν)
  | .leaf _ _ => rfl
  | .statement _ _ _ => rfl
  | .branch a .root ts => by
    have hts := respell_flatAll h ts
    simp only [inside, Share.map, respell, respellAll, hts]
  | .branch a (.rule r) ts => by
    simp only [inside, respell]
    split_ifs
    · rw [Share.map, respellAll_place h a _ (shareAll_still _ _ ts), respell_shareAll h _ ts,
        respell_flatAll h ts]
    · rw [Share.map, respellAll_place h a _ (shareAll_still _ _ ts), respell_shareAll h _ ts,
        respell_flatAll h ts]
  | .branch a (.atRule n p) ts => by
    have hts := respell_flatAll h ts
    have hin := respell_insideAll h false s merge ts
    simp only [inside, respell, h.bubbles, h.unwraps]
    split_ifs <;> simp only [Share.map, respellAll, respell, respellAll_wrap, hin, hts]

theorem respell_insideAll (h : o.Follows ν o') (unwrap : Bool) (s : List String) (merge : Bool) :
    (ts : List (Tree α)) →
    (insideAll o fresh (fun _ => true) unwrap s merge ts).map (Share.map (respellAll f ν)) =
      insideAll o' (f fresh) (fun _ => true) unwrap s merge (respellAll f ν ts)
  | [] => rfl
  | t :: ts => by
    rw [insideAll, List.map_cons, respell_inside h unwrap s merge t,
      respell_insideAll h unwrap s merge ts, respellAll, insideAll]

end

end Tree

end Unnest
