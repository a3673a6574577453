import Unnest.Proofs.Tree.Nodes
import Unnest.Proofs.Tree.Total

/-! Where a tree stands decides what becomes of it. A branch is taken apart further or stays in a
rule as it is, and that depends on its header and on the place it stands in, not on selectors. A
quantity of trees that grows only by what rules hold can therefore be summed up over the places,
without the flat form (`total_flatAll`). -/

namespace Unnest

/-- Whether a pass looks for no at-rule of that name. -/
def Options.ignores (o : Options) (name : String) : Bool :=
  !o.namesRootRule name && !o.bubbles name && !o.unwraps name

/-- Whether a child of a rule is still there after the rule's turn. -/
def Face.settles (o : Options) : Face → Bool
  | .leaf _ => true
  | .root => true
  | .rule => false
  | .atRule n _ _ => o.ignores n

namespace Tree

open Selector

variable {α M : Type} [AddCommMonoid M]

/-- Where a tree stands, as far as the pass tells places apart. -/
inductive Place where
  | outside
  | inRule
  | inBubbling
  | inRootRule

/-- The place of the children of a branch, or nothing for one that stays in a rule as it is. -/
def Place.enter? (o : Options) : Place → Head → Option Place
  | _, .rule _ => some .inRule
  | .outside, _ => some .outside
  | _, .root => none
  | .inRule, .atRule n _ =>
    if o.namesRootRule n then some .inRootRule
    else if o.bubbles n then some .inBubbling
    else if o.unwraps n then some .outside
    else none
  | .inBubbling, .atRule n _ => if o.bubbles n then some .inBubbling else none
  | .inRootRule, .atRule n _ =>
    if o.bubbles n then some .inBubbling
    else if o.unwraps n then some .outside
    else none

theorem Place.enter_rule (o : Options) (place : Place) (s : List String) :
    place.enter? o (.rule s) = some .inRule := by
  cases place <;> rfl

/-- A bubbling at-rule is taken apart wherever it stands; directly in a rule the root rule comes
first. -/
theorem Place.enter_of_bubbles {o : Options} {n q : String} (h : o.bubbles n = true)
    (place : Place) : place.enter? o (.atRule n q) ≠ none := by
  cases place with
  | outside => simp [Place.enter?]
  | inRule =>
    simp only [Place.enter?, h, if_true]
    split_ifs <;> simp
  | inBubbling | inRootRule => simp [Place.enter?, h]

/-- Whether a node without children is held by a rule in the end. -/
def Place.holds (o : Options) : Place → Face → Bool
  | .outside, _ => false
  | .inRule, f => f.settles o
  | .inBubbling, _ => true
  | .inRootRule, _ => true

/-- A quantity `ψ` that only rules add to: what they hold counts as `φ`. -/
structure Weighs (φ ψ : List (Tree α) → M) : Prop where
  held : Adds φ
  free : Adds ψ
  leaf : ∀ a l, ψ [.leaf a l] = 0
  statement : ∀ a n p, ψ [.statement a n p] = 0
  root : ∀ a ts, ψ [.branch a .root ts] = ψ ts
  rule : ∀ a s ts, ψ [.branch a (.rule s) ts] = φ ts
  atRule : ∀ a n p ts, ψ [.branch a (.atRule n p) ts] = ψ ts

mutual

/-- What a tree in its place adds to the flat form, where `φ` measures what stays in a rule. -/
def weight (o : Options) (fresh : α) (φ : List (Tree α) → M) (place : Place) : Tree α → M
  | .leaf a l => if place.holds o (.leaf l) then φ [.leaf a l] else 0
  | .statement a n p => if place.holds o (.atRule n p false) then φ [.statement a n p] else 0
  | .branch a h ts =>
    match place.enter? o h with
    | some inner => weightAll o fresh φ inner ts
    | none => φ [.branch a h (flatAll o fresh (fun _ => true) ts)]

def weightAll (o : Options) (fresh : α) (φ : List (Tree α) → M) (place : Place) :
    List (Tree α) → M
  | [] => 0
  | t :: ts => weight o fresh φ place t + weightAll o fresh φ place ts

end

namespace Weighs

variable {o : Options} {fresh : α} {φ ψ : List (Tree α) → M}

theorem apart (h : Weighs φ ψ) (a : α) (s : List String) (shares : List (Share α)) :
    ψ (Share.apart o fresh a s shares) = Share.total φ ψ shares :=
  Share.total_apart h.held h.free (fun ts _ => h.rule fresh s ts) (h.rule a s) shares

theorem wrap (h : Weighs φ ψ) (s : List String) (shares : List (Share α)) :
    ψ (Share.wrap fresh s shares) = Share.total φ ψ shares :=
  Share.total_wrap h.held h.free (fun ts _ => h.rule fresh s ts) shares

mutual

theorem total_flat (h : Weighs φ ψ) : (t : Tree α) →
    ψ (flat o fresh (fun _ => true) t) = weight o fresh φ .outside t
  | .leaf a l => h.leaf a l
  | .statement a n p => h.statement a n p
  | .branch a .root ts => by
    rw [flat, h.root, total_flatAll h ts]
    rfl
  | .branch a (.atRule n p) ts => by
    rw [flat, h.atRule, total_flatAll h ts]
    rfl
  | .branch a (.rule s) ts => by
    rw [flat, place, if_pos rfl, h.apart, total_shareAll h s ts]
    rfl

theorem total_flatAll (h : Weighs φ ψ) : (ts : List (Tree α)) →
    ψ (flatAll o fresh (fun _ => true) ts) = weightAll o fresh φ .outside ts
  | [] => h.free.nil
  | t :: ts => by
    rw [flatAll, h.free.append, total_flat h t, total_flatAll h ts, weightAll]

theorem total_share (h : Weighs φ ψ) (s : List String) : (t : Tree α) →
    Share.total φ ψ [share o fresh (fun _ => true) s t] = weight o fresh φ .inRule t
  | .leaf _ (.comment _) => add_zero _
  | .leaf _ (.declaration _) => add_zero _
  | .leaf _ (.raw _) => add_zero _
  | .statement a n p => by
    simp only [share, weight, Place.holds, Face.settles, Options.ignores]
    split_ifs <;> simp_all [Share.total, h.free.nil, h.statement]
  | .branch _ .root _ => add_zero _
  | .branch a (.rule r) ts => by
    rw [share, place, if_pos rfl, Share.total, h.apart, total_shareAll h (nest s r) ts]
    exact add_zero _
  | .branch a (.atRule n p) ts => by
    simp only [share, weight, Place.enter?]
    split_ifs
    · rw [Share.total, h.wrap, total_insideAll h true _ _ ts]
      exact add_zero _
    · rw [Share.total, h.atRule, h.wrap, total_insideAll h false _ _ ts]
      exact add_zero _
    · rw [Share.total, h.atRule, total_flatAll h ts]
      exact add_zero _
    · exact add_zero _

theorem total_shareAll (h : Weighs φ ψ) (s : List String) : (ts : List (Tree α)) →
    Share.total φ ψ (shareAll o fresh (fun _ => true) s ts) = weightAll o fresh φ .inRule ts
  | [] => rfl
  | t :: ts => by
    rw [shareAll, Share.total_cons, total_share h s t, total_shareAll h s ts, weightAll]

theorem total_inside (h : Weighs φ ψ) (unwrap : Bool) (s : List String) (merge : Bool) :
    (t : Tree α) → Share.total φ ψ [inside o fresh (fun _ => true) unwrap s merge t] =
      weight o fresh φ (if unwrap then .inRootRule else .inBubbling) t
  | .leaf _ _ => by cases unwrap <;> exact add_zero _
  | .statement _ _ _ => by cases unwrap <;> exact add_zero _
  | .branch _ .root _ => by cases unwrap <;> exact add_zero _
  | .branch a (.rule r) ts => by
    have hplace : ∀ s', Share.total φ ψ [.lifted (place o fresh (fun _ => true) a s'
        (shareAll o fresh (fun _ => true) s' ts) (flatAll o fresh (fun _ => true) ts))] =
        weightAll o fresh φ .inRule ts := by
      intro s'
      rw [place, if_pos rfl, Share.total, h.apart, total_shareAll h s' ts]
      exact add_zero _
    have hweight : weight o fresh φ (if unwrap then .inRootRule else .inBubbling)
        (.branch a (.rule r) ts) = weightAll o fresh φ .inRule ts := by
      cases unwrap <;> rfl
    rw [hweight]
    simp only [inside]
    split_ifs
    · exact hplace _
    · exact hplace _
  | .branch a (.atRule n p) ts => by
    have hbubble : Share.total φ ψ [.lifted [.branch a (.atRule n p) (Share.wrap fresh s
        (insideAll o fresh (fun _ => true) false s merge ts))]] =
        weightAll o fresh φ .inBubbling ts := by
      rw [Share.total, h.atRule, h.wrap, total_insideAll h false s merge ts]
      exact add_zero _
    cases unwrap with
    | false =>
      simp only [inside, weight, Place.enter?, Bool.false_and, Bool.false_eq_true, if_false]
      split_ifs
      · exact hbubble
      · exact add_zero _
    | true =>
      simp only [inside, weight, Place.enter?, Bool.true_and, if_true]
      split_ifs
      · exact hbubble
      · rw [Share.total, h.atRule, total_flatAll h ts]
        exact add_zero _
      · exact add_zero _

theorem total_insideAll (h : Weighs φ ψ) (unwrap : Bool) (s : List String) (merge : Bool) :
    (ts : List (Tree α)) →
    Share.total φ ψ (insideAll o fresh (fun _ => true) unwrap s merge ts) =
      weightAll o fresh φ (if unwrap then .inRootRule else .inBubbling) ts
  | [] => rfl
  | t :: ts => by
    rw [insideAll, Share.total_cons, total_inside h unwrap s merge t,
      total_insideAll h unwrap s merge ts, weightAll]

end

end Weighs

end Tree

end Unnest
