import Mathlib.Algebra.Order.Group.Multiset
import Unnest.Proofs.Tree.Nodes
import Unnest.Proofs.Tree.Total

/-! What a flat form keeps. Rules that are due and root rules may go, and copies of rules that hold
something may come; every other node is in the flat form as often as before, with its face. -/

namespace Unnest

/-- Whether a step that takes the rules in `due` apart may give the node up. -/
def Face.mayGo (o : Options) (due : Bool) : Face → Bool
  | .leaf _ => false
  | .root => false
  | .rule => due && !o.preserveEmpty
  | .atRule n _ _ => o.namesRootRule n

namespace Tree

open Selector

variable {α : Type}

/-- `a` is `b` but for nodes that may go. -/
def Sheds (o : Options) (due : α → Bool) (a b : Multiset (α × Face)) : Prop :=
  ∃ gone, a + gone = b ∧ ∀ x ∈ gone, x.2.mayGo o (due x.1) = true

section Sheds

variable {o : Options} {due : α → Bool} {a b c d : Multiset (α × Face)} {x : α × Face}

theorem Sheds.refl (a : Multiset (α × Face)) : Sheds o due a a :=
  ⟨0, add_zero a, by simp⟩

theorem Sheds.add (h : Sheds o due a b) (h' : Sheds o due c d) :
    Sheds o due (a + c) (b + d) := by
  obtain ⟨gone, rfl, hgone⟩ := h
  obtain ⟨gone', rfl, hgone'⟩ := h'
  refine ⟨gone + gone', add_add_add_comm .., fun y hy => ?_⟩
  exact (Multiset.mem_add.1 hy).elim (hgone y) (hgone' y)

theorem Sheds.keep (x : α × Face) (h : Sheds o due a b) : Sheds o due ({x} + a) ({x} + b) :=
  (Sheds.refl {x}).add h

theorem Sheds.shed (hx : x.2.mayGo o (due x.1) = true) (h : Sheds o due a b) :
    Sheds o due a ({x} + b) := by
  have hone : Sheds o due 0 {x} := ⟨{x}, zero_add _, by simpa using hx⟩
  simpa using hone.add h

theorem Sheds.subset (h : Sheds o due a b) (hx : x ∈ a) : x ∈ b := by
  obtain ⟨gone, rfl, -⟩ := h
  exact Multiset.mem_add.2 (.inl hx)

theorem Sheds.mem (h : Sheds o due a b) (hx : x ∈ b) (hstay : x.2.mayGo o (due x.1) = false) :
    x ∈ a := by
  obtain ⟨gone, rfl, hgone⟩ := h
  refine (Multiset.mem_add.1 hx).resolve_right fun hm => ?_
  rw [hgone x hm] at hstay
  cases hstay

end Sheds

variable [DecidableEq α]

def isCopy (fresh : α) (t : Tree α) : Bool :=
  t.isRule && decide (t.label = fresh) && !t.children.isEmpty

/-- All nodes but copies, each with its face. -/
def faces (fresh : α) (ts : List (Tree α)) : Multiset (α × Face) :=
  (((nodesAll ts).filter fun t => !t.isCopy fresh).map fun t => (t.label, t.face) :
    List (α × Face))

/-- The faces in some shares. -/
def facesBy (fresh : α) : List (Share α) → Multiset (α × Face) :=
  Share.total (faces fresh) (faces fresh)

variable {o : Options} {due : α → Bool} {fresh a : α} {s : List String}

theorem adds_faces (fresh : α) : Adds (faces fresh) :=
  ⟨rfl, fun ts us => by simp [faces, nodesAll_append]⟩

theorem mem_faces {ts : List (Tree α)} {x : α × Face} : x ∈ faces fresh ts ↔
    ∃ t ∈ nodesAll ts, t.isCopy fresh = false ∧ (t.label, t.face) = x := by
  simp [faces, and_assoc]

theorem faces_singleton (t : Tree α) : faces fresh [t] =
    (if t.isCopy fresh then 0 else {(t.label, t.face)}) + faces fresh t.children := by
  cases h : t.isCopy fresh <;> simp [faces, nodesAll, nodes_eq, h]

theorem faces_cons (t : Tree α) (ts : List (Tree α)) :
    faces fresh (t :: ts) = faces fresh [t] + faces fresh ts :=
  (adds_faces fresh).append [t] ts

theorem faces_rule (hne : a ≠ fresh) (ts : List (Tree α)) :
    faces fresh [.branch a (.rule s) ts] = {(a, .rule)} + faces fresh ts := by
  simp [faces_singleton, isCopy, label, Tree.children, face, hne]

theorem faces_copy {ts : List (Tree α)} (hts : ts ≠ []) :
    faces fresh [.branch fresh (.rule s) ts] = faces fresh ts := by
  simp [faces_singleton, isCopy, isRule, label, Tree.children, hts]

theorem faces_atRule (a : α) (n p : String) (ts : List (Tree α)) :
    faces fresh [.branch a (.atRule n p) ts] = {(a, .atRule n p true)} + faces fresh ts := by
  simp [faces_singleton, isCopy, isRule, label, Tree.children, face]

theorem faces_root (a : α) (ts : List (Tree α)) :
    faces fresh [.branch a .root ts] = {(a, .root)} + faces fresh ts := by
  simp [faces_singleton, isCopy, isRule, label, Tree.children, face]

theorem facesBy_cons (x : Share α) (shares : List (Share α)) :
    facesBy fresh (x :: shares) = facesBy fresh [x] + facesBy fresh shares :=
  Share.total_cons x shares

@[simp] theorem facesBy_fixed (ts : List (Tree α)) :
    facesBy fresh [.fixed ts] = faces fresh ts := add_zero _

@[simp] theorem facesBy_movable (ts : List (Tree α)) :
    facesBy fresh [.movable ts] = faces fresh ts := add_zero _

@[simp] theorem facesBy_lifted (ts : List (Tree α)) :
    facesBy fresh [.lifted ts] = faces fresh ts := add_zero _

theorem faces_wrap (s : List String) (shares : List (Share α)) :
    faces fresh (Share.wrap fresh s shares) = facesBy fresh shares :=
  Share.total_wrap (adds_faces fresh) (adds_faces fresh) (fun _ => faces_copy) shares

theorem sheds_place {r : List String} (hne : a ≠ fresh) {ts children : List (Tree α)}
    {shares : List (Share α)} (hshares : Sheds o due (facesBy fresh shares) (faces fresh ts))
    (hall : Sheds o due (faces fresh children) (faces fresh ts)) :
    Sheds o due (faces fresh (place o fresh due a s shares children))
      (faces fresh [.branch a (.rule r) ts]) := by
  rw [place, faces_rule hne]
  split
  · next ha =>
    rcases Share.total_apart_weighed (o := o) (adds_faces fresh) (adds_faces fresh)
      (fun _ => faces_copy) (faces_rule (s := s) hne) shares with h | ⟨hdrop, h⟩
    · rw [h]
      exact hshares.keep _
    · rw [h]
      exact hshares.shed (by simp [Face.mayGo, ha, hdrop])
  · rw [faces_rule hne]
    exact hall.keep _

mutual

theorem sheds_flat : (t : Tree α) → (∀ b ∈ t.rules, b ≠ fresh) →
    Sheds o due (faces fresh (flat o fresh due t)) (faces fresh [t])
  | .leaf _ _, _ => .refl _
  | .statement _ _ _, _ => .refl _
  | .branch a .root ts, h => by
    rw [flat, faces_root, faces_root]
    exact Sheds.keep _ (sheds_flatAll ts h)
  | .branch a (.atRule n p) ts, h => by
    rw [flat, faces_atRule, faces_atRule]
    exact Sheds.keep _ (sheds_flatAll ts h)
  | .branch a (.rule r) ts, h => by
    obtain ⟨ha, hts⟩ := List.forall_mem_cons.1 h
    rw [flat]
    exact sheds_place ha (sheds_shareAll r ts hts) (sheds_flatAll ts hts)

theorem sheds_flatAll : (ts : List (Tree α)) → (∀ b ∈ rulesAll ts, b ≠ fresh) →
    Sheds o due (faces fresh (flatAll o fresh due ts)) (faces fresh ts)
  | [], _ => .refl _
  | t :: ts, h => by
    obtain ⟨ht, hts⟩ := List.forall_mem_append.1 h
    rw [flatAll, (adds_faces fresh).append, faces_cons]
    exact (sheds_flat t ht).add (sheds_flatAll ts hts)

theorem sheds_share (s : List String) : (t : Tree α) → (∀ b ∈ t.rules, b ≠ fresh) →
    Sheds o due (facesBy fresh [share o fresh due s t]) (faces fresh [t])
  | .leaf a (.comment x), _ => by simp only [share, facesBy_fixed]; exact .refl _
  | .leaf a (.declaration d), _ => by simp only [share, facesBy_movable]; exact .refl _
  | .leaf a (.raw x), _ => by simp only [share, facesBy_movable]; exact .refl _
  | .statement a n p, _ => by
    simp only [share]
    split_ifs with hroot
    · rw [facesBy_lifted, faces_singleton]
      exact Sheds.shed hroot (.refl _)
    · rw [facesBy_lifted]
      exact .refl _
    · rw [facesBy_movable]
      exact .refl _
  | .branch a .root ts, h => by
    rw [share, facesBy_fixed, faces_root, faces_root]
    exact Sheds.keep _ (sheds_flatAll ts h)
  | .branch a (.rule r) ts, h => by
    obtain ⟨ha, hts⟩ := List.forall_mem_cons.1 h
    rw [share, facesBy_lifted]
    exact sheds_place ha (sheds_shareAll _ ts hts) (sheds_flatAll ts hts)
  | .branch a (.atRule n p) ts, h => by
    have hstay := Sheds.keep (a, Face.atRule n p true) (sheds_flatAll ts h)
    simp only [share]
    split_ifs with hroot
    · rw [facesBy_lifted, faces_wrap, faces_atRule]
      exact Sheds.shed hroot (sheds_insideAll _ _ _ ts h)
    · rw [facesBy_lifted, faces_atRule, faces_atRule, faces_wrap]
      exact Sheds.keep _ (sheds_insideAll _ _ _ ts h)
    · rw [facesBy_lifted, faces_atRule, faces_atRule]
      exact hstay
    · rw [facesBy_movable, faces_atRule, faces_atRule]
      exact hstay

theorem sheds_shareAll (s : List String) : (ts : List (Tree α)) → (∀ b ∈ rulesAll ts, b ≠ fresh) →
    Sheds o due (facesBy fresh (shareAll o fresh due s ts)) (faces fresh ts)
  | [], _ => .refl _
  | t :: ts, h => by
    obtain ⟨ht, hts⟩ := List.forall_mem_append.1 h
    rw [shareAll, facesBy_cons, faces_cons]
    exact (sheds_share s t ht).add (sheds_shareAll s ts hts)

theorem sheds_inside (unwrap : Bool) (s : List String) (merge : Bool) : (t : Tree α) →
    (∀ b ∈ t.rules, b ≠ fresh) →
    Sheds o due (facesBy fresh [inside o fresh due unwrap s merge t]) (faces fresh [t])
  | .leaf a l, _ => by rw [inside, facesBy_movable]; exact .refl _
  | .statement a n p, _ => by rw [inside, facesBy_movable]; exact .refl _
  | .branch a .root ts, h => by
    rw [inside, facesBy_movable, faces_root, faces_root]
    exact Sheds.keep _ (sheds_flatAll ts h)
  | .branch a (.rule r) ts, h => by
    obtain ⟨ha, hts⟩ := List.forall_mem_cons.1 h
    simp only [inside]
    split_ifs
    · rw [facesBy_lifted]
      exact sheds_place ha (sheds_shareAll _ ts hts) (sheds_flatAll ts hts)
    · rw [facesBy_lifted]
      exact sheds_place ha (sheds_shareAll _ ts hts) (sheds_flatAll ts hts)
  | .branch a (.atRule n p) ts, h => by
    have hstay := Sheds.keep (a, Face.atRule n p true) (sheds_flatAll ts h)
    simp only [inside]
    split_ifs
    · rw [facesBy_lifted, faces_atRule, faces_atRule, faces_wrap]
      exact Sheds.keep _ (sheds_insideAll _ _ _ ts h)
    · rw [facesBy_lifted, faces_atRule, faces_atRule]
      exact hstay
    · rw [facesBy_movable, faces_atRule, faces_atRule]
      exact hstay

theorem sheds_insideAll (unwrap : Bool) (s : List String) (merge : Bool) : (ts : List (Tree α)) →
    (∀ b ∈ rulesAll ts, b ≠ fresh) →
    Sheds o due (facesBy fresh (insideAll o fresh due unwrap s merge ts)) (faces fresh ts)
  | [], _ => .refl _
  | t :: ts, h => by
    obtain ⟨ht, hts⟩ := List.forall_mem_append.1 h
    rw [insideAll, facesBy_cons, faces_cons]
    exact (sheds_inside unwrap s merge t ht).add (sheds_insideAll unwrap s merge ts hts)

end

theorem mem_rulesAll_iff_faces {b : α} (hne : b ≠ fresh) (ts : List (Tree α)) :
    b ∈ rulesAll ts ↔ (b, Face.rule) ∈ faces fresh ts := by
  rw [mem_rulesAll, mem_faces]
  constructor
  · rintro ⟨t, ht, hrule, rfl⟩
    exact ⟨t, ht, by simp [isCopy, hne], by rw [(face_eq_rule_iff t).2 hrule]⟩
  · rintro ⟨t, ht, -, he⟩
    obtain ⟨hlabel, hface⟩ := Prod.mk.inj he
    exact ⟨t, ht, (face_eq_rule_iff t).1 hface, hlabel⟩

/-- The rules that are not due are those from before. -/
theorem mem_rulesAll_flatAll {b : α} (hb : due b = false) (hne : b ≠ fresh) {ts : List (Tree α)}
    (h : ∀ a ∈ rulesAll ts, a ≠ fresh) :
    b ∈ rulesAll (flatAll o fresh due ts) ↔ b ∈ rulesAll ts := by
  rw [mem_rulesAll_iff_faces hne, mem_rulesAll_iff_faces hne]
  exact ⟨(sheds_flatAll ts h).subset, fun hm =>
    (sheds_flatAll ts h).mem hm (by simp [Face.mayGo, hb])⟩

/-- Options that preserve empty rules let no rule go. -/
theorem mem_rulesAll_preserved (ho : o.preserveEmpty = true) {b : α} (hne : b ≠ fresh)
    {ts : List (Tree α)} (h : ∀ a ∈ rulesAll ts, a ≠ fresh) (hb : b ∈ rulesAll ts) :
    b ∈ rulesAll (flatAll o fresh due ts) := by
  rw [mem_rulesAll_iff_faces hne] at hb ⊢
  exact (sheds_flatAll ts h).mem hb (by simp [Face.mayGo, ho])

end Tree

end Unnest
