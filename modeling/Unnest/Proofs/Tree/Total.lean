import Mathlib.Algebra.Group.Basic
import Mathlib.Algebra.Group.Nat.Defs
import Unnest.Proofs.Tree.Flat

/-! What a flat form adds up to. A quantity that adds over lists of trees, and that a rule taken
apart passes on from its children, is the sum of what the children come to (`total_apart`,
`total_wrap`). Only copies that hold something are made. -/

namespace Unnest.Tree

variable {α M : Type} [AddCommMonoid M]

/-- A quantity that adds over lists of trees. -/
structure Adds (φ : List (Tree α) → M) : Prop where
  nil : φ [] = 0
  append : ∀ ts us, φ (ts ++ us) = φ ts + φ us

namespace Share

/-- The sum over some shares, where `φ` measures what stays and `ψ` what leaves. -/
def total (φ ψ : List (Tree α) → M) : List (Share α) → M
  | [] => 0
  | .fixed ts :: shares => φ ts + total φ ψ shares
  | .movable ts :: shares => φ ts + total φ ψ shares
  | .lifted ts :: shares => ψ ts + total φ ψ shares

variable {φ ψ : List (Tree α) → M} {fresh : α} {s : List String}

theorem total_cons (x : Share α) (shares : List (Share α)) :
    total φ ψ (x :: shares) = total φ ψ [x] + total φ ψ shares := by
  cases x <;> simp [total]

theorem measure_copy (hφ : Adds φ) (hψ : Adds ψ)
    (hfresh : ∀ ts, ts ≠ [] → ψ [.branch fresh (.rule s) ts] = φ ts) (ts : List (Tree α)) :
    ψ (copy fresh s ts) = φ ts := by
  cases ts with
  | nil => exact hψ.nil.trans hφ.nil.symm
  | cons t ts => exact hfresh (t :: ts) (List.cons_ne_nil t ts)

theorem measure_kept_left (hφ : Adds φ) (hψ : Adds ψ)
    (hfresh : ∀ ts, ts ≠ [] → ψ [.branch fresh (.rule s) ts] = φ ts) (split : Bool)
    (pending : List (Tree α)) (shares : List (Share α)) :
    φ (kept split shares) + ψ (left fresh s split pending shares) =
      φ pending + total φ ψ shares := by
  induction shares generalizing split pending with
  | nil => rw [kept, left, measure_copy hφ hψ hfresh, hφ.nil, total, add_comm]
  | cons x shares ih =>
    cases x with
    | fixed ts => rw [kept, left, hφ.append, add_assoc, ih, total, add_left_comm]
    | movable ts =>
      cases split with
      | false =>
        simp only [kept, left, total, Bool.false_eq_true, if_false]
        rw [hφ.append, add_assoc, ih, add_left_comm]
      | true =>
        simp only [kept, left, total, if_true]
        rw [ih, hφ.append, add_assoc]
    | lifted ts =>
      rw [kept, left, hψ.append, hψ.append, measure_copy hφ hψ hfresh, total, add_left_comm,
        ih, hφ.nil, zero_add, add_assoc]

/-- A rule taken apart passes on what its children come to, and adds what it weighs itself unless
the options let it be dropped. -/
theorem total_apart_weighed {o : Options} {a : α} (hφ : Adds φ) (hψ : Adds ψ)
    (hfresh : ∀ ts, ts ≠ [] → ψ [.branch fresh (.rule s) ts] = φ ts) {w : M}
    (ha : ∀ ts, ψ [.branch a (.rule s) ts] = w + φ ts) (shares : List (Share α)) :
    ψ (apart o fresh a s shares) = w + total φ ψ shares ∨
      (o.preserveEmpty = false ∧ ψ (apart o fresh a s shares) = total φ ψ shares) := by
  have hsum := measure_kept_left hφ hψ hfresh false [] shares
  rw [hφ.nil, zero_add] at hsum
  rw [apart, hψ.append, ← hsum]
  split
  · next hdrop =>
    simp only [Bool.and_eq_true, List.isEmpty_iff, Bool.not_eq_true'] at hdrop
    exact .inr ⟨hdrop.1.2, by rw [hdrop.2, hψ.nil, hφ.nil]⟩
  · exact .inl (by rw [ha, add_assoc])

theorem total_apart {o : Options} {a : α} (hφ : Adds φ) (hψ : Adds ψ)
    (hfresh : ∀ ts, ts ≠ [] → ψ [.branch fresh (.rule s) ts] = φ ts)
    (ha : ∀ ts, ψ [.branch a (.rule s) ts] = φ ts) (shares : List (Share α)) :
    ψ (apart o fresh a s shares) = total φ ψ shares := by
  rcases total_apart_weighed (o := o) (w := 0) hφ hψ hfresh (by simpa using ha) shares with h | h
  · rw [h, zero_add]
  · exact h.2

theorem total_wrap (hφ : Adds φ) (hψ : Adds ψ)
    (hfresh : ∀ ts, ts ≠ [] → ψ [.branch fresh (.rule s) ts] = φ ts) (shares : List (Share α)) :
    ψ (wrap fresh s shares) = total φ ψ shares := by
  have hparts : φ (leftovers shares) + ψ (goers shares) = total φ ψ shares := by
    induction shares with
    | nil => simp [leftovers, goers, total, hφ.nil, hψ.nil]
    | cons x shares ih =>
      cases x with
      | fixed ts => rw [leftovers, goers, hφ.append, add_assoc, ih, total]
      | movable ts => rw [leftovers, goers, hφ.append, add_assoc, ih, total]
      | lifted ts => rw [leftovers, goers, hψ.append, add_left_comm, ih, total]
  rw [wrap, hψ.append, measure_copy hφ hψ hfresh, hparts]

end Share

end Unnest.Tree
