import Mathlib.Data.Fintype.Pigeonhole
import Unnest.Proofs.Store.Order

/-! Climbing in any store, also in one whose links run in a circle. A climb answers where it finds
what it looks for or where the links end; in a circle it may do neither. The bounded climb of a store
tells when a climb finds a root: a shortest way up visits no node twice, so it is no longer than the
store. -/

namespace Unnest.Store

open Relation

variable {s : Store} {n m p : NodeId} {test : NodeId → Bool}

/-- A climb that starts at a node, or nowhere, and looks for `test`. It answers at the first node
that passes, or where the links end; one that goes on forever has no answer. -/
inductive Climbs (s : Store) (test : NodeId → Bool) : Option NodeId → Bool → Prop where
  | ended : Climbs s test none false
  | found {n : NodeId} (hn : test n = true) : Climbs s test (some n) true
  | up {n : NodeId} {answer : Bool} (hn : test n = false)
      (h : Climbs s test (s.parent? n) answer) : Climbs s test (some n) answer

/-- A climb from `n` that looks for a root and never answers. -/
def Endless (s : Store) (n : NodeId) : Prop := ∀ answer, ¬ Climbs s s.isRoot (some n) answer

/-- One link up. -/
def LinksUp (s : Store) (n p : NodeId) : Prop := s.parent? n = some p

theorem Climbs.unique {o : Option NodeId} {a b : Bool} (ha : Climbs s test o a)
    (hb : Climbs s test o b) : a = b := by
  induction ha with
  | ended => cases hb; rfl
  | found hn =>
    cases hb with
    | found => rfl
    | up hn' => rw [hn] at hn'; cases hn'
  | up hn _ ih =>
    cases hb with
    | found hn' => rw [hn] at hn'; cases hn'
    | up _ h => exact ih h

/-- The node `k` links above `n`. -/
def above? (s : Store) : Nat → NodeId → Option NodeId
  | 0, n => some n
  | k + 1, n => (s.above? k n).bind s.parent?

theorem above?_add (j k : Nat) (n : NodeId) :
    s.above? (j + k) n = (s.above? j n).bind (s.above? k) := by
  induction k with
  | zero => simp [above?]
  | succ k ih =>
    rw [← Nat.add_assoc, above?, ih, Option.bind_assoc]
    rfl

theorem above?_succ (k : Nat) (n : NodeId) :
    s.above? (k + 1) n = (s.parent? n).bind (s.above? k) := by
  rw [Nat.add_comm, above?_add]
  rfl

theorem mem_climb_of_above? {k bound : Nat} (hm : s.above? k n = some m) (hk : k < bound) :
    m ∈ s.climb bound n := by
  induction k generalizing n bound with
  | zero =>
    obtain ⟨b, rfl⟩ : ∃ b, bound = b + 1 := ⟨bound - 1, by omega⟩
    obtain rfl : n = m := Option.some.inj hm
    exact List.mem_cons_self
  | succ k ih =>
    obtain ⟨b, rfl⟩ : ∃ b, bound = b + 1 := ⟨bound - 1, by omega⟩
    rw [above?_succ, Option.bind_eq_some_iff] at hm
    obtain ⟨p, hp, hm⟩ := hm
    rw [climb, hp]
    exact List.mem_cons_of_mem n (ih hm (by omega))

theorem exists_above?_of_mem_climb {bound : Nat} (hm : m ∈ s.climb bound n) :
    ∃ k, s.above? k n = some m := by
  induction bound generalizing n with
  | zero => simp [climb] at hm
  | succ bound ih =>
    rw [climb] at hm
    rcases List.mem_cons.1 hm with rfl | hm
    · exact ⟨0, rfl⟩
    · cases hp : s.parent? n with
      | none => simp [hp] at hm
      | some p =>
        rw [hp] at hm
        obtain ⟨k, hk⟩ := ih hm
        exact ⟨k + 1, by rw [above?_succ, hp]; exact hk⟩

theorem Climbs.exists_above? {o : Option NodeId} {answer : Bool} (h : Climbs s test o answer)
    (ha : answer = true) : ∀ n ∈ o, ∃ k m, s.above? k n = some m ∧ test m = true := by
  induction h with
  | ended => cases ha
  | @found n hn =>
    intro m hm
    obtain rfl : n = m := Option.some.inj hm
    exact ⟨0, n, rfl, hn⟩
  | @up n _ _ hup ih =>
    intro m hm
    obtain rfl : n = m := Option.some.inj hm
    cases hp : s.parent? n with
    | none =>
      rw [hp, ha] at hup
      cases hup
    | some p =>
      obtain ⟨k, m, hk, hm⟩ := ih ha p hp
      exact ⟨k + 1, m, by rw [above?_succ, hp]; exact hk, hm⟩

theorem climbs_true_iff :
    Climbs s test (some n) true ↔ ∃ k m, s.above? k n = some m ∧ test m = true := by
  refine ⟨fun h => h.exists_above? rfl n rfl, ?_⟩
  rintro ⟨k, m, hk, hm⟩
  induction k generalizing n with
  | zero =>
    obtain rfl : n = m := Option.some.inj hk
    exact .found hm
  | succ k ih =>
    rw [above?_succ, Option.bind_eq_some_iff] at hk
    obtain ⟨p, hp, hk⟩ := hk
    cases hn : test n with
    | true => exact .found hn
    | false => exact .up hn (hp ▸ ih hk)

/-- A climb whose links end has an answer. -/
theorem exists_climbs_of_above? {k : Nat} (hk : s.above? k n = none) :
    ∃ answer, Climbs s test (some n) answer := by
  induction k generalizing n with
  | zero => cases hk
  | succ k ih =>
    cases hn : test n with
    | true => exact ⟨true, .found hn⟩
    | false =>
      cases hp : s.parent? n with
      | none => exact ⟨false, .up hn (hp ▸ .ended)⟩
      | some p =>
        rw [above?_succ, hp] at hk
        obtain ⟨answer, h⟩ := ih hk
        exact ⟨answer, .up hn (hp ▸ h)⟩

/-- There are only as many nodes as the store has cells: a way up that takes as many links comes by
one of them twice. -/
theorem exists_revisit {k : Nat} (hk : s.size ≤ k)
    (h : ∀ i ≤ k, ∃ m, s.above? i n = some m ∧ m < s.size) :
    ∃ i j m, i < j ∧ j ≤ k ∧ s.above? i n = some m ∧ s.above? j n = some m := by
  let visited : Fin (k + 1) → Fin s.size := fun i =>
    ⟨(s.above? i n).getD 0, by
      obtain ⟨m, hm, hlt⟩ := h i (Nat.le_of_lt_succ i.isLt)
      rw [hm]
      exact hlt⟩
  obtain ⟨i, j, hne, heq⟩ := Fintype.exists_ne_map_eq_of_card_lt visited (by simp; omega)
  have hvalue : ∀ i : Fin (k + 1), s.above? i n = some (visited i).val := by
    intro i
    obtain ⟨m, hm, -⟩ := h i (Nat.le_of_lt_succ i.isLt)
    simp [visited, hm]
  have hi := hvalue i
  rw [heq] at hi
  rcases lt_or_gt_of_ne (Fin.val_ne_of_ne hne) with hlt | hlt
  · exact ⟨i, j, _, hlt, Nat.le_of_lt_succ j.isLt, hi, hvalue j⟩
  · exact ⟨j, i, _, hlt, Nat.le_of_lt_succ i.isLt, hvalue j, hi⟩

theorem isSome_of_isRoot (h : s.isRoot n = true) : (s.get? n).isSome = true := by
  unfold isRoot at h
  cases hx : s.get? n with
  | none => simp [hx] at h
  | some x => rfl

/-- A root has no link. -/
theorem parent?_of_isRoot (h : s.isRoot n = true) : s.parent? n = none := by
  unfold isRoot at h
  cases hx : s.get? n with
  | none => simp [hx] at h
  | some x => cases x <;> simp_all [Node.isRoot, Node.link, parent?]

theorem lt_size_of_parent? (h : s.parent? n = some p) : n < s.size := by
  apply lt_size_of_isSome
  cases hx : s.get? n with
  | none => simp [parent?, hx] at h
  | some x => rfl

/-- The nodes below one that is there are there too. -/
theorem exists_above?_of_le {k : Nat} (hm : s.above? k n = some m) (hsize : m < s.size) :
    ∀ i ≤ k, ∃ x, s.above? i n = some x ∧ x < s.size := by
  intro i hi
  rcases Nat.lt_or_eq_of_le hi with hlt | rfl
  · obtain ⟨d, rfl⟩ : ∃ d, k = i + (d + 1) := ⟨k - i - 1, by omega⟩
    rw [above?_add, Option.bind_eq_some_iff] at hm
    obtain ⟨x, hx, hm⟩ := hm
    rw [above?_succ, Option.bind_eq_some_iff] at hm
    obtain ⟨p, hp, -⟩ := hm
    exact ⟨x, hx, lt_size_of_parent? hp⟩
  · exact ⟨m, hm, hsize⟩

/-- The bounded climb finds a root if there is one: the shortest way to it is short enough. -/
theorem reachesRoot_iff : s.reachesRoot n = true ↔ Climbs s s.isRoot (some n) true := by
  rw [climbs_true_iff, reachesRoot, lineage, List.any_eq_true]
  constructor
  · rintro ⟨m, hm, hroot⟩
    obtain ⟨k, hk⟩ := exists_above?_of_mem_climb hm
    exact ⟨k, m, hk, hroot⟩
  · intro h
    classical
    obtain ⟨m, hm, hroot⟩ := Nat.find_spec h
    have hshort : Nat.find h < s.size := by
      by_contra hlong
      obtain ⟨i, j, x, hij, hj, hi, hx⟩ := exists_revisit (Nat.le_of_not_lt hlong)
        (exists_above?_of_le hm (lt_size_of_isSome (isSome_of_isRoot hroot)))
      -- the way without the detour from `x` to `x` is shorter
      obtain ⟨d, hd⟩ : ∃ d, Nat.find h = j + d := ⟨Nat.find h - j, by omega⟩
      have hcut : s.above? (i + d) n = some m := by
        rw [hd, above?_add, hx] at hm
        rw [above?_add, hi]
        exact hm
      exact Nat.find_min h (by omega) ⟨m, hcut, hroot⟩
    exact ⟨m, mem_climb_of_above? hm hshort, hroot⟩

theorem reachesRoot_eq_false (h : Climbs s s.isRoot (some n) false) : s.reachesRoot n = false := by
  cases hr : s.reachesRoot n with
  | false => rfl
  | true => exact absurd (h.unique (reachesRoot_iff.1 hr)) Bool.false_ne_true

theorem climbs_or_endless (s : Store) (n : NodeId) :
    Climbs s s.isRoot (some n) true ∨ Climbs s s.isRoot (some n) false ∨ s.Endless n := by
  by_cases h : ∃ answer, Climbs s s.isRoot (some n) answer
  · obtain ⟨answer, h⟩ := h
    cases answer with
    | true => exact .inl h
    | false => exact .inr (.inl h)
  · exact .inr (.inr fun answer ha => h ⟨answer, ha⟩)

theorem transGen_of_above? {k : Nat} (h : s.above? (k + 1) n = some m) :
    TransGen s.LinksUp n m := by
  induction k generalizing m with
  | zero => exact .single h
  | succ k ih =>
    rw [above?, Option.bind_eq_some_iff] at h
    obtain ⟨p, hp, hm⟩ := h
    exact (ih hp).tail hm

theorem reflTransGen_of_above? {k : Nat} (h : s.above? k n = some m) :
    ReflTransGen s.LinksUp n m := by
  cases k with
  | zero =>
    obtain rfl : n = m := Option.some.inj h
    exact .refl
  | succ k => exact (transGen_of_above? h).to_reflTransGen

/-- Links that run in a circle somewhere above `n`. -/
def Circles (s : Store) (n : NodeId) : Prop :=
  ∃ m, ReflTransGen s.LinksUp n m ∧ TransGen s.LinksUp m m

theorem Circles.up (h : s.Circles n) : ∃ p, s.parent? n = some p ∧ s.Circles p := by
  obtain ⟨m, hnm, hm⟩ := h
  rcases ReflTransGen.cases_head hnm with rfl | ⟨p, hp, hpm⟩
  · obtain ⟨p, hp, hpn⟩ := TransGen.head'_iff.1 hm
    exact ⟨p, hp, n, hpn, hm⟩
  · exact ⟨p, hp, m, hpm, hm⟩

/-- A climb goes on forever exactly below a node that is a container of itself. -/
theorem endless_iff : s.Endless n ↔ s.Circles n := by
  constructor
  · intro h
    have hgo : ∀ k, ∃ m, s.above? k n = some m ∧ m < s.size := by
      intro k
      cases hk : s.above? (k + 1) n with
      | none =>
        obtain ⟨answer, ha⟩ := exists_climbs_of_above? hk
        exact absurd ha (h answer)
      | some p =>
        obtain ⟨m, hm, hp⟩ := Option.bind_eq_some_iff.1 hk
        exact ⟨m, hm, lt_size_of_parent? hp⟩
    obtain ⟨i, j, m, hij, -, hi, hj⟩ := exists_revisit (Nat.le_refl s.size) fun i _ => hgo i
    obtain ⟨d, rfl⟩ : ∃ d, j = i + (d + 1) := ⟨j - i - 1, by omega⟩
    rw [above?_add, hi] at hj
    exact ⟨m, reflTransGen_of_above? hi, transGen_of_above? hj⟩
  · intro h answer hclimb
    suffices hno : ∀ o a, Climbs s s.isRoot o a → ∀ n ∈ o, ¬ s.Circles n from
      hno _ _ hclimb n rfl h
    intro o a hclimb
    induction hclimb with
    | ended => simp
    | @found n hroot =>
      intro m hm hc
      obtain rfl : n = m := Option.some.inj hm
      obtain ⟨p, hp, -⟩ := hc.up
      rw [parent?_of_isRoot hroot] at hp
      cases hp
    | @up n _ _ _ ih =>
      intro m hm hc
      obtain rfl : n = m := Option.some.inj hm
      obtain ⟨p, hp, hc⟩ := hc.up
      exact ih p hp hc

/-- Two rules that are put into each other: the second one's list is emptied on the way, so no list
shows it. -/
example : Endless ⟨#[some (.root []), some (.rule ["a"] [] (some 2)),
    some (.rule ["b"] [1] (some 1))]⟩ 1 :=
  endless_iff.2 ⟨1, .refl, .tail (.single rfl) rfl⟩

end Unnest.Store
