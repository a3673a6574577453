import Unnest.Proofs.Pass.Conservation
import Unnest.Proofs.Tree.Prune

/-! Two passes over one document that treat emptied rules differently. The one that preserves them
keeps every rule; the other one leaves the same tree without the rules that hold nothing now and
held something before. -/

namespace Unnest.Pass

open Tree Store

variable {ρ : Type} {s : Store} {doc : NodeId} {ts : List (Tree NodeId)}

/-- Whether the node held something in `s`. A node that came later did not. -/
def wasFilled (s : Store) (n : NodeId) : Bool := !(s.children n).isEmpty

theorem wasFilled_origin (s : Store) (n : NodeId) :
    (origin s.size n).any (wasFilled s) = wasFilled s n := by
  unfold origin
  split
  · rfl
  · next h =>
    have hnone : s.get? n = none := get?_eq_none_of_size_le (Nat.not_lt.1 h)
    simp [wasFilled, Store.children, children?, hnone]

theorem marks_wasFilled (h : s.IsDocument doc ts) :
    ∀ u ∈ nodesAll (mapAll some ts), Marks (fun a => a.any (wasFilled s)) u := by
  intro u hu _
  rw [nodesAll_mapAll] at hu
  obtain ⟨t, ht, rfl⟩ := List.mem_map.1 hu
  obtain ⟨p, hp⟩ := h.below.of_mem_nodes t ht
  rw [label_map, children_map, isEmpty_mapAll]
  change wasFilled s t.label = _
  rw [wasFilled, hp.children_eq, List.isEmpty_map]

/-- Preserving empty rules changes nothing but the pruning: the rules that hold nothing now and held
something before. -/
theorem flatten_prunes (o : Options) (h : s.IsDocument doc ts) (log : Array Event) (own : ρ) :
    ∃ st s₁ ts₁ log₁ s₂ ts₂ log₂,
      flatten o.preserving doc ⟨s, log, own⟩ = .ok st ⟨s₁, log₁, own⟩ ∧ s₁.IsDocument doc ts₁ ∧
      flatten o.dropping doc ⟨s, log, own⟩ = .ok st ⟨s₂, log₂, own⟩ ∧ s₂.IsDocument doc ts₂ ∧
      (∀ n ∈ rulesAll ts, n ∈ rulesAll ts₁) ∧
      mapAll (origin s.size) ts₂ = mapAll (origin s.size) (pruneAll (wasFilled s) ts₁) := by
  obtain ⟨s₁, ts₁, hrun₁, hb₁, hts₁⟩ := runs_flatten (ρ := ρ) o.preserving h
  obtain ⟨s₂, ts₂, hrun₂, hb₂, hts₂⟩ := runs_flatten (ρ := ρ) o.dropping h
  obtain ⟨log₁, hok₁⟩ := hrun₁ log own
  obtain ⟨log₂, hok₂⟩ := hrun₂ log own
  refine ⟨_, s₁, ts₁, log₁, s₂, ts₂, log₂, hok₁, hb₁.part.isDocument, hok₂, hb₂.part.isDocument,
    fun n hn => ?_, ?_⟩
  · have hafter : some n ∈ rulesAll (flatAll o.preserving none (fun _ => true) (mapAll some ts)) :=
      mem_rulesAll_preserved rfl (Option.some_ne_none n) (fun a => ne_none_of_mem_rulesAll)
        (some_mem_rulesAll hn)
    rw [← hts₁] at hafter
    exact mem_rulesAll_of_origin hafter
  · rw [hts₂, ← prune_flatAll o none (mapAll some ts) (marks_wasFilled h), ← hts₁, pruneAll_mapAll]
    congr 2
    exact funext (wasFilled_origin s)

theorem flatten_prunes_escapeStore : ∃ st s₁ ts₁ log₁ s₂ ts₂ log₂,
    flatten { preserveEmpty := true } 0 ⟨escapeStore, #[], ()⟩ = .ok st ⟨s₁, log₁, ()⟩ ∧
    s₁.IsDocument 0 ts₁ ∧ flatten {} 0 ⟨escapeStore, #[], ()⟩ = .ok st ⟨s₂, log₂, ()⟩ ∧
    s₂.IsDocument 0 ts₂ ∧ (∀ n ∈ [1, 4, 6], n ∈ rulesAll ts₁) ∧
    mapAll (origin 7) ts₂ = mapAll (origin 7) (pruneAll (wasFilled escapeStore) ts₁) :=
  flatten_prunes {} escapeStore_isDocument #[] ()

end Unnest.Pass
