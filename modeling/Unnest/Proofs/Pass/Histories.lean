import Unnest.Proofs.Pass.Calls
import Unnest.Proofs.Pass.Links
import Unnest.Proofs.Store.Closed

/-! All that can be done with a store, move by move. A history builds nodes, moves them, edits
selectors, gives nodes up, expands rules and runs passes whose handlers do no more than that; a step
that fails is part of it. No history that puts no node into itself or below itself brings links and
child lists apart. -/

namespace Unnest.Pass

open Edit Store

variable {ρ : Type}

/-- The store in which a step ends, failed or not. -/
def endOf {α : Type} : EStateM.Result Error (Scene ρ) α → Store
  | .ok _ sc => sc.store
  | .error _ sc => sc.store

/-- A history from one store to another. -/
inductive Leads : Store → Store → Prop where
  | refl (s : Store) : Leads s s
  | trans {s s₁ s₂ : Store} (h : Leads s s₁) (h' : Leads s₁ s₂) : Leads s s₂
  | build (s : Store) (x : Node) (hx : x.isNew = true) : Leads s (s.alloc x).2
  | append (s : Store) (p n : NodeId) (hn : (s.get? n).isSome = true) (hp : ¬ s.Reaches n p) :
      Leads s (s.append p n).store
  | prepend (s : Store) (p n : NodeId) (hn : (s.get? n).isSome = true) (hp : ¬ s.Reaches n p) :
      Leads s (s.prepend p n).store
  | insertAfter (s : Store) (anchor n : NodeId) (hn : (s.get? n).isSome = true)
      (hp : anchor ≠ n → ∀ p, s.parent? anchor = some p → ¬ s.Reaches n p) :
      Leads s (s.insertAfter anchor n).store
  | remove (s : Store) (p n : NodeId) : Leads s (s.remove p n).2
  | detach (s : Store) (n : NodeId) : Leads s (s.detach n).2
  | editSelectors (s : Store) (n : NodeId) (f : List String → List String) :
      Leads s (s.editSelectors n f)
  | reclaim (s : Store) (held : List NodeId) : Leads s (s.reclaim held)
  | expand {ρ : Type} (o : Options) (rule : NodeId) (sc : Scene ρ) :
      Leads sc.store (endOf (unnest o rule sc))
  /-- The handler may have a history of its own at each call. -/
  | run {ρ : Type} (o : Options) (handler : NodeId → Edit ρ Unit) (doc : NodeId) (s : Store)
      (log : Array Event) (own : ρ)
      (hcalls : ∀ c ∈ callsOf (sweep o (recorded handler) doc ⟨s, log, own, []⟩),
        Leads c.found.store c.left.store) :
      Leads s (endOf (sweep o handler doc ⟨s, log, own⟩))

/-- What the calls of a pass keep, each of them finds. -/
structure Passes (P : Store → Prop) (calls : List (Call ρ)) (s' : Store) : Prop where
  found : ∀ earlier c later, calls = earlier ++ c :: later →
    (∀ d ∈ earlier, P d.found.store → P d.left.store) → P c.found.store
  ends : (∀ c ∈ calls, P c.found.store → P c.left.store) → P s'

theorem Passes.nil {P : Store → Prop} {s : Store} (h : P s) : Passes P ([] : List (Call ρ)) s :=
  ⟨by simp, fun _ => h⟩

theorem Passes.call {P : Store → Prop} {c : Call ρ} {calls : List (Call ρ)} {s' : Store}
    (hc : P c.found.store) (h : P c.left.store → Passes P calls s') : Passes P (c :: calls) s' where
  found earlier d later he hd := by
    rcases List.cons_eq_append_iff.1 he with ⟨rfl, hd'⟩ | ⟨rest, rfl, hrest⟩
    · obtain ⟨rfl, -⟩ := List.cons.inj hd'
      exact hc
    · exact (h (hd c List.mem_cons_self hc)).found rest d later hrest
        fun e he => hd e (List.mem_cons_of_mem c he)
  ends hall :=
    (h (hall c List.mem_cons_self hc)).ends fun d hd => hall d (List.mem_cons_of_mem c hd)

theorem visit_passes (P : Store → Prop) (stale : Stale) (handler : NodeId → Edit ρ Unit)
    (rules : List NodeId) (st : Stats) (sc : Scene (ρ × List (Call ρ))) :
    ∃ calls, callsOf (visit stale (recorded handler) rules st sc) = sc.own.2 ++ calls ∧
      (P sc.store → Passes P calls (endOf (visit stale (recorded handler) rules st sc))) := by
  induction rules generalizing st sc with
  | nil => exact ⟨[], (List.append_nil _).symm, Passes.nil⟩
  | cons n rules ih =>
    rcases skips_or_calls stale sc.store n with ⟨rfl, hr⟩ | hr
    · rw [visit_skip hr]
      exact ih _ ⟨sc.store, sc.log.push .skipping, sc.own⟩
    · rw [visit_call hr, recorded]
      set c : Call ρ := ⟨n, plain (announce n sc), handler n (plain (announce n sc))⟩ with hc
      have hfound : c.found.store = sc.store := store_announce n sc
      have hpast : (announce n sc).own.2 = sc.own.2 := by rw [own_announce]
      rw [← hfound]
      cases hh : handler n (plain (announce n sc)) with
      | ok _ sc₁ =>
        have hleft : c.left = sc₁ := by simp [hc, Call.left, hh]
        obtain ⟨calls, hcalls, hp⟩ := ih { st with dispatched := st.dispatched + 1 }
          ⟨sc₁.store, sc₁.log, (sc₁.own, sc.own.2 ++ [c])⟩
        rw [← hleft] at hcalls hp
        rw [hpast, ← hleft]
        exact ⟨c :: calls, by simpa using hcalls, fun h => Passes.call h hp⟩
      | error e sc₁ =>
        have hleft : c.left = sc₁ := by simp [hc, Call.left, hh]
        rw [hpast, ← hleft]
        exact ⟨[c], rfl, fun h => Passes.call h Passes.nil⟩

theorem sweep_passes (P : Store → Prop) (o : Options) (handler : NodeId → Edit ρ Unit)
    (doc : NodeId) (s : Store) (log : Array Event) (own : ρ) (h : P s) :
    Passes P (callsOf (sweep o (recorded handler) doc ⟨s, log, own, []⟩))
      (endOf (sweep o handler doc ⟨s, log, own⟩)) := by
  obtain ⟨calls, hcalls, hp⟩ := visit_passes P o.stale handler (s.rulesUnder doc)
    ⟨(s.rulesUnder doc).length, 0, 0⟩
    ⟨s, log.push (.started (s.rulesUnder doc).length), own, []⟩
  have hrun := sweep_recorded o handler doc ⟨s, log, own, []⟩
  rw [show plain ⟨s, log, (own, ([] : List (Call ρ)))⟩ = ⟨s, log, own⟩ from rfl] at hrun
  rw [hrun]
  simp only [sweep, bind, EStateM.bind, look, note]
  revert hcalls hp
  cases visit o.stale (recorded handler) (s.rulesUnder doc) _ _ with
  | ok st sc => exact fun hcalls hp => hcalls ▸ hp h
  | error e sc => exact fun hcalls hp => hcalls ▸ hp h

theorem Leads.inOrder {s s' : Store} (h : Leads s s') : s.InOrder → s'.InOrder := by
  induction h with
  | refl s => exact id
  | trans _ _ ih ih' => exact fun h => ih' (ih h)
  | build s x hx => exact fun h => h.alloc hx
  | append s p n hn hp => exact fun h => h.append hn hp
  | prepend s p n hn hp => exact fun h => h.prepend hn hp
  | insertAfter s anchor n hn hp => exact fun h => h.insertAfter hn hp
  | remove s p n => exact fun ⟨rank, h⟩ => ⟨rank, h.remove p n⟩
  | detach s n => exact fun ⟨rank, h⟩ => ⟨rank, h.detach n⟩
  | editSelectors s n f => exact fun ⟨rank, h⟩ => ⟨rank, h.editSelectors n f⟩
  | reclaim s held => exact fun ⟨rank, h⟩ => ⟨rank, h.reclaim held⟩
  | expand o rule sc =>
    obtain ⟨s, log, own⟩ := sc
    intro h
    have hend := ends_unnest o rule h log own
    revert hend
    cases unnest o rule ⟨s, log, own⟩ with
    | ok _ sc => exact id
    | error _ sc => exact id
  | run o handler doc s log own _ ih =>
    exact fun h => (sweep_passes Store.InOrder o handler doc s log own h).ends ih

/-- After every step of a history from nothing, and at every moment of a pass that continues it, the
calls so far having kept to moves that put no node into itself or below itself, links and child
lists agree and no node lies below itself. -/
theorem coherent_of_leads {s : Store} (h : Leads .empty s) :
    s.Coherent ∧
    ∀ (ρ : Type) (o : Options) (handler : NodeId → Edit ρ Unit) (doc : NodeId) (log : Array Event)
      (own : ρ) (earlier : List (Call ρ)) (c : Call ρ) (later : List (Call ρ)),
      callsOf (sweep o (recorded handler) doc ⟨s, log, own, []⟩) = earlier ++ c :: later →
      (∀ d ∈ earlier, Leads d.found.store d.left.store) →
      ∀ s', Leads c.found.store s' → s'.Coherent := by
  have hs : s.InOrder := h.inOrder inOrder_empty
  have hcoherent : ∀ {s : Store}, s.InOrder → s.Coherent := fun ⟨_, h⟩ => h.coherent
  refine ⟨hcoherent hs, fun ρ o handler doc log own earlier c later hcalls hearlier s' hs' => ?_⟩
  have hpasses := sweep_passes Store.InOrder o handler doc s log own hs
  have hfound := hpasses.found earlier c later hcalls fun d hd => (hearlier d hd).inOrder
  exact hcoherent (hs'.inOrder hfound)

theorem leads_chainStore : Leads .empty chainStore :=
  let s₀ : Store := ⟨#[some (.root []), some (.rule ["a"] [] none), some (.rule ["b"] [] none)]⟩
  let s₁ : Store :=
    ⟨#[some (.root [1]), some (.rule ["a"] [] (some 0)), some (.rule ["b"] [] none)]⟩
  have h₀ : Leads .empty s₀ := (Leads.build .empty (.root []) rfl).trans
    ((Leads.build _ (.rule ["a"] [] none) rfl).trans (Leads.build _ (.rule ["b"] [] none) rfl))
  have h₁ : Leads s₀ s₁ := Leads.append s₀ 0 1 rfl (not_reaches rfl (by decide))
  have h₂ : Leads s₁ chainStore := Leads.append s₁ 1 2 rfl (not_reaches rfl (by decide))
  h₀.trans (h₁.trans h₂)

/-- The pass over `chainStore` hands over one rule, and its handler takes the other one away. A move
behind the document itself fails afterwards, but the node has left its place. -/
theorem coherent_chainStore :
    let run := sweep {} (recorded dropSecond) 0 ⟨chainStore, #[], (), []⟩
    (∃ c, callsOf run = [c] ∧ c.found.store.Coherent ∧ c.left.store.Coherent) ∧
    ∃ s, chainStore.insertAfter 0 2 = .error .detached s ∧ s.Coherent := by
  intro run
  obtain ⟨-, hcalls⟩ := coherent_of_leads leads_chainStore
  have hcall := hcalls Unit {} dropSecond 0 #[] () [] _ [] rfl (by simp)
  have hmove : Leads chainStore (chainStore.insertAfter 0 2).store :=
    Leads.insertAfter chainStore 0 2 rfl fun _ p hp => by cases hp
  refine ⟨⟨_, rfl, hcall _ (Leads.refl _), hcall _ (Leads.detach _ 2)⟩, _, rfl, ?_⟩
  exact (coherent_of_leads (leads_chainStore.trans hmove)).1

end Unnest.Pass
