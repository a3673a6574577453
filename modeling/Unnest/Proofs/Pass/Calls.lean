import Unnest.Pass.Sweep
import Unnest.Proofs.Store.Climbs

/-! The calls a pass makes, for any handler. A recorder around the handler keeps each call with the
scene it found and the way it ended; it changes nothing else (`sweep_recorded`). The rules of the
document have their turn once and in document order, and the policy alone decides which of them are
handed over. A handler that makes a node a container of itself can leave a store in which the climb
at the next turn never ends; the bounded climb of the definitions goes on there, so what comes after
such a turn is not told. -/

namespace Unnest.Pass

open Edit Store Relation

variable {ρ : Type}

/-- One call of a handler: the rule it was given, what it found and how it ended. -/
structure Call (ρ : Type) where
  rule : NodeId
  found : Scene ρ
  ended : EStateM.Result Error (Scene ρ) Unit

def Call.left (c : Call ρ) : Scene ρ :=
  match c.ended with
  | .ok _ sc => sc
  | .error _ sc => sc

def Call.Succeeds (c : Call ρ) : Prop := ∃ sc, c.ended = .ok () sc

/-- The scene without the record. -/
def plain (sc : Scene (ρ × List (Call ρ))) : Scene ρ := ⟨sc.store, sc.log, sc.own.1⟩

def forget {α : Type} : EStateM.Result Error (Scene (ρ × List (Call ρ))) α →
    EStateM.Result Error (Scene ρ) α
  | .ok a sc => .ok a (plain sc)
  | .error e sc => .error e (plain sc)

/-- The handler, with a record of its calls. -/
def recorded (handler : NodeId → Edit ρ Unit) (rule : NodeId) : Edit (ρ × List (Call ρ)) Unit :=
  fun sc =>
    let ended := handler rule (plain sc)
    let calls := sc.own.2 ++ [⟨rule, plain sc, ended⟩]
    match ended with
    | .ok _ sc => .ok () ⟨sc.store, sc.log, (sc.own, calls)⟩
    | .error e sc => .error e ⟨sc.store, sc.log, (sc.own, calls)⟩

/-- The calls on record when a pass is over. -/
def callsOf {α : Type} : EStateM.Result Error (Scene (ρ × List (Call ρ))) α → List (Call ρ)
  | .ok _ sc => sc.own.2
  | .error _ sc => sc.own.2

/-- The store that a list of calls leaves, the last one's. -/
def leftBy (s : Store) (calls : List (Call ρ)) : Store :=
  calls.foldl (fun _ c => c.left.store) s

/-- What the policy decides about the rule `n` at its turn, once it does. -/
inductive Decides (s : Store) (n : NodeId) : Stale → Bool → Prop where
  | dispatch : Decides s n .dispatch true
  | skip {answer : Bool} (h : Climbs s s.isRoot (some n) answer) : Decides s n .skip answer

/-- The policy decides, or it waits for a climb that never ends. -/
theorem decides_or_endless (stale : Stale) (s : Store) (n : NodeId) :
    Decides s n stale true ∨ (stale = .skip ∧ Decides s n stale false) ∨
      (stale = .skip ∧ s.Endless n) := by
  cases stale with
  | dispatch => exact .inl .dispatch
  | skip =>
    rcases climbs_or_endless s n with h | h | h
    · exact .inl (.skip h)
    · exact .inr (.inl ⟨rfl, .skip h⟩)
    · exact .inr (.inr ⟨rfl, h⟩)

/-- The calls for the rules of `turns`, whose turns come in this order, from the store `s`. -/
structure InTurn (stale : Stale) (s : Store) (turns : List NodeId) (calls : List (Call ρ)) :
    Prop where
  inOrder : (calls.map Call.rule).Sublist turns
  /-- The policy decides at each turn, on what the earlier calls left, whether to hand the rule over.
  -/
  decided : ∀ earlier n later, turns = earlier ++ n :: later →
    Decides (leftBy s (calls.filter fun c => decide (c.rule ∈ earlier))) n stale
      (decide (n ∈ calls.map Call.rule))
  /-- Nothing changes between two calls. -/
  chained : ∀ earlier c later, calls = earlier ++ c :: later → c.found.store = leftBy s earlier

theorem InTurn.nil (stale : Stale) (s : Store) : InTurn stale s [] ([] : List (Call ρ)) :=
  ⟨List.Sublist.refl _, by simp, by simp⟩

theorem filter_mem_cons {calls : List (Call ρ)} {turns earlier : List NodeId} {n : NodeId}
    (hs : (calls.map Call.rule).Sublist turns) (hn : n ∉ turns) :
    calls.filter (fun c => decide (c.rule ∈ n :: earlier)) =
      calls.filter fun c => decide (c.rule ∈ earlier) := by
  apply List.filter_congr
  intro c hc
  have hne : c.rule ≠ n := fun he => hn (hs.subset (he ▸ List.mem_map_of_mem hc))
  simp [hne]

theorem InTurn.skip {stale : Stale} {s : Store} {turns : List NodeId} {calls : List (Call ρ)}
    {n : NodeId} (h : InTurn stale s turns calls) (hd : Decides s n stale false)
    (hn : n ∉ turns) : InTurn stale s (n :: turns) calls := by
  refine ⟨h.inOrder.cons n, ?_, h.chained⟩
  intro earlier m later he
  rcases List.cons_eq_append_iff.1 he with ⟨rfl, hm⟩ | ⟨rest, rfl, hrest⟩
  · obtain ⟨rfl, -⟩ := List.cons.inj hm
    have hnot : m ∉ calls.map Call.rule := fun hc => hn (h.inOrder.subset hc)
    rw [decide_eq_false hnot]
    simpa [leftBy] using hd
  · rw [filter_mem_cons h.inOrder hn]
    exact h.decided rest m later hrest

theorem InTurn.call {stale : Stale} {s : Store} {turns : List NodeId} {calls : List (Call ρ)}
    {c : Call ρ} (h : InTurn stale c.left.store turns calls) (hf : c.found.store = s)
    (hd : Decides s c.rule stale true) (hn : c.rule ∉ turns) :
    InTurn stale s (c.rule :: turns) (c :: calls) := by
  refine ⟨h.inOrder.cons_cons c.rule, ?_, ?_⟩
  · intro earlier m later he
    rcases List.cons_eq_append_iff.1 he with ⟨rfl, hm⟩ | ⟨rest, rfl, hrest⟩
    · obtain ⟨rfl, -⟩ := List.cons.inj hm
      simpa [leftBy] using hd
    · have hne : m ≠ c.rule := fun he => hn (by simp [hrest, ← he])
      have hdecided := h.decided rest m later hrest
      rw [List.filter_cons_of_pos (by simp), filter_mem_cons h.inOrder hn]
      simpa [hne, leftBy] using hdecided
  · intro earlier d later he
    rcases List.cons_eq_append_iff.1 he with ⟨rfl, hd⟩ | ⟨rest, rfl, hrest⟩
    · obtain ⟨rfl, -⟩ := List.cons.inj hd
      exact hf
    · exact h.chained rest d later hrest

/-- Under the policy that dispatches stale rules every rule is handed over. -/
theorem InTurn.all {s : Store} {turns : List NodeId} {calls : List (Call ρ)}
    (h : InTurn .dispatch s turns calls) (hn : turns.Nodup) : calls.map Call.rule = turns := by
  apply h.inOrder.eq_of_length_le
  apply (hn.subperm ?_).length_le
  intro n hm
  obtain ⟨earlier, later, he⟩ := List.append_of_mem hm
  have hd := h.decided earlier n later he
  generalize hb : decide (n ∈ calls.map Call.rule) = handed at hd
  cases hd
  exact of_decide_eq_true hb

/-- The scene in which a handler finds its rule. -/
def announce (rule : NodeId) (sc : Scene ρ) : Scene ρ :=
  match sc.store.selectors? rule with
  | some selectors => ⟨sc.store, sc.log.push (.expanding (Selector.listText selectors)), sc.own⟩
  | none => sc

theorem store_announce (rule : NodeId) (sc : Scene ρ) : (announce rule sc).store = sc.store := by
  unfold announce; split <;> rfl

theorem own_announce (rule : NodeId) (sc : Scene ρ) : (announce rule sc).own = sc.own := by
  unfold announce; split <;> rfl

theorem plain_announce (rule : NodeId) (sc : Scene (ρ × List (Call ρ))) :
    plain (announce rule sc) = announce rule (plain sc) := by
  unfold announce plain
  dsimp only
  split <;> rfl

theorem dispatch_eq (handler : NodeId → Edit ρ Unit) (rule : NodeId) (sc : Scene ρ) :
    dispatch handler rule sc = handler rule (announce rule sc) := by
  obtain ⟨s, log, own⟩ := sc
  simp only [dispatch, announce, bind, EStateM.bind, look]
  cases s.selectors? rule <;> rfl

theorem visit_skip {handler : NodeId → Edit ρ Unit} {n : NodeId} {sc : Scene ρ}
    (h : sc.store.reachesRoot n = false) (rules : List NodeId) (st : Stats) :
    visit .skip handler (n :: rules) st sc =
      visit .skip handler rules { st with skipped := st.skipped + 1 }
        ⟨sc.store, sc.log.push .skipping, sc.own⟩ := by
  obtain ⟨s, log, own⟩ := sc
  simp only at h
  simp [visit, bind, EStateM.bind, look, note, h]

theorem visit_call {stale : Stale} {handler : NodeId → Edit ρ Unit} {n : NodeId} {sc : Scene ρ}
    (h : stale = .dispatch ∨ sc.store.reachesRoot n = true) (rules : List NodeId) (st : Stats) :
    visit stale handler (n :: rules) st sc =
      match handler n (announce n sc) with
      | .ok _ sc => visit stale handler rules { st with dispatched := st.dispatched + 1 } sc
      | .error e sc => .error e sc := by
  have hno : ¬ (stale = .skip ∧ (!sc.store.reachesRoot n) = true) := by
    rintro ⟨rfl, hr⟩
    rcases h with h | h
    · cases h
    · simp [h] at hr
  simp only [visit, bind, EStateM.bind, look, if_neg hno, dispatch_eq]
  cases handler n (announce n sc) <;> rfl

theorem visit_skipped {stale : Stale} {handler : NodeId → Edit ρ Unit} {n : NodeId} {sc : Scene ρ}
    (h : Decides sc.store n stale false) (rules : List NodeId) (st : Stats) :
    visit stale handler (n :: rules) st sc =
      visit stale handler rules { st with skipped := st.skipped + 1 }
        ⟨sc.store, sc.log.push .skipping, sc.own⟩ := by
  cases h with
  | skip h => exact visit_skip (reachesRoot_eq_false h) rules st

theorem visit_called {stale : Stale} {handler : NodeId → Edit ρ Unit} {n : NodeId} {sc : Scene ρ}
    (h : Decides sc.store n stale true) (rules : List NodeId) (st : Stats) :
    visit stale handler (n :: rules) st sc =
      match handler n (announce n sc) with
      | .ok _ sc => visit stale handler rules { st with dispatched := st.dispatched + 1 } sc
      | .error e sc => .error e sc := by
  cases h with
  | dispatch => exact visit_call (.inl rfl) rules st
  | skip h => exact visit_call (.inr (reachesRoot_iff.2 h)) rules st

/-- Either the policy skips the rule, or it is handed over. -/
theorem skips_or_calls (stale : Stale) (s : Store) (n : NodeId) :
    (stale = .skip ∧ s.reachesRoot n = false) ∨ (stale = .dispatch ∨ s.reachesRoot n = true) := by
  cases stale <;> cases s.reachesRoot n <;> simp

theorem visit_recorded (stale : Stale) (handler : NodeId → Edit ρ Unit) (rules : List NodeId)
    (st : Stats) (sc : Scene (ρ × List (Call ρ))) :
    visit stale handler rules st (plain sc) =
      forget (visit stale (recorded handler) rules st sc) := by
  induction rules generalizing st sc with
  | nil => rfl
  | cons n rules ih =>
    rcases skips_or_calls stale sc.store n with ⟨rfl, hr⟩ | hr
    · rw [visit_skip hr, visit_skip (show (plain sc).store.reachesRoot n = false from hr), ← ih]
      rfl
    · rw [visit_call hr,
        visit_call (show stale = .dispatch ∨ (plain sc).store.reachesRoot n = true from hr),
        ← plain_announce]
      simp only [recorded]
      cases handler n (plain (announce n sc)) with
      | ok _ sc' => exact ih _ ⟨sc'.store, sc'.log, (sc'.own, _)⟩
      | error e sc' => rfl

theorem sweep_recorded (o : Options) (handler : NodeId → Edit ρ Unit) (doc : NodeId)
    (sc : Scene (ρ × List (Call ρ))) :
    sweep o handler doc (plain sc) = forget (sweep o (recorded handler) doc sc) := by
  have hv := visit_recorded o.stale handler (sc.store.rulesUnder doc)
    ⟨(sc.store.rulesUnder doc).length, 0, 0⟩
    ⟨sc.store, sc.log.push (.started (sc.store.rulesUnder doc).length), sc.own⟩
  simp only [plain] at hv
  simp only [sweep, bind, EStateM.bind, look, note, plain, hv]
  cases visit o.stale (recorded handler) _ _ _ <;> rfl

/-- A record only grows. -/
theorem visit_past (stale : Stale) (handler : NodeId → Edit ρ Unit) (rules : List NodeId)
    (st : Stats) (sc : Scene (ρ × List (Call ρ))) :
    sc.own.2 <+: callsOf (visit stale (recorded handler) rules st sc) := by
  induction rules generalizing st sc with
  | nil => exact List.prefix_refl _
  | cons n rules ih =>
    rcases skips_or_calls stale sc.store n with ⟨rfl, hr⟩ | hr
    · rw [visit_skip hr]
      exact ih _ ⟨sc.store, sc.log.push .skipping, sc.own⟩
    · rw [visit_call hr, recorded, own_announce]
      cases hh : handler n (plain (announce n sc)) with
      | ok _ sc' => exact (List.prefix_append _ _).trans (ih _ ⟨sc'.store, sc'.log, (sc'.own, _)⟩)
      | error e sc' => exact List.prefix_append _ _

/-- How a pass ended: it had all its turns and each call succeeded, or its last call failed and it
ended where that call left it. -/
def Ended (s : Store) (rules turns : List NodeId) (past calls : List (Call ρ)) (st : Stats) :
    EStateM.Result Error (Scene (ρ × List (Call ρ))) Stats → Prop
  | .ok st' sc =>
    sc.own.2 = past ++ calls ∧ turns = rules ∧ (∀ c ∈ calls, c.Succeeds) ∧
      sc.store = leftBy s calls ∧ st'.listed = st.listed ∧
      st'.dispatched = st.dispatched + calls.length ∧
      st'.skipped + calls.length = st.skipped + rules.length
  | .error e sc =>
    sc.own.2 = past ++ calls ∧ ∃ earlier last, calls = earlier ++ [last] ∧
      (∀ c ∈ earlier, c.Succeeds) ∧ last.ended = .error e (plain sc) ∧
      turns.getLast? = some last.rule

/-- A pass that never ends: each call succeeded, and the climb at the next turn goes on forever. -/
structure Waits (stale : Stale) (s : Store) (rules turns : List NodeId)
    (calls : List (Call ρ)) : Prop where
  skips : stale = .skip
  succeeds : ∀ c ∈ calls, c.Succeeds
  endless : ∃ n later, rules = turns ++ n :: later ∧ (leftBy s calls).Endless n

theorem Ended.callsOf_eq {s : Store} {rules turns : List NodeId} {past calls : List (Call ρ)}
    {st : Stats} {r : EStateM.Result Error (Scene (ρ × List (Call ρ))) Stats}
    (h : Ended s rules turns past calls st r) : callsOf r = past ++ calls := by
  cases r with
  | ok st' sc => exact h.1
  | error e sc => exact h.1

theorem Ended.skip {s : Store} {rules turns : List NodeId} {past calls : List (Call ρ)} {st : Stats}
    {r : EStateM.Result Error (Scene (ρ × List (Call ρ))) Stats} (n : NodeId)
    (h : Ended s rules turns past calls { st with skipped := st.skipped + 1 } r) :
    Ended s (n :: rules) (n :: turns) past calls st r := by
  cases r with
  | ok st' sc =>
    obtain ⟨h1, rfl, h3, h4, h5, h6, h7⟩ := h
    exact ⟨h1, rfl, h3, h4, h5, h6, by simp only [List.length_cons] at h7 ⊢; omega⟩
  | error e sc =>
    obtain ⟨h1, earlier, last, rfl, h3, h4, h5⟩ := h
    exact ⟨h1, earlier, last, rfl, h3, h4, by simp [List.getLast?_cons, h5]⟩

theorem Ended.call {s : Store} {rules turns : List NodeId} {past calls : List (Call ρ)} {st : Stats}
    {r : EStateM.Result Error (Scene (ρ × List (Call ρ))) Stats} {c : Call ρ} (hc : c.Succeeds)
    (h : Ended c.left.store rules turns (past ++ [c]) calls
      { st with dispatched := st.dispatched + 1 } r) :
    Ended s (c.rule :: rules) (c.rule :: turns) past (c :: calls) st r := by
  have hall : ∀ cs : List (Call ρ), (∀ d ∈ cs, d.Succeeds) → ∀ d ∈ c :: cs, d.Succeeds :=
    fun cs hcs => List.forall_mem_cons.2 ⟨hc, hcs⟩
  cases r with
  | ok st' sc =>
    obtain ⟨h1, rfl, h3, h4, h5, h6, h7⟩ := h
    refine ⟨by simpa using h1, rfl, hall calls h3, h4, h5, ?_, ?_⟩
    · simp only [List.length_cons] at h6 ⊢; omega
    · simp only [List.length_cons] at h7 ⊢; omega
  | error e sc =>
    obtain ⟨h1, earlier, last, rfl, h3, h4, h5⟩ := h
    exact ⟨by simpa using h1, c :: earlier, last, rfl, hall earlier h3, h4,
      by simp [List.getLast?_cons, h5]⟩

theorem Waits.skip {stale : Stale} {s : Store} {rules turns : List NodeId} {calls : List (Call ρ)}
    (n : NodeId) (h : Waits stale s rules turns calls) :
    Waits stale s (n :: rules) (n :: turns) calls := by
  obtain ⟨m, later, he, hm⟩ := h.endless
  exact ⟨h.skips, h.succeeds, m, later, by rw [he]; rfl, hm⟩

theorem Waits.call {stale : Stale} {s : Store} {rules turns : List NodeId} {calls : List (Call ρ)}
    {c : Call ρ} (hc : c.Succeeds) (h : Waits stale c.left.store rules turns calls) :
    Waits stale s (c.rule :: rules) (c.rule :: turns) (c :: calls) := by
  obtain ⟨m, later, he, hm⟩ := h.endless
  exact ⟨h.skips, List.forall_mem_cons.2 ⟨hc, h.succeeds⟩, m, later, by rw [he]; rfl, hm⟩

theorem visit_calls (stale : Stale) (handler : NodeId → Edit ρ Unit) {rules : List NodeId}
    (hn : rules.Nodup) (st : Stats) (sc : Scene (ρ × List (Call ρ))) :
    let result := visit stale (recorded handler) rules st sc
    ∃ turns calls, turns <+: rules ∧ sc.own.2 ++ calls <+: callsOf result ∧
      InTurn stale sc.store turns calls ∧ (∀ c ∈ calls, handler c.rule c.found = c.ended) ∧
      (Ended sc.store rules turns sc.own.2 calls st result ∨
        Waits stale sc.store rules turns calls) := by
  induction rules generalizing st sc with
  | nil =>
    refine ⟨[], [], List.prefix_refl _, ?_, InTurn.nil _ _, by simp, .inl ?_⟩
    · rw [List.append_nil]
      exact visit_past stale handler [] st sc
    · exact ⟨by simp, rfl, by simp, rfl, rfl, rfl, rfl⟩
  | cons n rules ih =>
    obtain ⟨hnot, hn⟩ := List.nodup_cons.1 hn
    rcases decides_or_endless stale sc.store n with hd | ⟨-, hd⟩ | ⟨hskip, hendless⟩
    · rw [visit_called hd, recorded]
      set c : Call ρ := ⟨n, plain (announce n sc), handler n (plain (announce n sc))⟩ with hc
      have hfound : c.found.store = sc.store := store_announce n sc
      have hpast : (announce n sc).own.2 = sc.own.2 := by rw [own_announce]
      cases hh : handler n (plain (announce n sc)) with
      | ok _ sc₁ =>
        have hleft : c.left = sc₁ := by simp [hc, Call.left, hh]
        obtain ⟨turns, calls, hp, hcalls, hin, hgen, hend⟩ := ih hn
          { st with dispatched := st.dispatched + 1 }
          ⟨sc₁.store, sc₁.log, (sc₁.own, sc.own.2 ++ [c])⟩
        rw [← hleft] at hin hend hcalls
        rw [hpast, ← hleft]
        refine ⟨n :: turns, c :: calls, List.cons_prefix_cons.2 ⟨rfl, hp⟩, ?_,
          hin.call hfound hd (fun hm => hnot (hp.subset hm)), ?_, ?_⟩
        · simpa using hcalls
        · exact List.forall_mem_cons.2 ⟨rfl, hgen⟩
        · exact hend.imp (Ended.call ⟨sc₁, hh⟩) (Waits.call ⟨sc₁, hh⟩)
      | error e sc₁ =>
        -- the pass ends here: this is the only call
        refine ⟨[n], [c], by simp, ?_, (InTurn.nil _ _).call hfound hd (by simp), ?_, .inl ?_⟩
        · simp [callsOf, hpast]
        · exact List.forall_mem_cons.2 ⟨rfl, by simp⟩
        · exact ⟨by simp [hpast], [], c, rfl, by simp, hh, rfl⟩
    · obtain ⟨turns, calls, hp, hcalls, hin, hgen, hend⟩ := ih hn
        { st with skipped := st.skipped + 1 } ⟨sc.store, sc.log.push .skipping, sc.own⟩
      rw [visit_skipped hd]
      exact ⟨n :: turns, calls, List.cons_prefix_cons.2 ⟨rfl, hp⟩, hcalls,
        hin.skip hd (fun hm => hnot (hp.subset hm)), hgen, hend.imp (Ended.skip n) (Waits.skip n)⟩
    · -- the climb for this rule does not end, so its turn never comes to a close
      refine ⟨[], [], List.nil_prefix, ?_, InTurn.nil _ _, by simp,
        .inr ⟨hskip, by simp, n, rules, rfl, hendless⟩⟩
      rw [List.append_nil]
      exact visit_past stale handler (n :: rules) st sc

/-- What a pass with a recorder amounts to: it looks for the rules, goes through them and reports.
-/
theorem sweep_eq (o : Options) (handler : NodeId → Edit ρ Unit) {doc : NodeId}
    {ts : List (Tree NodeId)} {sc : Scene ρ} (h : sc.store.IsDocument doc ts) :
    sweep o handler doc sc =
      match visit o.stale handler (Tree.rulesAll ts) ⟨(Tree.rulesAll ts).length, 0, 0⟩
        ⟨sc.store, sc.log.push (.started (Tree.rulesAll ts).length), sc.own⟩ with
      | .ok st sc => .ok st ⟨sc.store, sc.log.push (.finished st.dispatched st.skipped), sc.own⟩
      | .error e sc => .error e sc := by
  obtain ⟨s, log, own⟩ := sc
  simp only [sweep, bind, EStateM.bind, look, note, h.rulesUnder_eq]
  cases visit o.stale handler (Tree.rulesAll ts) _ _ <;> rfl

/-- Every rule of a document has its turn once, in document order, whatever the handler does to the
store: the policy decides at its turn whether it is handed over, a rule that is made meanwhile never
is, and the first failure ends the pass. The pass does not get to its end only if a handler made a
node a container of itself, and then the climb for the next rule goes on forever. -/
theorem sweep_hands_over_once (o : Options) (handler : NodeId → Edit ρ Unit) {s : Store}
    {doc : NodeId} {ts : List (Tree NodeId)} (h : s.IsDocument doc ts) (log : Array Event)
    (own : ρ) :
    let run := sweep o (recorded handler) doc ⟨s, log, own, []⟩
    let rules := Tree.rulesAll ts
    sweep o handler doc ⟨s, log, own⟩ = forget run ∧ rules.Nodup ∧
    ∃ turns calls, turns <+: rules ∧ calls <+: callsOf run ∧ InTurn o.stale s turns calls ∧
      (∀ c ∈ calls, handler c.rule c.found = c.ended) ∧
      (∀ c ∈ calls, s.isRule c.rule = true ∧ c.rule < s.size) ∧
      (o.stale = .dispatch → calls.map Call.rule = turns) ∧
      ((∃ st sc, run = .ok st sc ∧ callsOf run = calls ∧ turns = rules ∧
          (∀ c ∈ calls, c.Succeeds) ∧ sc.store = leftBy s calls ∧ st.listed = rules.length ∧
          st.dispatched = calls.length ∧ st.listed = st.dispatched + st.skipped) ∨
        (∃ e sc earlier last, run = .error e sc ∧ callsOf run = calls ∧
          calls = earlier ++ [last] ∧ (∀ c ∈ earlier, c.Succeeds) ∧
          last.ended = .error e (plain sc) ∧ turns.getLast? = some last.rule) ∨
        (Waits o.stale s rules turns calls ∧ ∃ n, TransGen (leftBy s calls).LinksUp n n)) := by
  intro run rules
  obtain ⟨turns, calls, hp, hcalls, hin, hgen, hend⟩ := visit_calls o.stale handler h.rules_nodup
    ⟨rules.length, 0, 0⟩ ⟨s, log.push (.started rules.length), own, []⟩
  have hrun : run = _ := sweep_eq o (recorded handler) h
  have hmade : callsOf run = callsOf (visit o.stale (recorded handler) rules
      ⟨rules.length, 0, 0⟩ ⟨s, log.push (.started rules.length), own, []⟩) := by
    rw [hrun]
    cases visit o.stale (recorded handler) rules _ _ <;> rfl
  rw [List.nil_append, ← hmade] at hcalls
  refine ⟨sweep_recorded o handler doc ⟨s, log, own, []⟩, h.rules_nodup, turns, calls, hp, hcalls,
    hin, hgen, fun c hc => ?_, fun hd => ?_, ?_⟩
  · have hn := hp.subset (hin.inOrder.subset (List.mem_map_of_mem hc))
    exact ⟨h.below.isRule_of_mem c.rule hn,
      h.below.lt_size c.rule ((Tree.rulesAll_sublist ts).subset hn)⟩
  · rw [hd] at hin
    exact hin.all (h.rules_nodup.sublist hp.sublist)
  · rcases hend with hend | hwaits
    · have hall : callsOf run = calls := hmade.trans hend.callsOf_eq
      rw [hall, hrun]
      cases hv : visit o.stale (recorded handler) rules _ _ with
      | ok st sc =>
        rw [hv] at hend
        obtain ⟨-, ht, hs, hleft, hlisted, hd, hk⟩ := hend
        refine .inl ⟨st, _, rfl, rfl, ht, hs, hleft, hlisted, by simpa using hd, ?_⟩
        simp only [rules] at hlisted hd hk ⊢
        omega
      | error e sc =>
        rw [hv] at hend
        obtain ⟨-, earlier, last, he, hs, hl, ht⟩ := hend
        exact .inr (.inl ⟨e, sc, earlier, last, rfl, rfl, he, hs, hl, ht⟩)
    · obtain ⟨n, later, -, hendless⟩ := hwaits.endless
      obtain ⟨m, -, hcircle⟩ := endless_iff.1 hendless
      exact .inr (.inr ⟨hwaits, m, hcircle⟩)

/-- A rule below another one. -/
def chainTrees : List (Tree NodeId) :=
  [.branch 1 (.rule ["a"]) [.branch 2 (.rule ["b"]) []]]

def chainStore : Store :=
  ⟨#[some (.root [1]), some (.rule ["a"] [2] (some 0)), some (.rule ["b"] [] (some 1))]⟩

theorem chainStore_isDocument : chainStore.IsDocument 0 chainTrees :=
  ⟨rfl, ⟨⟨rfl, ⟨rfl, trivial⟩, trivial⟩, trivial⟩, by decide⟩

/-- A handler that takes the second rule out of the tree, whatever rule it is given. -/
def dropSecond (_ : NodeId) : Edit Unit Unit := do
  let _ ← change (·.detach 2)

theorem sweep_chainStore :
    let run := sweep {} (recorded dropSecond) 0 ⟨chainStore, #[], (), []⟩
    (callsOf run).map Call.rule = [1] ∧
    ∃ turns calls, turns <+: [1, 2] ∧ calls <+: callsOf run ∧
      InTurn .skip chainStore turns calls := by
  obtain ⟨-, -, turns, calls, hp, hcalls, hin, -⟩ :=
    sweep_hands_over_once {} dropSecond chainStore_isDocument #[] ()
  exact ⟨rfl, turns, calls, hp, hcalls, hin⟩

end Unnest.Pass
