import Unnest.Pass.Unnest
import Unnest.Proofs.Store.Cells

/-! Steps that succeed. `Runs m s s' a` says what a step does to the store whatever the log and the
handler's own state are; the rules below put steps together, so that no proof about a step opens the
monad. -/

namespace Unnest.Pass

open Edit Store Tree

variable {ρ α β : Type}

/-- The step takes the store from `s` to `s'`, answers `a` and leaves the handler's own state alone.
-/
def Runs (m : Edit ρ α) (s s' : Store) (a : α) : Prop :=
  ∀ log own, ∃ log', m ⟨s, log, own⟩ = .ok a ⟨s', log', own⟩

variable {s s₁ s₂ : Store}

theorem runs_pure (s : Store) (a : α) : Runs (pure a : Edit ρ α) s s a :=
  fun log _ => ⟨log, rfl⟩

theorem Runs.bind {m : Edit ρ α} {f : α → Edit ρ β} {a : α} {b : β} (h : Runs m s s₁ a)
    (hf : Runs (f a) s₁ s₂ b) : Runs (m >>= f) s s₂ b := by
  intro log own
  obtain ⟨log₁, h₁⟩ := h log own
  obtain ⟨log₂, h₂⟩ := hf log₁ own
  exact ⟨log₂, by simp only [Bind.bind, EStateM.bind, h₁, h₂]⟩

theorem runs_look (s : Store) (f : Store → α) : Runs (look f : Edit ρ α) s s (f s) :=
  fun log _ => ⟨log, rfl⟩

theorem runs_note (s : Store) (e : Event) : Runs (note e : Edit ρ Unit) s s () :=
  fun log _ => ⟨log.push e, rfl⟩

theorem runs_change (s : Store) (f : Store → α × Store) :
    Runs (change f : Edit ρ α) s (f s).2 (f s).1 :=
  fun log _ => ⟨log, rfl⟩

theorem runs_attempt {f : Store → Outcome} (h : f s = .ok () s₁) :
    Runs (attempt f : Edit ρ Unit) s s₁ () := by
  intro log own
  refine ⟨log, ?_⟩
  simp only [attempt, h]

theorem Runs.bind_look {f : Store → α} {g : α → Edit ρ β} {b : β} (h : Runs (g (f s)) s s₁ b) :
    Runs (look f >>= g) s s₁ b :=
  (runs_look s f).bind h

theorem Runs.bind_note {e : Event} {m : Edit ρ β} {b : β} (h : Runs m s s₁ b) :
    Runs (note e >>= fun _ => m) s s₁ b :=
  (runs_note s e).bind h

/-- A loop without an answer, one element first. -/
theorem runs_forM_cons {f : α → Edit ρ Unit} {a : α} {as : List α} (h : Runs (f a) s s₁ ())
    (hs : Runs (as.forM f) s₁ s₂ ()) : Runs ((a :: as).forM f) s s₂ () :=
  h.bind hs

theorem runs_foldlM_cons {f : β → α → Edit ρ β} {a : α} {as : List α} {b b₁ b₂ : β}
    (h : Runs (f b a) s s₁ b₁) (hs : Runs (as.foldlM f b₁) s₁ s₂ b₂) :
    Runs ((a :: as).foldlM f b) s s₂ b₂ := by
  rw [List.foldlM_cons]
  exact h.bind hs

/-- A rule that a copy starts from. -/
def blank (selectors : List String) : Node := .rule selectors [] none

/-- One of the nodes that `gather` takes over. -/
theorem runs_takeOver {q c : NodeId} {y z : Node} {cs ds : List NodeId} {t : Tree NodeId}
    (hq : s.get? q = some (y.withChildren cs)) (hy : y.isContainer = true)
    (hc : s.get? c = some (z.withChildren ds)) (hz : z.isContainer = true)
    (ht : s.Holds q t) (hmem : t.label ∈ cs) (hcs : cs.Nodup) (hqc : q ≠ c) (htq : t.label ≠ q)
    (htc : t.label ≠ c) :
    ∃ s', Runs (do let _ ← change (·.remove q t.label); attempt (·.append c t.label) : Edit ρ Unit)
        s s' () ∧
      s'.size = s.size ∧ s'.get? t.label = some (t.cell c) ∧
      s'.get? q = some (y.withChildren (cs.filter (· != t.label))) ∧
      s'.get? c = some (z.withChildren (ds ++ [t.label])) ∧ SameBut [t.label, q, c] s s' := by
  obtain ⟨hcell, hroot, -⟩ := (holds_iff t).1 ht
  obtain ⟨hsize, hn, hq', hsame⟩ := remove_cells hq hy hmem hcell htq
  have hlink : ((t.cell q).withLink none).link = none := by simp
  obtain ⟨s', hok, hsize', hn', hc', hsame'⟩ := insert_cells hn hlink
    (by rw [hsame c (by simp [htc.symm, hqc.symm]), hc]) hz htc (· ++ [t.label])
  refine ⟨s', (runs_change s _).bind (runs_attempt hok), hsize'.trans hsize, ?_, ?_, hc', ?_⟩
  · rw [hn', Node.withLink_withLink, withLink_cell hroot]
  · rw [hsame' q (by simp [htq.symm, hqc]), hq', hcs.erase_eq_filter]
  · intro m hm
    simp only [List.mem_cons, List.not_mem_nil, or_false, not_or] at hm
    rw [hsame' m (by simp [hm.1, hm.2.2]), hsame m (by simp [hm.1, hm.2.1])]

theorem holds_moved {s s' : Store} {q c : NodeId} {t : Tree NodeId} (h : s.Holds q t)
    (hc : s'.get? t.label = some (t.cell c))
    (hs : ∀ m ∈ labelsAll t.children, s'.get? m = s.get? m) : s'.Holds c t := by
  obtain ⟨-, hroot, hchildren⟩ := (holds_iff t).1 h
  exact (holds_iff t).2 ⟨hc, hroot, hchildren.congr hs⟩

/-- The loop of `gather`. -/
theorem runs_takeOverAll {q c : NodeId} {y z : Node} (hy : y.isContainer = true)
    (hz : z.isContainer = true) (hqc : q ≠ c) {ts : List (Tree NodeId)} {s : Store}
    {cs ds : List NodeId} (hq : s.get? q = some (y.withChildren cs))
    (hc : s.get? c = some (z.withChildren ds)) (hts : s.HoldsAll q ts)
    (hmem : ∀ t ∈ ts, t.label ∈ cs) (hcs : cs.Nodup) (hnodup : (labelsAll ts).Nodup)
    (hqts : q ∉ labelsAll ts) (hcts : c ∉ labelsAll ts) :
    ∃ s', Runs ((ts.map label).forM fun n => (do
        let _ ← change (·.remove q n)
        attempt (·.append c n) : Edit ρ Unit)) s s' () ∧
      s'.size = s.size ∧ s'.HoldsAll c ts ∧
      s'.get? q = some (y.withChildren (cs.filter fun n => n ∉ ts.map label)) ∧
      s'.get? c = some (z.withChildren (ds ++ ts.map label)) ∧
      SameBut (q :: c :: ts.map label) s s' := by
  induction ts generalizing s cs ds with
  | nil =>
    exact ⟨s, runs_pure s (), rfl, trivial, by simpa using hq, by simpa using hc, fun _ _ => rfl⟩
  | cons t ts ih =>
    rw [labelsAll, labels_eq] at hnodup hqts hcts
    simp only [List.cons_append, List.mem_cons, List.mem_append, not_or] at hqts hcts
    rw [List.cons_append, List.nodup_cons, List.nodup_append] at hnodup
    obtain ⟨htnot, hbelow, hrest, hdisj⟩ := hnodup
    rw [List.mem_append, not_or] at htnot
    have hlabel : ∀ u ∈ ts, u.label ≠ t.label := fun u hu he =>
      htnot.2 (he ▸ label_mem_labelsAll hu)
    obtain ⟨s₁, hrun, hsize, ht, hq₁, hc₁, hsame⟩ := runs_takeOver (ρ := ρ) hq hy hc hz hts.1
      (hmem t (by simp)) hcs hqc (Ne.symm hqts.1) (Ne.symm hcts.1)
    have hts₁ : s₁.HoldsAll q ts := hts.2.congr fun m hm =>
      hsame m (by simp; exact ⟨fun he => htnot.2 (he ▸ hm), fun he => hqts.2.2 (he ▸ hm),
        fun he => hcts.2.2 (he ▸ hm)⟩)
    obtain ⟨s', hruns, hsize', hall, hq', hc', hsame'⟩ := ih hq₁ hc₁ hts₁
      (fun u hu => by simpa [List.mem_filter, hlabel u hu] using hmem u (by simp [hu]))
      (hcs.filter _) hrest hqts.2.2 hcts.2.2
    refine ⟨s', runs_forM_cons hrun hruns, hsize'.trans hsize, ⟨?_, hall⟩, ?_, ?_, ?_⟩
    · have htop : s'.get? t.label = some (t.cell c) := by
        rw [hsame' t.label (by
          simp only [List.mem_cons, List.mem_map, not_or, not_exists, not_and]
          exact ⟨Ne.symm hqts.1, Ne.symm hcts.1, hlabel⟩), ht]
      refine holds_moved hts.1 htop fun m hm => ?_
      have hmt : m ≠ t.label := fun he => htnot.1 (he ▸ hm)
      have hmq : m ≠ q := fun he => hqts.2.1 (he ▸ hm)
      have hmc : m ≠ c := fun he => hcts.2.1 (he ▸ hm)
      have hmts : ∀ u ∈ ts, u.label ≠ m := fun u hu he =>
        hdisj m hm m (he ▸ label_mem_labelsAll hu) rfl
      rw [hsame' m (by simp [hmq, hmc]; exact hmts), hsame m (by simp [hmt, hmq, hmc])]
    · rw [hq', List.filter_filter]
      congr 3
      funext n
      by_cases hn : n = t.label <;> simp [hn]
    · simpa using hc'
    · intro m hm
      simp only [List.map_cons, List.mem_cons, not_or] at hm
      rw [hsame' m (by simp only [List.mem_cons, not_or]; exact ⟨hm.1, hm.2.1, hm.2.2.2⟩),
        hsame m (by simp [hm.1, hm.2.1, hm.2.2.1])]

/-- A copy of a rule takes over some children of `q`. -/
theorem runs_gather {q : NodeId} {y : Node} {cs : List NodeId} {ts : List (Tree NodeId)}
    (selectors : List String) (hq : s.get? q = some (y.withChildren cs))
    (hy : y.isContainer = true) (hts : s.HoldsAll q ts) (hmem : ∀ t ∈ ts, t.label ∈ cs)
    (hcs : cs.Nodup) (hnodup : (labelsAll ts).Nodup) (hqts : q ∉ labelsAll ts) :
    ∃ s', Runs (gather q selectors (ts.map label) : Edit ρ NodeId) s s' s.size ∧
      s'.size = s.size + 1 ∧ s'.HoldsAll s.size ts ∧
      s'.get? q = some (y.withChildren (cs.filter fun n => n ∉ ts.map label)) ∧
      s'.get? s.size = some ((blank selectors).withChildren (ts.map label)) ∧
      SameBut (q :: s.size :: ts.map label) s s' := by
  have hlt := hts.lt_size
  have hqlt : q < s.size := lt_size_of_get? hq
  set s₀ := (s.alloc (.rule selectors [] none)).2 with hs₀
  have hget : ∀ m, m ≠ s.size → s₀.get? m = s.get? m := by
    intro m hm
    rw [hs₀, get?_alloc, if_neg hm]
  have hcopy : s₀.get? s.size = some ((blank selectors).withChildren []) := by
    rw [hs₀, get?_alloc, if_pos rfl]
    rfl
  obtain ⟨s', hrun, hsize, hall, hq', hc', hsame⟩ := runs_takeOverAll (ρ := ρ) hy rfl
    (Nat.ne_of_lt hqlt) (by rw [hget q (Nat.ne_of_lt hqlt), hq]) hcopy
    (hts.congr fun m hm => hget m (Nat.ne_of_lt (hlt m hm))) hmem hcs hnodup hqts
    (fun hm => absurd (hlt _ hm) (Nat.lt_irrefl _))
  refine ⟨s', ?_, by rw [hsize, hs₀, size_alloc], hall, hq', by simpa using hc', fun m hm => ?_⟩
  · exact (runs_change s (·.alloc (.rule selectors [] none))).bind (hrun.bind (runs_pure s' _))
  · rw [hsame m hm, hget m (by simp only [List.mem_cons, not_or] at hm; exact hm.2.1)]

/-- A copy of a rule takes over some children of `q` and goes behind `anchor`, which stands in `p`
and may be `q` itself. -/
theorem runs_gather_behind {q anchor p : NodeId} {y z w : Node} {cs front after : List NodeId}
    {ts : List (Tree NodeId)} (selectors : List String)
    (hq : s.get? q = some (y.withChildren cs)) (hy : y.isContainer = true) (hts : s.HoldsAll q ts)
    (hmem : ∀ t ∈ ts, t.label ∈ cs) (hcs : cs.Nodup) (hnodup : (labelsAll ts).Nodup)
    (hqts : q ∉ labelsAll ts) (hz : s.get? anchor = some z) (hlink : z.link = some p)
    (hp : s.get? p = some (w.withChildren (front ++ anchor :: after))) (hw : w.isContainer = true)
    (hfront : anchor ∉ front) (hpq : p ≠ q) (hpts : p ∉ labelsAll ts)
    (hats : anchor ∉ labelsAll ts) :
    ∃ s₁ s', Runs (gather q selectors (ts.map label) : Edit ρ NodeId) s s₁ s.size ∧
      s₁.insertAfter anchor s.size = .ok () s' ∧ s'.size = s.size + 1 ∧
      s'.Holds p (.branch s.size (.rule selectors) ts) ∧
      s'.get? q = some (y.withChildren (cs.filter fun n => n ∉ ts.map label)) ∧
      s'.get? p = some (w.withChildren (front ++ anchor :: s.size :: after)) ∧
      SameBut (p :: q :: s.size :: ts.map label) s s' := by
  have hsub : ∀ n ∈ ts.map label, n ∈ labelsAll ts := (map_label_sublist ts).subset
  have hplt : p ≠ s.size := Nat.ne_of_lt (lt_size_of_get? hp)
  have halt : anchor ≠ s.size := Nat.ne_of_lt (lt_size_of_get? hz)
  have hqlt : q ≠ s.size := Nat.ne_of_lt (lt_size_of_get? hq)
  obtain ⟨s₁, hrun, hsize, hall, hq₁, hc₁, hsame⟩ :=
    runs_gather (ρ := ρ) selectors hq hy hts hmem hcs hnodup hqts
  obtain ⟨z₁, hz₁, hlink₁⟩ : ∃ z₁, s₁.get? anchor = some z₁ ∧ z₁.link = some p := by
    by_cases ha : anchor = q
    · subst ha
      refine ⟨_, hq₁, ?_⟩
      obtain rfl := Option.some.inj (hz.symm.trans hq)
      simpa using hlink
    · refine ⟨z, ?_, hlink⟩
      rw [hsame anchor (by
        simp only [List.mem_cons, not_or]
        exact ⟨ha, halt, fun hm => hats (hsub _ hm)⟩), hz]
  have hp₁ : s₁.get? p = some (w.withChildren (front ++ anchor :: after)) := by
    rw [hsame p (by
      simp only [List.mem_cons, not_or]
      exact ⟨hpq, hplt, fun hm => hpts (hsub _ hm)⟩), hp]
  obtain ⟨s', hok, hsize', hn', hp', hsame'⟩ :=
    insertAfter_new_cells hc₁ rfl hz₁ hlink₁ hp₁ hw hfront halt.symm hplt.symm
  refine ⟨s₁, s', hrun, hok, hsize'.trans hsize, ⟨hn', hall.congr fun m hm => hsame' m ?_⟩, ?_, hp',
    fun m hm => ?_⟩
  · simp only [List.mem_cons, List.not_mem_nil, or_false, not_or]
    exact ⟨Nat.ne_of_lt (hts.lt_size m hm), fun he => hpts (he ▸ hm)⟩
  · rw [hsame' q (by simp [hqlt, hpq.symm]), hq₁]
  · simp only [List.mem_cons, not_or] at hm
    rw [hsame' m (by simp [hm.1, hm.2.2.1]), hsame m (by
      simp only [List.mem_cons, not_or]
      exact hm.2)]

end Unnest.Pass
