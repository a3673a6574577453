import Unnest.Pass.Unnest
import Unnest.Proofs.Selector.Lists

/-! Clean selectors. A list of them is read back from the way it is written, since the commas
between them are the only ones that separate. Nesting one below another gives a clean selector, and
so does the reading of a balanced prelude. -/

namespace Unnest.Selector

open Text

variable {s : Scan} {l m p c : List Char} {text x parent child : String}

/-- All that opens is closed, and nothing else. -/
structure Balanced (text : String) : Prop where
  /-- No bracket or parenthesis closes that is not open. -/
  closes : meets Scan.overcloses .start text.toList = false
  /-- Nothing is open at the end. -/
  closed : Scan.start.after text.toList = .start

/-- One selector as a list of selectors may hold it. -/
structure Clean (x : String) : Prop extends Balanced x where
  nonempty : x ≠ ""
  trimmed : trim x = x
  /-- No comma separates it into two. -/
  single : meets Scan.separates .start x.toList = false

instance (text : String) : Decidable (Balanced text) :=
  decidable_of_iff (meets Scan.overcloses .start text.toList = false ∧
    Scan.start.after text.toList = .start) ⟨fun h => ⟨h.1, h.2⟩, fun h => ⟨h.1, h.2⟩⟩

instance (x : String) : Decidable (Clean x) :=
  decidable_of_iff (Balanced x ∧ x ≠ "" ∧ trim x = x ∧
      meets Scan.separates .start x.toList = false)
    ⟨fun h => ⟨h.1, h.2.1, h.2.2.1, h.2.2.2⟩,
      fun h => ⟨h.toBalanced, h.nonempty, h.trimmed, h.single⟩⟩

theorem meets_breaks (s : Scan) (l : List Char) :
    meets Scan.breaks s l = (meets Scan.separates s l || meets Scan.overcloses s l) := by
  induction l generalizing s with
  | nil => rfl
  | cons c l ih =>
    rw [meets, meets, meets, ih, Scan.breaks]
    ac_rfl

theorem clean_iff : Clean x ↔ Sound Scan.breaks Eq x.toList ∧ x.toList ≠ [] ∧ Trimmed x.toList := by
  have htrim : trim x = x ↔ Trimmed x.toList := by
    rw [← trimChars_eq_self_iff, ← toList_trim, String.toList_inj]
  rw [Sound, meets_breaks, Bool.or_eq_false_iff, ne_eq, String.toList_eq_nil_iff, ← htrim]
  exact ⟨fun h => ⟨⟨⟨h.single, h.closes⟩, h.closed⟩, h.nonempty, h.trimmed⟩,
    fun h => ⟨⟨h.1.1.2, h.1.2⟩, h.2.1, h.2.2, h.1.1.1⟩⟩

/-! Nesting. -/

theorem fill_ne_nil (hp : p ≠ []) (hl : l ≠ []) : fill p s l ≠ [] := by
  cases l with
  | nil => exact absurd rfl hl
  | cons c l =>
    rw [fill]
    split <;> simp [hp]

theorem head?_fill (hp : p ≠ []) (s : Scan) (l : List Char) :
    (fill p s l).head? = p.head? ∨ (fill p s l).head? = l.head? := by
  cases l with
  | nil => exact .inr rfl
  | cons c l =>
    rw [fill]
    split
    · exact .inl (List.head?_append_of_ne_nil _ hp)
    · exact .inr rfl

theorem getLast?_fill (hp : p ≠ []) (s : Scan) (l : List Char) :
    (fill p s l).getLast? = p.getLast? ∨ (fill p s l).getLast? = l.getLast? := by
  induction l generalizing s with
  | nil => exact .inr rfl
  | cons c l ih =>
    rw [fill]
    cases l with
    | nil =>
      rw [fill, List.append_nil]
      split
      · exact .inl rfl
      · exact .inr rfl
    | cons d l =>
      rw [List.getLast?_append_of_ne_nil _ (fill_ne_nil hp (List.cons_ne_nil d l)),
        List.getLast?_cons_cons]
      exact ih _

theorem trimmed_nestChars (hp : Trimmed p) (hpne : p ≠ []) (hc : Trimmed c) (hcne : c ≠ []) :
    Trimmed (nestChars p c) := by
  rw [nestChars]
  split
  · refine ⟨fun d hd => ?_, fun d hd => ?_⟩
    · rcases head?_fill hpne .start c with h | h
      · exact hp.1 d (h ▸ hd)
      · exact hc.1 d (h ▸ hd)
    · rcases getLast?_fill hpne .start c with h | h
      · exact hp.2 d (h ▸ hd)
      · exact hc.2 d (h ▸ hd)
  · rw [← List.singleton_append, ← List.append_assoc]
    exact hp.append hc hpne hcne [' ']

theorem nestChars_ne_nil (hp : p ≠ []) (hc : c ≠ []) : nestChars p c ≠ [] := by
  rw [nestChars]
  split
  · exact fill_ne_nil hp hc
  · simp

/-- Clean selectors are nested into clean ones. -/
theorem Clean.nestOne (hp : Clean parent) (hc : Clean child)
    (h : nestOne parent child = some x) : Clean x := by
  obtain ⟨hpsound, hpne, hptrim⟩ := clean_iff.1 hp
  obtain ⟨hcsound, hcne, hctrim⟩ := clean_iff.1 hc
  obtain ⟨-, hx⟩ := nestOne_eq_some h
  rw [trimChars_eq_self hctrim] at hx
  have hmild : Sound (fun s c => s.breaks c && !s.refersHere c) Eq child.toList :=
    ⟨meets_mono (fun s c hb => (Bool.and_eq_true_iff.1 hb).1) hcsound.1, hcsound.2⟩
  rw [clean_iff, hx]
  exact ⟨pastes_breaks.nestChars hpsound hmild, nestChars_ne_nil hpne hcne,
    trimmed_nestChars hptrim hpne hctrim hcne⟩

/-! Preludes. -/

/-- A separator stands where nothing is open, so the pieces of a balanced text are balanced, too. -/
theorem sound_pieces (hl : meets Scan.overcloses s l = false) (hend : s.after l = .start) :
    (meets Scan.breaks s (pieces s l).1 = false ∧ s.after (pieces s l).1 = .start) ∧
      ∀ q ∈ (pieces s l).2, Sound Scan.breaks Eq q := by
  induction l generalizing s with
  | nil => exact ⟨⟨rfl, hend⟩, by simp [pieces]⟩
  | cons c l ih =>
    obtain ⟨hc, hl⟩ := Bool.or_eq_false_iff.1 hl
    obtain ⟨⟨hmeets, hafter⟩, hrest⟩ := ih hl hend
    rw [pieces]
    cases hsep : s.separates c with
    | true =>
      obtain rfl := Scan.eq_start_of_separates hsep
      obtain rfl := eq_comma_of_separates hsep
      exact ⟨⟨rfl, rfl⟩, List.forall_mem_cons.2 ⟨⟨hmeets, hafter⟩, hrest⟩⟩
    | false =>
      refine ⟨⟨?_, hafter⟩, hrest⟩
      exact Bool.or_eq_false_iff.2 ⟨Bool.or_eq_false_iff.2 ⟨hsep, hc⟩, hmeets⟩

/-- The members of a balanced list are clean. -/
theorem Balanced.clean_members (h : Balanced text) : ∀ x ∈ members text, Clean x := by
  obtain ⟨hfirst, hrest⟩ := sound_pieces h.closes h.closed
  intro x hx
  simp only [members, membersOf, List.mem_map, List.mem_filter] at hx
  obtain ⟨-, ⟨⟨q, hq, rfl⟩, hne⟩, rfl⟩ := hx
  have hsound : Sound Scan.breaks Eq q := by
    rcases List.mem_cons.1 hq with rfl | hq
    · exact hfirst
    · exact hrest q hq
  rw [clean_iff, String.toList_ofList]
  exact ⟨hsound.trimChars, by simpa using hne, trimmed_trimChars q⟩

theorem balanced_trim (h : Balanced text) : Balanced (trim text) := by
  obtain ⟨hafter, hmeets⟩ := scan_trimChars Scan.overcloses text.toList
  exact ⟨by rw [toList_trim]; exact hmeets h.closes, by rw [toList_trim, hafter, h.closed]⟩

theorem Balanced.clean_rootPrelude (h : Balanced text) :
    ∀ x ∈ (rootPrelude text).getD [], Clean x := by
  have hcases : rootPrelude text = none ∨ rootPrelude text = some (members (trim text)) := by
    simp only [rootPrelude]
    split_ifs
    · exact .inl rfl
    · exact .inr rfl
  rcases hcases with hnone | hsome
  · simp [hnone]
  · rw [hsome, Option.getD_some]
    exact (balanced_trim h).clean_members

/-! Reading back. -/

theorem Clean.single_toList (h : Clean x) : Single x.toList :=
  ⟨(clean_iff.1 h).2.1, (clean_iff.1 h).2.2, h.single⟩

/-- Lists of clean selectors are read back as they were written. -/
theorem members_listText {r : List String} (h : ∀ x ∈ r, Clean x) : members (listText r) = r :=
  members_listText_of_single (fun x hx => (h x hx).single_toList)
    (List.pairwise_of_forall_mem_list fun x hx _ _ => (h x hx).closed)

end Unnest.Selector
