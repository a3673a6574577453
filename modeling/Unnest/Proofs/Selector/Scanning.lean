import Unnest.Selector.Nesting
import Unnest.Proofs.Text.Trim

/-! Scans of resolved selectors. A parent is put into a child wherever an ampersand counts, at any
depth of parentheses, and the child is read on after it. So what is sound at the start has to be
sound at each of these places and to leave the scan as it found it, at least as far as one can tell
(`Pastes`); then a resolved selector is sound again, and may be a parent itself. -/

namespace Unnest.Selector

open Text

variable {bad : Scan → Char → Bool} {E : Scan → Scan → Prop} {s t : Scan} {l m p c : List Char}

/-- Whether the scan of a text from `s` comes to a character that is `bad` where it stands. -/
def meets (bad : Scan → Char → Bool) (s : Scan) : List Char → Bool
  | [] => false
  | c :: l => bad s c || meets bad (s.next c) l

theorem refers_eq_meets (s : Scan) (l : List Char) : refers s l = meets Scan.refersHere s l := by
  induction l generalizing s with
  | nil => rfl
  | cons c l ih => rw [refers, meets, ih]

theorem meets_append (bad : Scan → Char → Bool) (s : Scan) (l m : List Char) :
    meets bad s (l ++ m) = (meets bad s l || meets bad (s.after l) m) := by
  induction l generalizing s with
  | nil => rfl
  | cons c l ih => rw [List.cons_append, meets, ih, meets, Bool.or_assoc, Scan.after_cons]

theorem meets_mono {bad' : Scan → Char → Bool} (h : ∀ s c, bad s c = true → bad' s c = true)
    (hl : meets bad' s l = false) : meets bad s l = false := by
  induction l generalizing s with
  | nil => rfl
  | cons c l ih =>
    obtain ⟨hc, hl⟩ := Bool.or_eq_false_iff.1 hl
    refine Bool.or_eq_false_iff.2 ⟨Bool.eq_false_iff.2 fun hb => ?_, ih hl⟩
    rw [h s c hb] at hc
    cases hc

theorem meets_of_not_refers (h : refers s l = false)
    (hl : meets (fun s c => bad s c && !s.refersHere c) s l = false) : meets bad s l = false := by
  induction l generalizing s with
  | nil => rfl
  | cons c l ih =>
    obtain ⟨hc, hl⟩ := Bool.or_eq_false_iff.1 hl
    obtain ⟨hhere, h⟩ := Bool.or_eq_false_iff.1 h
    exact Bool.or_eq_false_iff.2 ⟨by simpa [hhere] using hc, ih h hl⟩

namespace Scan

theorem eq_ampersand {c : Char} (h : s.refersHere c = true) : c = '&' := by
  simp only [refersHere, Bool.and_eq_true, beq_iff_eq] at h
  exact h.2

theorem next_ampersand (h : s.refersHere '&' = true) : s.next '&' = s := by
  rcases s with ⟨_ | q, b, k⟩
  · rfl
  · simp [refersHere, counts] at h

/-- An ampersand counts outside strings and brackets. -/
theorem refersHere_ampersand : s.refersHere '&' = true ↔ s.quote = none ∧ s.brackets = 0 := by
  rcases s with ⟨_ | q, b, k⟩ <;> simp [refersHere, counts, isQuote]

theorem open_next_le (s : Scan) (c : Char) :
    (s.next c).brackets ≤ s.brackets + [c].count '[' ∧
      (s.next c).parens ≤ s.parens + [c].count '(' := by
  rcases s with ⟨_ | q, b, k⟩
  · simp only [next]
    split_ifs with hquote hopen hclose hopen' hclose' <;> simp [*]
  · simp only [next]
    split_ifs <;> simp

/-- No more brackets are open than have been read, nor parentheses: a text with fewer than `2 ^ 32` of
either takes no counter further than 32 bits go. -/
theorem open_after_le (s : Scan) (l : List Char) :
    (s.after l).brackets ≤ s.brackets + l.count '[' ∧
      (s.after l).parens ≤ s.parens + l.count '(' := by
  induction l generalizing s with
  | nil => exact ⟨Nat.le_refl _, Nat.le_refl _⟩
  | cons c l ih =>
    obtain ⟨hbrackets, hparens⟩ := s.open_next_le c
    obtain ⟨hbrackets', hparens'⟩ := ih (s.next c)
    rw [after_cons, ← List.singleton_append, List.count_append, List.count_append]
    omega

end Scan

/-- Nothing bad is met from the start, and the end cannot be told from the start. -/
def Sound (bad : Scan → Char → Bool) (E : Scan → Scan → Prop) (l : List Char) : Prop :=
  meets bad .start l = false ∧ E (Scan.start.after l) .start

/-- Scans that cannot be told apart, neither now nor by what is read next. -/
structure Congruence (bad : Scan → Char → Bool) (E : Scan → Scan → Prop) : Prop where
  equivalence : Equivalence E
  next : ∀ {s t}, E s t → ∀ c, E (s.next c) (t.next c)
  bad_eq : ∀ {s t}, E s t → ∀ c, bad s c = bad t c
  refersHere_eq : ∀ {s t}, E s t → ∀ c, s.refersHere c = t.refersHere c

theorem Congruence.after (h : Congruence bad E) (hst : E s t) (l : List Char) :
    E (s.after l) (t.after l) := by
  induction l generalizing s t with
  | nil => exact hst
  | cons c l ih => exact ih (h.next hst c)

theorem Congruence.meets_eq (h : Congruence bad E) (hst : E s t) (l : List Char) :
    meets bad s l = meets bad t l := by
  induction l generalizing s t with
  | nil => rfl
  | cons c l ih => rw [meets, meets, h.bad_eq hst, ih (h.next hst c)]

/-- What is sound is sound wherever an ampersand counts. -/
structure Pastes (bad : Scan → Char → Bool) (E : Scan → Scan → Prop) : Prop
    extends Congruence bad E where
  blank : bad .start ' ' = false
  sound : ∀ {l}, Sound bad E l → ∀ {s : Scan}, s.refersHere '&' = true →
    meets bad s l = false ∧ E (s.after l) s

namespace Pastes

/-- The scan `t` of a filled child goes along with the scan `s` of the child itself. -/
theorem fill (h : Pastes bad E) (hp : Sound bad E p) (hst : E s t)
    (hl : meets (fun s c => bad s c && !s.refersHere c) s l = false) :
    meets bad t (fill p s l) = false ∧ E (s.after l) (t.after (Selector.fill p s l)) := by
  induction l generalizing s t with
  | nil => exact ⟨rfl, hst⟩
  | cons c l ih =>
    obtain ⟨hc, hl⟩ := Bool.or_eq_false_iff.1 hl
    rw [Selector.fill, meets_append, Scan.after_append, Scan.after_cons]
    cases hhere : s.refersHere c with
    | true =>
      obtain rfl := Scan.eq_ampersand hhere
      obtain ⟨hmeets, hafter⟩ := h.sound hp (h.refersHere_eq hst '&' ▸ hhere)
      rw [Scan.next_ampersand hhere] at hl ⊢
      obtain ⟨hrest, hend⟩ := ih (h.equivalence.trans hst (h.equivalence.symm hafter)) hl
      exact ⟨by rw [if_pos rfl, hmeets, hrest]; rfl, by rw [if_pos rfl]; exact hend⟩
    | false =>
      obtain ⟨hrest, hend⟩ := ih (h.next hst c) hl
      have hbad : bad t c = false := by
        rw [← h.bad_eq hst]
        simpa [hhere] using hc
      refine ⟨?_, by simpa [Scan.after] using hend⟩
      simpa [meets, hbad, Scan.after] using hrest

end Pastes

/-- One selector under a parent, both without blanks at the ends. -/
def nestChars (p c : List Char) : List Char :=
  if refers .start c then fill p .start c else p ++ ' ' :: c

theorem nestOne_eq_some {parent child x : String} (h : nestOne parent child = some x) :
    trimChars child.toList ≠ [] ∧ x.toList = nestChars parent.toList (trimChars child.toList) := by
  have hempty : (trim child).isEmpty = false := by
    cases he : (trim child).isEmpty with
    | false => rfl
    | true => simp [nestOne, he] at h
  simp only [nestOne, hempty, Bool.false_eq_true, if_false, Option.some.injEq] at h
  subst h
  constructor
  · intro hnil
    rw [← toList_trim, String.toList_eq_nil_iff] at hnil
    simp [hnil] at hempty
  · rw [substitute?, nestChars, ← toList_trim]
    split <;> simp

/-- A child that is sound but for its own ampersands comes out sound below a sound parent. -/
theorem Pastes.nestChars (h : Pastes bad E) (hp : Sound bad E p)
    (hc : Sound (fun s c => bad s c && !s.refersHere c) E c) :
    Sound bad E (Selector.nestChars p c) := by
  rw [Selector.nestChars]
  cases hrefers : refers .start c with
  | true =>
    obtain ⟨hmeets, hafter⟩ := h.fill hp (h.equivalence.refl .start) hc.1
    exact ⟨hmeets, h.equivalence.trans (h.equivalence.symm hafter) hc.2⟩
  | false =>
    have hmeets := meets_of_not_refers hrefers hc.1
    -- behind the parent and a blank the child is read as from the start
    have hback : E ((Scan.start.after p).next ' ') .start := h.next hp.2 ' '
    constructor
    · have hblank : bad (Scan.start.after p) ' ' = false := (h.bad_eq hp.2 ' ').trans h.blank
      rw [if_neg (by simp), meets_append, hp.1, meets, hblank, h.meets_eq hback, hmeets]
      rfl
    · rw [if_neg (by simp), Scan.after_append, Scan.after_cons]
      exact h.equivalence.trans (h.after hback c) hc.2

/-! Ampersands are told from each other by strings and brackets; parentheses do not matter. -/

/-- The scans differ in open parentheses only. -/
def SameLevel (s t : Scan) : Prop := s.quote = t.quote ∧ s.brackets = t.brackets

theorem SameLevel.next (h : SameLevel s t) (c : Char) : SameLevel (s.next c) (t.next c) := by
  obtain ⟨q, b, k⟩ := s
  obtain ⟨q', b', k'⟩ := t
  obtain ⟨rfl, rfl⟩ : q = q' ∧ b = b' := h
  unfold SameLevel Scan.next
  cases q with
  | some q => dsimp only; split <;> simp
  | none => dsimp only; split_ifs <;> simp

theorem SameLevel.refersHere_eq (h : SameLevel s t) (c : Char) :
    s.refersHere c = t.refersHere c := by
  simp only [Scan.refersHere, Scan.counts, h.1, h.2]

theorem congruence_sameLevel : Congruence Scan.refersHere SameLevel where
  equivalence := ⟨fun _ => ⟨rfl, rfl⟩, fun h => ⟨h.1.symm, h.2.symm⟩,
    fun h h' => ⟨h.1.trans h'.1, h.2.trans h'.2⟩⟩
  next h := h.next
  bad_eq h := h.refersHere_eq
  refersHere_eq h := h.refersHere_eq

/-- A text without ampersands that count, closed but for parentheses, brings none with it. -/
theorem pastes_refersHere : Pastes Scan.refersHere SameLevel where
  toCongruence := congruence_sameLevel
  blank := by decide
  sound := by
    intro l hl s hs
    have hE := congruence_sameLevel
    have hstart : SameLevel s .start := Scan.refersHere_ampersand.1 hs
    exact ⟨(hE.meets_eq hstart l).trans hl.1, hE.equivalence.trans (hE.after hstart l)
      (hE.equivalence.trans hl.2 (hE.equivalence.symm hstart))⟩

/-! Separators and closers are told from each other by the depth of parentheses as well. -/

/-- Whether `c` closes a bracket or parenthesis that is not open. -/
def Scan.overcloses (s : Scan) (c : Char) : Bool :=
  s.quote.isNone && (c == ')' && s.parens == 0 || c == ']' && s.brackets == 0)

/-- What a clean selector must not come to. -/
def Scan.breaks (s : Scan) (c : Char) : Bool := s.separates c || s.overcloses c

/-- The same scan within `k` more parentheses. -/
def Scan.within (k : Nat) (s : Scan) : Scan := { s with parens := s.parens + k }

theorem Scan.next_within {k : Nat} {c : Char} (h : s.overcloses c = false) :
    (s.within k).next c = (s.next c).within k := by
  obtain ⟨q, b, n⟩ := s
  cases q with
  | some q =>
    simp only [Scan.within, Scan.next]
    split <;> rfl
  | none =>
    simp only [Scan.overcloses, Option.isNone_none, Bool.true_and, Bool.or_eq_false_iff,
      Bool.and_eq_false_iff, beq_eq_false_iff_ne] at h
    simp only [Scan.within, Scan.next]
    split_ifs with hquote hopen hclose hparen hclosing
    · rfl
    · rfl
    · rfl
    · simp only [Scan.mk.injEq, true_and]
      omega
    · have hn : n ≠ 0 := h.1.resolve_left (not_not_intro hclosing)
      simp only [Scan.mk.injEq, true_and]
      omega
    · rfl

theorem Scan.breaks_within {k : Nat} {c : Char} (h : s.breaks c = false) :
    (s.within k).breaks c = false := by
  obtain ⟨q, b, n⟩ := s
  simp only [Scan.breaks, Scan.separates, Scan.overcloses, Scan.counts, Scan.within,
    Bool.or_eq_false_iff, Bool.and_eq_false_iff, beq_eq_false_iff_ne] at h ⊢
  grind

/-- Within more parentheses a text goes on meeting nothing that breaks it. -/
theorem breaks_within {k : Nat} (h : meets Scan.breaks s l = false) :
    meets Scan.breaks (s.within k) l = false ∧
      (s.within k).after l = (s.after l).within k := by
  induction l generalizing s with
  | nil => exact ⟨rfl, rfl⟩
  | cons c l ih =>
    obtain ⟨hc, hl⟩ := Bool.or_eq_false_iff.1 h
    obtain ⟨hmeets, hafter⟩ := ih hl
    have hnext := Scan.next_within (k := k) (Bool.or_eq_false_iff.1 hc).2
    rw [meets, Scan.breaks_within hc, Scan.after_cons, Scan.after_cons, hnext]
    exact ⟨hmeets, hafter⟩

/-- A text that closes all that it opens and nothing else may stand in any parentheses. -/
theorem pastes_breaks : Pastes Scan.breaks Eq where
  equivalence := eq_equivalence
  next h c := by rw [h]
  bad_eq h c := by rw [h]
  refersHere_eq h c := by rw [h]
  blank := by decide
  sound := by
    intro l hl s hs
    obtain ⟨hquote, hbrackets⟩ := Scan.refersHere_ampersand.1 hs
    have hwithin : s = Scan.start.within s.parens := by
      obtain ⟨q, b, n⟩ := s
      obtain rfl : q = none := hquote
      obtain rfl : b = 0 := hbrackets
      simp [Scan.within, Scan.start]
    rw [hwithin]
    obtain ⟨hmeets, hafter⟩ := breaks_within (k := s.parens) hl.1
    exact ⟨hmeets, by rw [hafter, hl.2]⟩

/-! Trimming. Blanks do not count, and the scan does not see them. -/

/-- Strings are opened by quotes only. -/
def Scan.Quoted (s : Scan) : Prop := ∀ q ∈ s.quote, isQuote q = true

theorem Scan.Quoted.next (hs : s.Quoted) (c : Char) : (s.next c).Quoted := by
  obtain ⟨q, b, k⟩ := s
  unfold Scan.Quoted Scan.next at *
  cases q with
  | some q => dsimp only; split <;> simp_all
  | none => dsimp only; split_ifs <;> simp_all

theorem Scan.Quoted.after (hs : s.Quoted) (l : List Char) : (s.after l).Quoted := by
  induction l generalizing s with
  | nil => exact hs
  | cons c l ih => exact ih (hs.next c)

theorem Scan.quoted_start : Scan.start.Quoted := by simp [Scan.Quoted, Scan.start]

/-- Nothing that opens or closes is blank. -/
theorem Scan.next_blank (hs : s.Quoted) {c : Char} (hc : isBlank c = true) : s.next c = s := by
  have hne : ∀ {d : Char}, isBlank d = false → c ≠ d := by
    rintro d hd rfl
    rw [hc] at hd
    cases hd
  have hquote : ∀ {q : Char}, isQuote q = true → isBlank q = false := by
    intro q hq
    simp only [isQuote, Bool.or_eq_true, beq_iff_eq] at hq
    rcases hq with rfl | rfl <;> decide
  obtain ⟨q, b, k⟩ := s
  cases q with
  | some q => simp [Scan.next, hne (hquote (hs q rfl))]
  | none =>
    have hnot : isQuote c = false := Bool.eq_false_iff.2 fun h => hne (hquote h) rfl
    have hopen : c ≠ '[' ∧ c ≠ '(' := ⟨hne (by decide), hne (by decide)⟩
    have hclose : c ≠ ']' ∧ c ≠ ')' := ⟨hne (by decide), hne (by decide)⟩
    simp [Scan.next, hnot, hopen, hclose]

theorem Scan.after_blanks (hs : s.Quoted) (hl : ∀ c ∈ l, isBlank c = true) : s.after l = s := by
  induction l with
  | nil => rfl
  | cons c l ih =>
    obtain ⟨hc, hl⟩ := List.forall_mem_cons.1 hl
    rw [Scan.after_cons, Scan.next_blank hs hc, ih hl]

/-- The scan ends as that of the trimmed text, which meets nothing that the text does not meet. -/
theorem scan_trimChars (bad : Scan → Char → Bool) (l : List Char) :
    Scan.start.after (trimChars l) = Scan.start.after l ∧
      (meets bad .start l = false → meets bad .start (trimChars l) = false) := by
  obtain ⟨front, back, hl, hfront, hback⟩ := exists_blanks l
  have hstart : Scan.start.after front = .start := Scan.after_blanks Scan.quoted_start hfront
  constructor
  · conv_rhs => rw [hl]
    rw [Scan.after_append, Scan.after_append, hstart,
      Scan.after_blanks (Scan.quoted_start.after _) hback]
  · intro h
    rw [hl, meets_append, meets_append, hstart] at h
    simp only [Bool.or_eq_false_iff] at h
    exact h.1.2

theorem Sound.trimChars (h : Sound bad E l) : Sound bad E (trimChars l) :=
  ⟨(scan_trimChars bad l).2 h.1, (scan_trimChars bad l).1 ▸ h.2⟩

/-- The selector ends outside strings and brackets. -/
def Shut (x : String) : Prop := SameLevel (Scan.start.after x.toList) .start

instance (s t : Scan) : Decidable (SameLevel s t) :=
  inferInstanceAs (Decidable (s.quote = t.quote ∧ s.brackets = t.brackets))

instance (x : String) : Decidable (Shut x) :=
  inferInstanceAs (Decidable (SameLevel (Scan.start.after x.toList) .start))

/-- No ampersand is left after nesting below a parent that has none left. -/
theorem nestOne_refersHere {parent child x : String}
    (hp : Sound Scan.refersHere SameLevel parent.toList) (hc : Shut child)
    (h : nestOne parent child = some x) : Sound Scan.refersHere SameLevel x.toList := by
  obtain ⟨-, hx⟩ := nestOne_eq_some h
  have hnone : ∀ s l, meets (fun s c => s.refersHere c && !s.refersHere c) s l = false := by
    intro s l
    induction l generalizing s with
    | nil => rfl
    | cons c l ih => rw [meets, Bool.and_not_self, Bool.false_or, ih]
  have hend : SameLevel (Scan.start.after (Text.trimChars child.toList)) .start := by
    rw [(scan_trimChars Scan.refersHere child.toList).1]
    exact hc
  rw [hx]
  exact pastes_refersHere.nestChars hp ⟨hnone _ _, hend⟩

end Unnest.Selector
