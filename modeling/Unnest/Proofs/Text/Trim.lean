import Mathlib.Data.List.DropRight
import Unnest.Text.AsciiCase
import Unnest.Text.Blank

/-! Trimming takes blanks off the ends and nothing else, so a text that neither starts nor ends with
a blank stays as it is. Blanks have no letter case: trimming does not see the case of letters. -/

namespace Unnest.Text

/-- Neither the first character nor the last one is blank. -/
def Trimmed (l : List Char) : Prop :=
  (∀ c ∈ l.head?, isBlank c = false) ∧ ∀ c ∈ l.getLast?, isBlank c = false

theorem dropEnd_eq (p : Char → Bool) (l : List Char) : dropEnd p l = l.rdropWhile p := rfl

theorem trimmed_trimChars (l : List Char) : Trimmed (trimChars l) := by
  rw [trimChars, dropEnd_eq]
  constructor
  · intro c hc
    obtain ⟨rest, hrest⟩ := List.rdropWhile_prefix isBlank (l.dropWhile isBlank)
    have hhead : (l.dropWhile isBlank).head? = some c := by
      rw [← hrest, List.head?_append, Option.mem_def.1 hc, Option.some_or]
    have hnot := List.head?_dropWhile_not isBlank l
    rwa [hhead] at hnot
  · intro c hc
    have hne : (l.dropWhile isBlank).rdropWhile isBlank ≠ [] := fun he => by simp [he] at hc
    have hlast := List.rdropWhile_last_not isBlank (l.dropWhile isBlank) hne
    rw [List.getLast?_eq_some_getLast hne] at hc
    obtain rfl := Option.some.inj hc
    simpa using hlast

theorem trimChars_eq_self {l : List Char} (h : Trimmed l) : trimChars l = l := by
  have hfront : l.dropWhile isBlank = l := by
    cases l with
    | nil => rfl
    | cons c l => exact List.dropWhile_cons_of_neg (by simp [h.1 c rfl])
  rw [trimChars, hfront, dropEnd_eq, List.rdropWhile_eq_self_iff]
  intro hne
  simp [h.2 _ (List.getLast?_eq_some_getLast hne)]

theorem trimChars_eq_self_iff {l : List Char} : trimChars l = l ↔ Trimmed l :=
  ⟨fun h => h ▸ trimmed_trimChars l, trimChars_eq_self⟩

theorem Trimmed.append {l m : List Char} (hl : Trimmed l) (hm : Trimmed m) (hlne : l ≠ [])
    (hmne : m ≠ []) (middle : List Char) : Trimmed (l ++ middle ++ m) := by
  refine ⟨fun c hc => hl.1 c ?_, fun c hc => hm.2 c ?_⟩
  · rwa [List.append_assoc, List.head?_append_of_ne_nil _ hlne] at hc
  · rwa [List.getLast?_append_of_ne_nil _ hmne] at hc

theorem trimChars_cons {c : Char} (h : isBlank c = true) (l : List Char) :
    trimChars (c :: l) = trimChars l := by
  rw [trimChars, trimChars, List.dropWhile_cons_of_pos h]

/-- What trimming takes off is blank. -/
theorem exists_blanks (l : List Char) : ∃ front back, l = front ++ trimChars l ++ back ∧
    (∀ c ∈ front, isBlank c = true) ∧ ∀ c ∈ back, isBlank c = true := by
  refine ⟨l.takeWhile isBlank, (l.dropWhile isBlank).rtakeWhile isBlank, ?_, fun c hc => ?_,
    fun c hc => List.mem_rtakeWhile_imp hc⟩
  · rw [trimChars, dropEnd_eq, List.append_assoc, List.rdropWhile_append_rtakeWhile,
      List.takeWhile_append_dropWhile]
  · exact List.mem_takeWhile_imp hc

/-- Of the characters only the capitals change, and neither they nor what they become are blank. -/
theorem toLower_cases (c : Char) : c.toLower = c ∨
    (65 ≤ c.toNat ∧ c.toNat ≤ 90 ∧ c.toLower.toNat = c.toNat + 32) := by
  unfold Char.toLower
  split
  · next h =>
    have hlow : 65 ≤ c.toNat := h.1
    have hhigh : c.toNat ≤ 90 := h.2
    refine .inr ⟨hlow, hhigh, ?_⟩
    change (c.val + 32).toNat = c.val.toNat + 32
    rw [UInt32.toNat_add]
    exact Nat.mod_eq_of_lt (by change c.toNat + 32 < _; omega)
  · exact .inl rfl

/-- No visible character of ASCII is blank. -/
theorem isBlank_eq_false {c : Char} (h : 33 ≤ c.toNat) (h' : c.toNat ≤ 126) :
    isBlank c = false := by
  simp only [isBlank, blankRanges, List.any_cons, List.any_nil, Bool.or_false,
    Bool.or_eq_false_iff, Bool.and_eq_false_iff, decide_eq_false_iff_not]
  omega

theorem isBlank_toLower (c : Char) : isBlank c.toLower = isBlank c := by
  rcases toLower_cases c with h | ⟨hlow, hhigh, h⟩
  · rw [h]
  · rw [isBlank_eq_false (by omega) (by omega), isBlank_eq_false (by omega) (by omega)]

theorem toLower_toLower (c : Char) : c.toLower.toLower = c.toLower := by
  rcases toLower_cases c with h | ⟨hlow, hhigh, h⟩
  · rw [h, h]
  · exact (toLower_cases c.toLower).resolve_right fun h' => by omega

end Unnest.Text
