import Unnest.Text.Blank
import Unnest.Selector.Scan

/-! Selector lists. A list is cut at its separating commas, the members are trimmed and blank ones
are dropped. -/

namespace Unnest.Selector

open Text

/-- The first piece of `l` and the pieces behind its separating commas. -/
def pieces (s : Scan) : List Char → List Char × List (List Char)
  | [] => ([], [])
  | c :: l =>
    let r := pieces (s.next c) l
    if s.separates c then ([], r.1 :: r.2) else (c :: r.1, r.2)

def allPieces (s : Scan) (l : List Char) : List (List Char) :=
  (pieces s l).1 :: (pieces s l).2

def membersOf (l : List Char) : List (List Char) :=
  ((allPieces .start l).map trimChars).filter fun m => !m.isEmpty

/-- The selectors of a written list such as `a, b:is(c, d)`. -/
def members (list : String) : List String :=
  (membersOf list.toList).map String.ofList

/-- A selector list as written in a style sheet. -/
def listText (selectors : List String) : String :=
  ", ".intercalate selectors

theorem eq_comma_of_separates {s : Scan} {c : Char} (h : s.separates c = true) : c = ',' := by
  simp only [Scan.separates, Bool.and_eq_true, beq_iff_eq] at h
  exact h.1.2

end Unnest.Selector
