import Unnest.Text.Blank
import Unnest.Selector.Scan

/-! Resolving nested selectors. Every ampersand that counts is replaced by the parent selector; a
selector without one is a descendant of its parent. Lists are resolved as a product, parents
first. -/

namespace Unnest.Selector

open Text

/-- Whether some ampersand of `l`, read from state `s`, stands for the parent. -/
def refers (s : Scan) : List Char → Bool
  | [] => false
  | c :: l => s.refersHere c || refers (s.next c) l

/-- The text with the parent put in for each ampersand that stands for it. -/
def fill (parent : List Char) (s : Scan) : List Char → List Char
  | [] => []
  | c :: l => (if s.refersHere c then parent else [c]) ++ fill parent (s.next c) l

/-- Nothing when no ampersand of `selector` stands for the parent. -/
def substitute? (selector parent : String) : Option String :=
  if refers .start selector.toList then
    some (String.ofList (fill parent.toList .start selector.toList))
  else none

/-- One nested selector under one parent; a blank selector gives nothing. -/
def nestOne (parent child : String) : Option String :=
  let child := trim child
  if child.isEmpty then none
  else some ((substitute? child parent).getD (parent ++ " " ++ child))

/-- Nested selectors under a list of parents, all children of the first parent first. -/
def nest (parents children : List String) : List String :=
  parents.flatMap fun p => children.filterMap (nestOne p)

theorem fill_eq_self (parent : List Char) (s : Scan) (l : List Char) (h : refers s l = false) :
    fill parent s l = l := by
  induction l generalizing s with
  | nil => rfl
  | cons c l ih =>
    simp only [refers, Bool.or_eq_false_iff] at h
    simp [fill, h.1, ih _ h.2]

end Unnest.Selector
