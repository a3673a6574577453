/-! Reading a selector character by character. A scan remembers the string it is in and how many
brackets and parentheses are open; a character counts as selector syntax when it stands outside
strings and outside attribute brackets. -/

namespace Unnest.Selector

def isQuote (c : Char) : Bool := c == '"' || c == '\x27'

/-- The open quote if there is one, and how many brackets and parentheses are open. The numbers stand
for counters of 32 bits, and are the same as long as fewer than `2 ^ 32` of either are open at once. -/
structure Scan where
  quote : Option Char
  brackets : Nat
  parens : Nat
deriving DecidableEq

namespace Scan

def start : Scan := ⟨none, 0, 0⟩

/-- A string ends at the quote that opened it. Closing a bracket or parenthesis that is not open
changes nothing. -/
def next (s : Scan) (c : Char) : Scan :=
  match s.quote with
  | some q => if c = q then { s with quote := none } else s
  | none =>
    if isQuote c then { s with quote := some c }
    else if c = '[' then { s with brackets := s.brackets + 1 }
    else if c = ']' then { s with brackets := s.brackets - 1 }
    else if c = '(' then { s with parens := s.parens + 1 }
    else if c = ')' then { s with parens := s.parens - 1 }
    else s

/-- Whether `c`, read in state `s`, is selector syntax. -/
def counts (s : Scan) (c : Char) : Bool :=
  s.quote.isNone && s.brackets == 0 && !isQuote c && c != '[' && c != ']'

def after (s : Scan) (l : List Char) : Scan := l.foldl next s

/-- A comma separates two selectors only outside parentheses. -/
def separates (s : Scan) (c : Char) : Bool :=
  s.counts c && c == ',' && s.parens == 0

/-- An ampersand stands for the parent wherever it counts. -/
def refersHere (s : Scan) (c : Char) : Bool :=
  s.counts c && c == '&'

theorem after_cons (s : Scan) (c : Char) (l : List Char) :
    s.after (c :: l) = (s.next c).after l := rfl

theorem after_append (s : Scan) (l m : List Char) : s.after (l ++ m) = (s.after l).after m := by
  simp [after, List.foldl_append]

end Scan

end Unnest.Selector
