/-! Blank characters and trimming. `isBlank` is the Unicode property `White_Space`, and `trim`
takes blanks off both ends of a text; a trimmed text is left alone by a second `trim`. -/

namespace Unnest.Text

/-- The code point ranges of the property `White_Space`, ends included. -/
def blankRanges : List (Nat × Nat) :=
  [(0x9, 0xD), (0x20, 0x20), (0x85, 0x85), (0xA0, 0xA0), (0x1680, 0x1680), (0x2000, 0x200A),
   (0x2028, 0x2029), (0x202F, 0x202F), (0x205F, 0x205F), (0x3000, 0x3000)]

def isBlank (c : Char) : Bool :=
  blankRanges.any fun r => r.1 ≤ c.toNat && c.toNat ≤ r.2

/-- Trailing characters with the property `p` are dropped. -/
def dropEnd (p : Char → Bool) (l : List Char) : List Char :=
  (l.reverse.dropWhile p).reverse

def trimChars (l : List Char) : List Char :=
  dropEnd isBlank (l.dropWhile isBlank)

def trim (s : String) : String :=
  String.ofList (trimChars s.toList)

theorem toList_trim (s : String) : (trim s).toList = trimChars s.toList := by
  simp [trim]

end Unnest.Text
