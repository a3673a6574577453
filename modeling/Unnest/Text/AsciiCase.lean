/-! Equality of names up to the case of ASCII letters. Letters outside ASCII are compared as
they are. -/

namespace Unnest.Text

/-- The text with its ASCII capitals lowered. -/
def lowered (s : String) : List Char := s.toList.map Char.toLower

/-- Two names are the same when they differ at most in the case of ASCII letters. -/
def sameName (a b : String) : Bool := lowered a == lowered b

theorem sameName_iff {a b : String} : sameName a b = true ↔ lowered a = lowered b := by
  simp [sameName]

theorem sameName_refl (a : String) : sameName a a = true := by simp [sameName]

end Unnest.Text
