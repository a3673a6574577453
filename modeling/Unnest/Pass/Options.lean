import Unnest.Text.Blank
import Unnest.Text.AsciiCase

/-! What a pass does with at-rules below a rule, and what it leaves behind. Names are kept in the
order they were added and compared without regard to ASCII case. -/

namespace Unnest

open Text

/-- What happens to a listed rule that has left the tree by its turn. -/
inductive Stale where
  | skip
  | dispatch
deriving DecidableEq

/-- Bubbling at-rules stay around the rules inside them, unwrapped ones are lifted out unchanged,
and the root rule lets its content escape the parent selector. -/
structure Options where
  preserveEmpty : Bool := false
  bubble : List String := ["container", "media", "supports", "layer", "starting-style"]
  unwrap : List String :=
    ["document", "font-face", "keyframes", "-webkit-keyframes", "-moz-keyframes"]
  rootRuleName : String := "at-root"
  stale : Stale := .skip
deriving DecidableEq

namespace Options

/-- An at-rule name without blanks around it and without leading `@`. -/
def atRuleName (name : String) : String :=
  String.ofList ((trimChars name.toList).dropWhile (· == '@'))

/-- A name that is already listed, in the same letter case, is not listed twice. -/
def addName (names : List String) (name : String) : List String :=
  if names.contains name then names else names ++ [name]

def alsoBubble (o : Options) (name : String) : Options :=
  { o with bubble := addName o.bubble (atRuleName name) }

def alsoUnwrap (o : Options) (name : String) : Options :=
  { o with unwrap := addName o.unwrap (atRuleName name) }

def withRootRule (o : Options) (name : String) : Options :=
  { o with rootRuleName := atRuleName name }

def bubbles (o : Options) (name : String) : Bool := o.bubble.any (sameName · name)

def unwraps (o : Options) (name : String) : Bool := o.unwrap.any (sameName · name)

def namesRootRule (o : Options) (name : String) : Bool := sameName o.rootRuleName name

theorem mem_addName {names : List String} {name x : String} :
    x ∈ addName names name ↔ x ∈ names ∨ x = name := by
  unfold addName
  split
  · next h => exact ⟨Or.inl, fun h' => h'.elim id fun e => by simpa [e] using h⟩
  · simp

end Options

end Unnest
