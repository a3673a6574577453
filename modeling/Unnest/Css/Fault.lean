import Unnest.Css.Token

/-! Why a style sheet text cannot be read. -/

namespace Unnest.Css

inductive Fault where
  | emptySelector
  | danglingCombinator
  | pseudoElement (found : Token)
  | pseudoClass (found : Token)
  | attribute (found : Token)
  | unexpected (found : Token)
  | endOfInput
deriving DecidableEq

def Fault.message : Fault → String
  | .emptySelector => "Invalid empty selector"
  | .danglingCombinator => "Invalid dangling combinator in selector"
  | .pseudoElement t => "Invalid token in pseudo element: " ++ t.describe
  | .pseudoClass t => "Invalid token in pseudo class: " ++ t.describe
  | .attribute t => "Invalid token in attribute selector: " ++ t.describe
  | .unexpected t => "Unexpected token " ++ t.describe
  | .endOfInput => "Unexpected end of input"

end Unnest.Css
