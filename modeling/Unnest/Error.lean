import Unnest.Leaf
import Unnest.Css.Fault

/-! What can go wrong while a sheet is read, edited or flattened, and the message for each cause. -/

namespace Unnest

inductive Error where
  | parse (fault : Css.Fault) (source : String) (place : Css.Place)
  | print (text : String)
  | notARule (found : Kind)
  | notAContainer (found : Kind)
  | detached
deriving DecidableEq

def Error.message : Error → String
  | .parse f source p =>
    "failed to parse stylesheet: " ++ f.message ++ " at " ++ source ++ ":" ++
      toString p.line ++ ":" ++ toString p.column
  | .print text => "failed to print stylesheet: " ++ text
  | .notARule k => "expected a rule node, found " ++ k.text
  | .notAContainer k => k.text ++ " node cannot hold children"
  | .detached => "node is not attached to a container"

end Unnest
