import Unnest.Tree.Basic

/-! A style sheet as it is read: style rules, the at-rules that hold rules, and all other rules as
text. `Rule.tree` is the style tree it stands for. -/

namespace Unnest.Css

inductive Group where
  | media (query : String)
  | supports (condition : String)
  | container (name : Option String) (condition : String)
  | layer (name : Option String)
  | startingStyle
deriving DecidableEq

/-- A declaration without its importance. -/
structure Property where
  name : String
  value : String
deriving DecidableEq

inductive Rule where
  | style (selectors : List String) (normal important : List Property) (rules : List Rule)
  | group (g : Group) (rules : List Rule)
  | other (text : String)

namespace Group

def name : Group → String
  | .media _ => "media"
  | .supports _ => "supports"
  | .container _ _ => "container"
  | .layer _ => "layer"
  | .startingStyle => "starting-style"

def params : Group → String
  | .media q => q
  | .supports c => c
  | .container (some n) c => n ++ " " ++ c
  | .container none c => c
  | .layer n => n.getD ""
  | .startingStyle => ""

end Group

def Property.tree (important : Bool) (p : Property) : Tree Unit :=
  .leaf () (.declaration ⟨p.name, p.value, important⟩)

mutual

/-- A style rule has its normal declarations first, then the important ones, then its nested
rules. -/
def Rule.tree : Rule → Tree Unit
  | .style selectors normal important rules =>
    .branch () (.rule selectors)
      (normal.map (Property.tree false) ++ important.map (Property.tree true) ++ Rule.trees rules)
  | .group g rules => .branch () (.atRule g.name g.params) (Rule.trees rules)
  | .other text => .leaf () (.raw text)

def Rule.trees : List Rule → List (Tree Unit)
  | [] => []
  | r :: rs => r.tree :: Rule.trees rs

end

end Unnest.Css
