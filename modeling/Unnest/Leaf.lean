/-! What a style sheet says at its leaves: declarations, comments and text kept as it is. -/

namespace Unnest

structure Declaration where
  property : String
  value : String
  important : Bool
deriving DecidableEq

/-- A part of a sheet that holds no other parts. -/
inductive Leaf where
  | declaration (d : Declaration)
  | comment (text : String)
  | raw (text : String)
deriving DecidableEq

/-- The kinds of nodes a style tree is made of. -/
inductive Kind where
  | root
  | rule
  | atRule
  | declaration
  | comment
  | raw
deriving DecidableEq

/-- The name of a kind in messages. -/
def Kind.text : Kind → String
  | .root => "root"
  | .rule => "rule"
  | .atRule => "at-rule"
  | .declaration => "declaration"
  | .comment => "comment"
  | .raw => "raw"

def Leaf.kind : Leaf → Kind
  | .declaration _ => .declaration
  | .comment _ => .comment
  | .raw _ => .raw

end Unnest
