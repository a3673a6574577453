import Unnest.Tree.Basic
import Unnest.Pass.Options

/-! What a session can be asked to do. -/

namespace Unnest.Session

/-- The node a command works on: one that has a handle, or a new tree whose labels become handles. -/
inductive Target where
  | handle (name : String)
  | fresh (tree : Tree (Option String))

/-- How a watched pass is run: what expands its rules, at which call it is made to fail and with what
text, and what is reported. -/
structure Settings where
  options : Options := {}
  idle : Bool := false
  failAt : Option Nat := none
  failText : String := "boom"
  showText : Bool := false
  showLog : Bool := false

/-- The commands in `before` and `after` belong to the call with their number. -/
inductive Command where
  | build (node : Target) (name : Option String)
  | drop (name : String)
  | append (parent child : Target)
  | prepend (parent child : Target)
  | insertAfter (anchor node : Target)
  | remove (parent child : Target)
  | detach (node : Target)
  | push (parent child : Target)
  | clear (parent : Target)
  | setSelectors (node : Target) (selectors : List String)
  | parent (node : Target)
  | children (node : Target)
  | top (node : Target)
  | info (node : Target)
  | sameDeclaration (a b : Target)
  | print (node : Target)
  | dump (node : Target)
  | rules (node : Target)
  | expand (node : Target) (options : Options)
  | run (node : Target) (settings : Settings) (before after : List (Nat × List Command))

end Unnest.Session
