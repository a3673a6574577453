import Unnest.Error
import Unnest.Pass.Sweep

/-! What a session answers. -/

namespace Unnest.Session

inductive Refusal where
  | failed (e : Error)
  | unknownHandle (name : String)
  | cycle

structure Facts where
  kind : Kind
  isRule : Bool
  selectorText : Option String
  attached : Bool
  ruleAncestor : Bool
  hasLink : Bool

/-- One call of a watched pass: the rule and its selectors at the time, the answers of the commands
around it, and the document after it. -/
structure Call (α : Type) where
  rule : String × String
  before : Option (List α)
  after : Option (List α)
  shown : Option String

inductive Reply where
  | nothing
  | flag (b : Bool)
  | number (n : Nat)
  | name (s : String)
  | names (l : List String)
  | text (s : String)
  | tree (t : Tree (Option String))
  | facts (f : Facts)
  | rules (l : List (String × String))
  | report (outcome : Except Error Stats) (calls : List (Call (Except Refusal Reply)))
      (log : Option (List Event))

abbrev Answer := Except Refusal Reply

end Unnest.Session
