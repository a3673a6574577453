import Unnest.Text.Blank
import Unnest.Selector.Members
import Unnest.Tree.Basic

/-! A style tree as style sheet text: one line for each leaf, header and closing brace, two spaces
for each level. -/

namespace Unnest

open Text

/-- A printed line without its indentation and line end. -/
structure Line where
  depth : Nat
  text : String
deriving DecidableEq

def Line.print (l : Line) : String :=
  String.ofList (List.replicate (2 * l.depth) ' ') ++ l.text ++ "\n"

def Declaration.text (d : Declaration) : String :=
  d.property ++ ": " ++ d.value ++ (if d.important then " !important;" else ";")

/-- Comments and kept text are printed without the blanks around them. -/
def Leaf.text : Leaf → String
  | .declaration d => d.text
  | .comment t => "/* " ++ trim t ++ " */"
  | .raw t => trim t

def atRuleHeader (name params : String) : String :=
  if params.isEmpty then "@" ++ name else "@" ++ name ++ " " ++ params

namespace Tree

variable {α : Type}

mutual

/-- A root adds no level of its own. -/
def lines (depth : Nat) : Tree α → List Line
  | .leaf _ l => [⟨depth, l.text⟩]
  | .statement _ n p => [⟨depth, atRuleHeader n p ++ ";"⟩]
  | .branch _ .root ts => linesAll depth ts
  | .branch _ (.rule s) ts => blockLines depth (Selector.listText s) ts
  | .branch _ (.atRule n p) ts => blockLines depth (atRuleHeader n p) ts

/-- A block without children is closed on the line of its header. -/
def blockLines (depth : Nat) (header : String) : List (Tree α) → List Line
  | [] => [⟨depth, header ++ " \x7b\x7d"⟩]
  | t :: ts =>
    ⟨depth, header ++ " \x7b"⟩ :: (t.lines (depth + 1) ++ linesAll (depth + 1) ts)
      ++ [⟨depth, "\x7d"⟩]

def linesAll (depth : Nat) : List (Tree α) → List Line
  | [] => []
  | t :: ts => t.lines depth ++ linesAll depth ts

end

def print (t : Tree α) : String :=
  String.join ((t.lines 0).map Line.print)

end Tree

end Unnest
