import Unnest.Css.Sheet.Read
import Unnest.Pass.Sweep

/-! From nested style sheet text to flat style sheet text. What reads a style sheet is a parameter. -/

namespace Unnest

/-- What reads the rules of a style sheet; the first of the texts names the sheet in errors. -/
abbrev Css.Reader := String → String → Except Error (List Css.Rule)

/-- The text of a document after one pass. -/
def flattenDocument (o : Options) (doc : NodeId) (s : Store) : Except Error String :=
  match (Pass.flatten o doc : Edit Unit Stats) ⟨s, #[], ()⟩ with
  | .ok _ sc => .ok (sc.store.print doc)
  | .error e _ => .error e

/-- The flat form of the rules of a style sheet, in a store of their own. -/
def flattenRules (o : Options) (rules : List Css.Rule) : Except Error String :=
  let d := Store.ofTrees (Css.Rule.trees rules)
  flattenDocument o d.1 d.2

def flattenRead (read : Css.Reader) (o : Options) (source text : String) : Except Error String :=
  (read source text).bind (flattenRules o)

def readDocument (source text : String) : Except Error (NodeId × Store) :=
  (Css.readSheet source text).map fun rules => Store.ofTrees (Css.Rule.trees rules)

def flattenText (o : Options) (source text : String) : Except Error String :=
  flattenRead Css.readSheet o source text

end Unnest
