import Unnest.Error
import Unnest.Text.Blank
import Unnest.Text.AsciiCase
import Unnest.Css.Selector
import Unnest.Css.Sheet
import Unnest.Css.Item

/-! Reading a style sheet from text. -/

namespace Unnest.Css

open Text

/-- Colours whose shortest name is a number. -/
def shortColours : List (String × String) :=
  [("black", "#000"), ("white", "#fff"), ("blue", "#00f"), ("yellow", "#ff0"), ("aqua", "#0ff"),
   ("cyan", "#0ff"), ("fuchsia", "#f0f"), ("magenta", "#f0f")]

/-- The value as it is written, except that a colour gets its shortest name. -/
def valueText (property : String) (value : List Part) : String :=
  let text := Part.textAll (Part.trim value)
  if sameName property "color" then
    ((shortColours.find? fun c => sameName c.1 text).map (·.2)).getD text
  else text

def splitImportant (value : List Part) : List Part × Bool :=
  match Part.dropBlanks value.reverse with
  | .token (.ident n) _ :: before =>
    match Part.dropBlanks before with
    | .token (.delim '!') _ :: l =>
      if sameName n "important" then (l.reverse, true) else (value, false)
    | _ => (value, false)
  | _ => (value, false)

def paramsText (params : List Part) : String := Part.textAll (Part.trim params)

def compares : Token → Bool
  | .delim '<' => true
  | .delim '>' => true
  | .delim '=' => true
  | _ => false

mutual

/-- A condition in its one written form: a space behind a colon and around a comparison. -/
def conditionPart : Part → String
  | .token .colon _ => ": "
  | .token t _ => if compares t then " " ++ t.text ++ " " else t.text
  | .block t _ inner _ => t.text ++ conditionRow inner ++ t.closerText

def conditionRow : List Part → String
  | [] => ""
  | [x] => if x.isBlank then "" else conditionPart x
  | x :: y :: l =>
    if x.isBlank && (compares y.head || y.head == .colon) then conditionRow (y :: l)
    else if y.isBlank && (compares x.head || x.head == .colon) then
      conditionPart x ++ conditionRow l
    else conditionPart x ++ conditionRow (y :: l)

end

def conditionText (params : List Part) : String := conditionRow (Part.trim params)

def group? (name : String) (params : List Part) : Option Group :=
  if sameName name "media" then some (.media (paramsText params))
  else if sameName name "supports" then some (.supports (conditionText params))
  else if sameName name "layer" then
    let text := paramsText params
    some (.layer (if text.isEmpty then none else some text))
  else if sameName name "starting-style" then some .startingStyle
  else if sameName name "container" then
    match Part.dropBlanks params with
    | .token (.ident n) _ :: l => some (.container (some n) (conditionText l))
    | _ => some (.container none (conditionText params))
  else none

def headerText (name : String) (params : List Part) : String :=
  let text := ", ".intercalate ((Part.splitCommas .start params).map fun m => paramsText m.1)
  "@" ++ name ++ (if text.isEmpty then "" else " " ++ text)

def indented (depth : Nat) (text : String) : String :=
  String.ofList (List.replicate (2 * depth) ' ') ++ text ++ "\n"

def frameText (item : Item) : String :=
  match item with
  | .rule selectors _ body _ =>
    let inner := match body with
      | .ok b => Item.items .style b
      | .error _ => []
    let lines := inner.map fun
      | .declaration n v => indented 2 (n ++ ": " ++ valueText n v ++ ";")
      | _ => ""
    indented 1 (paramsText selectors ++ " \x7b") ++ String.join lines ++ indented 1 "\x7d"
  | _ => ""

def keptText (name : String) (params : List Part) : Option Body → String
  | none => headerText name params ++ ";"
  | some body =>
    let frames := (Item.items .group body).map frameText
    headerText name params ++ " \x7b\n" ++ "\n".intercalate frames ++ "\x7d"

structure Content where
  normal : List Property
  important : List Property
  rules : List Rule

namespace Content

def empty : Content := ⟨[], [], []⟩

/-- The rules of an at-rule inside a style rule: its own declarations go first, in a rule for the
parent selector. -/
def groupRules (c : Content) : List Rule :=
  if c.normal.isEmpty && c.important.isEmpty then c.rules
  else .style ["&"] c.normal c.important [] :: c.rules

end Content

/-- Rules directly inside a style rule, or inside its at-rules, belong to it. -/
def Level.below : Level → Level
  | .style => .style
  | _ => .group

/-- The content of a block, with at most `depth` levels of blocks inside. The first problem ends the
reading. -/
def readItems : Nat → Level → List Item → Reads Content
  | _, _, [] => .ok .empty
  | 0, _, _ => .ok .empty
  | depth + 1, level, item :: items => do
    let inside (below : Level) (body : Body) : Reads Content :=
      readItems depth below (Item.items below body)
    match item with
    | .declaration name value =>
      let v := splitImportant value
      let p : Property := ⟨name, valueText name v.1⟩
      let rest ← readItems (depth + 1) level items
      return if v.2 then { rest with important := p :: rest.important }
        else { rest with normal := p :: rest.normal }
    | .atRule name _ params _ body =>
      let rule : Reads Rule :=
        match group? name params, body with
        | some g, some body => (inside level.below body).map fun c => .group g c.groupRules
        | _, _ => .ok (.other (keptText name params body))
      let rule ← rule
      let rest ← readItems (depth + 1) level items
      return { rest with rules := rule :: rest.rules }
    | .rule selectors stop body notDeclaration =>
      let nested := level == .style
      let rule : Reads Rule := do
        let body ← body
        let selectors ← readSelectors nested stop selectors
        let c ← inside .style body
        return .style (selectors.map (Chain.text nested)) c.normal c.important c.rules
      let rule ← match rule, notDeclaration with
        | .error _, some why => .error why
        | r, _ => r
      let rest ← readItems (depth + 1) level items
      return { rest with rules := rule :: rest.rules }

/-- The rules of a style sheet; `source` names it in the error. -/
def readSheet (source text : String) : Except Error (List Rule) :=
  let r := lex text
  let parts := Part.gather r.2 r.1
  match readItems (Part.depthAll parts + 1) .sheet (Item.items .sheet (parts, r.2)) with
  | .ok c => .ok c.rules
  | .error p => .error (.parse p.fault source p.place)

end Unnest.Css
