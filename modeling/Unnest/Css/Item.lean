import Unnest.Css.Part

/-! What a block consists of, before anything in it is understood: declarations, at-rules and rules in
front of a block. -/

namespace Unnest.Css

/-- Where a list of parts stands in a sheet. Declarations stand in style rules only; there a
semicolon also ends a rule that has no block. -/
inductive Level where
  | sheet
  | group
  | style
deriving DecidableEq

/-- The inside of a block, with the place where it ends. -/
abbrev Body := List Part × Place

/-- A rule that might have been meant as a declaration keeps the reason why it is none. -/
inductive Item where
  | declaration (name : String) (value : List Part)
  | atRule (name : String) (place : Place) (params : List Part) (stop : Place) (body : Option Body)
  | rule (selectors : List Part) (stop : Place) (body : Reads Body) (notDeclaration : Option Problem)

namespace Item

def isSemicolon (x : Part) : Bool := x.head == .semicolon

/-- The part up to a block in curly brackets or, where `bounded`, a semicolon; the block; and what
follows. -/
def untilBlock (bounded : Bool) (stop : Place) :
    List Part → List Part × Place × Reads Body × List Part
  | [] => ([], stop, .error ⟨.endOfInput, stop⟩, [])
  | x :: l =>
    match x.curly? with
    | some body => ([], x.place, .ok body, l)
    | none =>
      if bounded && isSemicolon x then ([], x.place, .error ⟨.unexpected .semicolon, x.place⟩, l)
      else
        let r := untilBlock bounded stop l
        (x :: r.1, r.2)

/-- Custom properties may have a block as their value. -/
def isCustom (name : String) : Bool := name.startsWith "--"

def declared (name : String) (stop : Place) (l : List Part) : Reads (List Part) :=
  let own := l.takeWhile (!isSemicolon ·)
  let stop := Part.placeOf stop (l.dropWhile (!isSemicolon ·))
  match Part.dropBlanks own with
  | [] => .error ⟨.endOfInput, stop⟩
  | .token .colon _ :: value =>
    match value.find? (·.curly?.isSome) with
    | some x => if isCustom name then .ok value else .error ⟨.unexpected x.head, x.place⟩
    | none => .ok value
  | x :: _ => .error ⟨.unexpected x.head, Part.placeOf stop own⟩

def itemsUpTo (level : Level) (stop : Place) : Nat → List Part → List Item
  | 0, _ => []
  | _, [] => []
  | bound + 1, x :: l =>
    let again := itemsUpTo level stop bound
    let asRule (notDeclaration : Option Problem) : List Item :=
      let r := untilBlock (level == .style) stop (x :: l)
      .rule r.1 r.2.1 r.2.2.1 notDeclaration :: again r.2.2.2
    if x.isBlank || (level != .sheet && isSemicolon x) then again l
    else
      match x with
      | .token (.atKeyword name) place =>
        let r := untilBlock true stop l
        .atRule name place r.1 r.2.1 r.2.2.1.toOption :: again r.2.2.2
      | .token (.ident name) _ =>
        if level = .style then
          match declared name stop l with
          | .ok value =>
            .declaration name value :: again (l.dropWhile (!isSemicolon ·)).tail
          | .error why => asRule (some why)
        else asRule none
      | _ => asRule none

/-- Every item takes a part, so their number is bounded by the number of parts. -/
def items (level : Level) (body : Body) : List Item :=
  itemsUpTo level body.2 body.1.length body.1

end Item

end Unnest.Css
