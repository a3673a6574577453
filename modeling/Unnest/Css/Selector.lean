import Unnest.Css.Part

/-! Selectors as a style sheet reader understands them. They are printed in one way, however they were
written: one space around a combinator, lists separated by a comma and a space. -/

namespace Unnest.Css

inductive Combinator where
  | descendant
  | child
  | nextSibling
  | laterSibling
deriving DecidableEq

/-- A selector is a row of these. A name stands behind its mark, as in `.a`, `#a` or `:hover`. -/
inductive Step where
  | combinator (c : Combinator)
  | name (mark name : String)
  | nesting
  | attribute (name test value : String)
  | opaqueArgs (name args : String)
  | matching (name : String) (selectors : List (List Step))

def Combinator.text : Combinator → String
  | .descendant => " "
  | .child => " > "
  | .nextSibling => " + "
  | .laterSibling => " ~ "

def Combinator.leadingText : Combinator → String
  | .descendant => ""
  | .child => "> "
  | .nextSibling => "+ "
  | .laterSibling => "~ "

namespace Step

mutual

def text : Step → String
  | .combinator c => c.text
  | .name mark n => mark ++ n
  | .nesting => "&"
  | .attribute n test v =>
    if test.isEmpty then "[" ++ n ++ "]" else "[" ++ n ++ test ++ quoted v ++ "]"
  | .opaqueArgs n args => ":" ++ n ++ "(" ++ args ++ ")"
  | .matching n ss => ":" ++ n ++ "(" ++ listText ss ++ ")"

def rowText : List Step → String
  | [] => ""
  | x :: xs => x.text ++ rowText xs

def listText : List (List Step) → String
  | [] => ""
  | [x] => rowText x
  | x :: xs => rowText x ++ ", " ++ listText xs

end

mutual

def refers : Step → Bool
  | .nesting => true
  | .matching _ ss => listRefers ss
  | _ => false

def rowRefers : List Step → Bool
  | [] => false
  | x :: xs => x.refers || rowRefers xs

def listRefers : List (List Step) → Bool
  | [] => false
  | x :: xs => rowRefers x || listRefers xs

end

end Step

structure Chain where
  leading : Combinator
  steps : List Step

namespace Chain

/-- In a nested rule a selector that does not mention the parent starts with it. -/
def text (nested : Bool) (s : Chain) : String :=
  let own := s.leading.leadingText ++ Step.rowText s.steps
  if nested && !Step.rowRefers s.steps then "& " ++ own else own

end Chain

def takesSelectors (name : String) : Bool := ["is", "where", "not", "any", "has"].contains name

def combinator? : Token → Option Combinator
  | .delim '>' => some .child
  | .delim '+' => some .nextSibling
  | .delim '~' => some .laterSibling
  | _ => none

def problem {α : Type} (fault : Fault) (place : Place) : Reads α := .error ⟨fault, place⟩

def readAttribute (stop : Place) (inner : List Part) : Reads Step :=
  match inner.filter (!·.isBlank) with
  | [.token (.ident n) _] => .ok (.attribute n "" "")
  | [.token (.ident n) _, .token (.delim '=') _, .token t _] => value n "=" t
  | [.token (.ident n) _, .token (.delim c) _, .token (.delim '=') _, .token t _] =>
    value n (c.toString ++ "=") t
  | x :: _ => problem (.attribute x.head) x.place
  | [] => problem .endOfInput stop
where
  value (n test : String) : Token → Reads Step
    | .string v => .ok (.attribute n test v)
    | .ident v => .ok (.attribute n test v)
    | t => problem (.attribute t) stop

/-- A simple selector at the front, and the parts behind it; nothing if none starts here. Argument
lists are read with `readArgs`. -/
def readStep (readArgs : Place → List Part → Reads (List (List Step))) (stop : Place) :
    List Part → Reads (Option (Step × List Part))
  | .token (.ident n) _ :: l => .ok (some (.name "" n, l))
  | .token (.delim '*') _ :: l => .ok (some (.name "" "*", l))
  | .token (.delim '&') _ :: l => .ok (some (.nesting, l))
  | .token (.hash n) _ :: l => .ok (some (.name "#" n, l))
  | .token (.delim '.') _ :: .token (.ident n) _ :: l => .ok (some (.name "." n, l))
  | .token (.delim '.') _ :: x :: _ => problem (.unexpected x.head) x.place
  | .token (.delim '.') _ :: [] => problem .endOfInput stop
  | .block (.opening .square) _ inner stop' :: l => do
    return some (← readAttribute stop' inner, l)
  | .token .colon _ :: .token .colon _ :: l =>
    match l with
    | .token (.ident n) _ :: l => .ok (some (.name "::" n, l))
    | x :: l => problem (.pseudoElement x.head) (Part.placeOf stop l)
    | [] => problem .endOfInput stop
  | .token .colon _ :: l =>
    match l with
    | .token (.ident n) _ :: l => .ok (some (.name ":" n, l))
    | .block (.function n) _ inner stop' :: l => do
      if takesSelectors n then return some (.matching n (← readArgs stop' inner), l)
      else return some (.opaqueArgs n (Part.textAll (Part.trim inner)), l)
    | x :: l => problem (.pseudoClass x.head) (Part.placeOf stop l)
    | [] => problem .endOfInput stop
  | _ => .ok none

/-- How far a selector is read: nothing of it, up to a simple selector, to blanks behind one, or to a
combinator. -/
inductive Stage where
  | first
  | inside
  | spaced
  | joined

/-- The steps of a selector, at most `bound` of them. A combinator needs a simple selector on both
sides. -/
def readSteps (readArgs : Place → List Part → Reads (List (List Step))) (stop : Place) :
    Nat → Stage → List Part → Reads (List Step)
  | 0, _, _ => .ok []
  | bound + 1, stage, l => do
    let again := readSteps readArgs stop bound
    let here := Part.placeOf stop l
    let missing : Reads (List Step) :=
      match stage with
      | .first => problem .emptySelector here
      | _ => problem .danglingCombinator here
    match stage, l with
    | .inside, [] | .spaced, [] => return []
    | .first, [] | .joined, [] => missing
    | .inside, x :: l' =>
      if x.isBlank then again .spaced l'
      else
        match combinator? x.head with
        | some c => return .combinator c :: (← again .joined (Part.dropBlanks l'))
        | none =>
          match ← readStep readArgs stop l with
          | some (step, l) => return step :: (← again .inside l)
          | none => problem (.unexpected x.head) here
    | .spaced, x :: l' =>
      match combinator? x.head with
      | some c => return .combinator c :: (← again .joined (Part.dropBlanks l'))
      | none =>
        match ← readStep readArgs stop l with
        | some (step, l) => return .combinator .descendant :: step :: (← again .inside l)
        | none => problem (.unexpected x.head) here
    | _, _ :: _ =>
      match ← readStep readArgs stop l with
      | some (step, l) => return step :: (← again .inside l)
      | none => missing

def readRow (readArgs : Place → List Part → Reads (List (List Step))) (stop : Place)
    (l : List Part) : Reads (List Step) :=
  readSteps readArgs stop (2 * l.length + 2) .first (Part.dropBlanks l)

/-- The argument list of a pseudo class, at most `depth` levels of them; an empty one holds no
selectors. -/
def readArgs : Nat → Place → List Part → Reads (List (List Step))
  | 0, _, _ => .ok []
  | depth + 1, stop, inner =>
    if (Part.trim inner).isEmpty then .ok []
    else (Part.splitCommas stop inner).mapM fun m => readRow (readArgs depth) m.2 m.1

/-- One selector of a list. A relative one may start with a combinator, and says nothing but that the
text ends if nothing at all follows. -/
def readSelector (relative : Bool) (listStop : Place) (stop : Place) (l : List Part) :
    Reads Chain := do
  let args := readArgs (Part.depthAll l)
  let l := Part.dropBlanks l
  match relative, l with
  | false, _ => return ⟨.descendant, ← readRow args stop l⟩
  | true, [] => problem (if stop = listStop then .endOfInput else .emptySelector) stop
  | true, x :: l' =>
    match combinator? x.head with
    | some c => return ⟨c, ← readRow args stop l'⟩
    | none => return ⟨.descendant, ← readRow args stop l⟩

def readSelectors (relative : Bool) (stop : Place) (l : List Part) : Reads (List Chain) :=
  (Part.splitCommas stop l).mapM fun m => readSelector relative stop m.2 m.1

end Unnest.Css
