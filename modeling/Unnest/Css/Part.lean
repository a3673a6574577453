import Unnest.Css.Token.Lex
import Unnest.Css.Fault

/-! Tokens gathered into blocks. A block that is still open at the end of the text is closed there; a
closing bracket that closes nothing stays a token. -/

namespace Unnest.Css

/-- A token, or a block with the token that opens it and the place where it ends. -/
inductive Part where
  | token (t : Token) (place : Place)
  | block (opening : Token) (place : Place) (inner : List Part) (stop : Place)

structure Problem where
  fault : Fault
  place : Place

abbrev Reads := Except Problem

def Token.closer? : Token → Option Bracket
  | .opening b => some b
  | .function _ => some .round
  | _ => none

def Token.closerText (t : Token) : String :=
  match t.closer? with
  | some b => (Token.closing b).text
  | none => ""

def Token.closes : Token → Option Bracket → Bool
  | .closing b, some c => b = c
  | _, _ => false

namespace Part

def place : Part → Place
  | .token _ p => p
  | .block _ p _ _ => p

def head : Part → Token
  | .token t _ => t
  | .block t _ _ _ => t

def isBlank (x : Part) : Bool := x.head == .blank

def curly? : Part → Option (List Part × Place)
  | .block (.opening .curly) _ inner stop => some (inner, stop)
  | _ => none

/-- An open block: what stood before it, the token that opens it, and the bracket it waits for. -/
structure Frame where
  before : List Part
  opening : Token
  place : Place
  closer : Bracket

/-- The parts so far, last one first, and the open blocks around them, innermost first. -/
structure Gathering where
  parts : List Part
  frames : List Frame

namespace Gathering

def close (g : Gathering) (stop : Place) : Gathering :=
  match g.frames with
  | [] => g
  | f :: fs => ⟨.block f.opening f.place g.parts.reverse stop :: f.before, fs⟩

def add (g : Gathering) (x : Lexeme) : Gathering :=
  match x.token.closer? with
  | some b => ⟨[], ⟨g.parts, x.token, x.place, b⟩ :: g.frames⟩
  | none =>
    if x.token.closes (g.frames.head?.map (·.closer)) then g.close x.place
    else ⟨.token x.token x.place :: g.parts, g.frames⟩

def closeAll (stop : Place) : List Frame → List Part → List Part
  | [], parts => parts.reverse
  | f :: fs, parts => closeAll stop fs (.block f.opening f.place parts.reverse stop :: f.before)

end Gathering

def gather (stop : Place) (lexemes : List Lexeme) : List Part :=
  let g := lexemes.foldl Gathering.add ⟨[], []⟩
  Gathering.closeAll stop g.frames g.parts

mutual

/-- The part as text, each run of blanks as one space. -/
def text : Part → String
  | .token t _ => t.text
  | .block t _ inner _ => t.text ++ textAll inner ++ t.closerText

def textAll : List Part → String
  | [] => ""
  | x :: xs => x.text ++ textAll xs

end

def dropBlanks (l : List Part) : List Part := l.dropWhile isBlank

def trim (l : List Part) : List Part := (dropBlanks (dropBlanks l).reverse).reverse

/-- The parts between commas, each with the place behind it. -/
def splitCommas (stop : Place) : List Part → List (List Part × Place)
  | [] => [([], stop)]
  | x :: xs =>
    match splitCommas stop xs with
    | [] => []
    | (l, p) :: rest =>
      if x.head = .comma then ([], x.place) :: (l, p) :: rest else (x :: l, p) :: rest

def placeOf (stop : Place) (l : List Part) : Place := (l.head?.map place).getD stop

mutual

/-- How many blocks lie inside each other at most, counted with the part itself. -/
def depth : Part → Nat
  | .token _ _ => 1
  | .block _ _ inner _ => depthAll inner + 1

def depthAll : List Part → Nat
  | [] => 0
  | x :: xs => max x.depth (depthAll xs)

end

end Part

end Unnest.Css
