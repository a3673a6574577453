/-! The tokens of style sheet text, and places in it. -/

namespace Unnest.Css

/-- Lines are counted from 0, columns from 1 in UTF-16 units. -/
structure Place where
  line : Nat
  column : Nat
deriving DecidableEq

inductive Bracket where
  | round
  | square
  | curly
deriving DecidableEq

/-- A function is an identifier together with the parenthesis behind it. -/
inductive Token where
  | ident (name : String)
  | function (name : String)
  | atKeyword (name : String)
  | hash (name : String)
  | string (body : String)
  | number (text : String)
  | delim (c : Char)
  | colon
  | semicolon
  | comma
  | blank
  | opening (b : Bracket)
  | closing (b : Bracket)
deriving DecidableEq

def Bracket.name : Bracket → String
  | .round => "Parenthesis"
  | .square => "SquareBracket"
  | .curly => "CurlyBracket"

def quoted (s : String) : String := "\"" ++ s ++ "\""

/-- How a message names a token. -/
def Token.describe : Token → String
  | .ident n => "Ident(" ++ quoted n ++ ")"
  | .function n => "Function(" ++ quoted n ++ ")"
  | .atKeyword n => "AtKeyword(" ++ quoted n ++ ")"
  | .hash n => "IDHash(" ++ quoted n ++ ")"
  | .string b => "QuotedString(" ++ quoted b ++ ")"
  | .number t => "Number(" ++ quoted t ++ ")"
  | .delim c => "Delim(\x27" ++ c.toString ++ "\x27)"
  | .colon => "Colon"
  | .semicolon => "Semicolon"
  | .comma => "Comma"
  | .blank => "WhiteSpace(" ++ quoted " " ++ ")"
  | .opening b => b.name ++ "Block"
  | .closing b => "Close" ++ b.name

def Token.text : Token → String
  | .ident n => n
  | .function n => n ++ "("
  | .atKeyword n => "@" ++ n
  | .hash n => "#" ++ n
  | .string b => quoted b
  | .number t => t
  | .delim c => c.toString
  | .colon => ":"
  | .semicolon => ";"
  | .comma => ","
  | .blank => " "
  | .opening .round => "("
  | .opening .square => "["
  | .opening .curly => "\x7b"
  | .closing .round => ")"
  | .closing .square => "]"
  | .closing .curly => "\x7d"

end Unnest.Css
