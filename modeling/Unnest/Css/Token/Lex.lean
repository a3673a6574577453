import Unnest.Css.Token

/-! Style sheet text as tokens. Comments are passed over, and a run of blanks is one token. -/

namespace Unnest.Css

structure Lexeme where
  token : Token
  place : Place

namespace Place

def start : Place := ⟨0, 1⟩

def newLine (p : Place) : Place := ⟨p.line + 1, 1⟩

/-- Characters outside the basic plane take two UTF-16 units. -/
def pastChar (p : Place) (c : Char) : Place :=
  ⟨p.line, p.column + if c.toNat < 0x10000 then 1 else 2⟩

/-- The place behind a text. A carriage return and a line feed together end one line. -/
def past (p : Place) : List Char → Place
  | [] => p
  | '\r' :: '\n' :: l => past p.newLine l
  | c :: l => past (if c = '\n' || c = '\r' || c = '\x0c' then p.newLine else p.pastChar c) l

end Place

def isSpace (c : Char) : Bool :=
  c == ' ' || c == '\t' || c == '\n' || c == '\r' || c == '\x0c'

def startsName (c : Char) : Bool := c.isAlpha || c == '_' || c == '\\' || 0x80 ≤ c.toNat

def continuesName (c : Char) : Bool := startsName c || c.isDigit || c == '-'

def startsIdent : List Char → Bool
  | '-' :: c :: _ => startsName c || c == '-'
  | c :: _ => startsName c
  | [] => false

def startsNumber : List Char → Bool
  | '.' :: d :: _ => d.isDigit
  | s :: '.' :: d :: _ => (s == '+' || s == '-') && d.isDigit || s.isDigit
  | s :: d :: _ => (s == '+' || s == '-') && d.isDigit || s.isDigit
  | c :: _ => c.isDigit
  | [] => false

def comment : List Char → List Char × List Char
  | [] => ([], [])
  | '*' :: '/' :: l => (['*', '/'], l)
  | c :: l =>
    let r := comment l
    (c :: r.1, r.2)

/-- The string text up to the quote `q`, and what follows the quote. A backslash keeps the character
behind it in the string. -/
def stringBody (q : Char) : List Char → List Char × List Char × List Char
  | [] => ([], [], [])
  | '\\' :: c :: l =>
    let r := stringBody q l
    ('\\' :: c :: r.1, '\\' :: c :: r.2.1, r.2.2)
  | c :: l =>
    if c = q then ([], [c], l)
    else
      let r := stringBody q l
      (c :: r.1, c :: r.2.1, r.2.2)

/-- A token read off a text: the token if it is not a comment, its characters, and the rest. -/
structure Reading where
  token : Option Token
  taken : List Char
  rest : List Char

def bracket? : Char → Option Token
  | '(' => some (.opening .round)
  | '[' => some (.opening .square)
  | '\x7b' => some (.opening .curly)
  | ')' => some (.closing .round)
  | ']' => some (.closing .square)
  | '\x7d' => some (.closing .curly)
  | _ => none

def mark? : Char → Option Token
  | ':' => some .colon
  | ';' => some .semicolon
  | ',' => some .comma
  | c => bracket? c

def readName (l : List Char) : Reading :=
  let name := l.takeWhile continuesName
  match l.dropWhile continuesName with
  | '(' :: rest => ⟨some (.function (String.ofList name)), name ++ ['('], rest⟩
  | rest => ⟨some (.ident (String.ofList name)), name, rest⟩

def readNumber (c : Char) (l : List Char) : Reading :=
  let p := fun d : Char => continuesName d || d == '.' || d == '%'
  let taken := c :: l.takeWhile p
  ⟨some (.number (String.ofList taken)), taken, l.dropWhile p⟩

def readMarked (c : Char) (token : String → Token) (l : List Char) : Reading :=
  let name := l.takeWhile continuesName
  ⟨some (token (String.ofList name)), c :: name, l.dropWhile continuesName⟩

def readToken (c : Char) (l : List Char) : Reading :=
  if isSpace c then ⟨some .blank, c :: l.takeWhile isSpace, l.dropWhile isSpace⟩
  else if c = '/' && l.head? == some '*' then
    let r := comment l.tail
    ⟨none, '/' :: '*' :: r.1, r.2⟩
  else if c = '"' || c = '\x27' then
    let r := stringBody c l
    ⟨some (.string (String.ofList r.1)), c :: r.2.1, r.2.2⟩
  else if c = '#' && (l.head?.map continuesName).getD false then readMarked c .hash l
  else if c = '@' && startsIdent l then readMarked c .atKeyword l
  else if startsNumber (c :: l) then readNumber c l
  else if startsIdent (c :: l) then readName (c :: l)
  else
    match mark? c with
    | some t => ⟨some t, [c], l⟩
    | none => ⟨some (.delim c), [c], l⟩

/-- The tokens of a text from place `p` on, at most `bound` readings, and the place behind them. -/
def lexUpTo : Nat → Place → List Char → List Lexeme × Place
  | 0, p, _ => ([], p)
  | _, p, [] => ([], p)
  | bound + 1, p, c :: l =>
    let r := readToken c l
    let rest := lexUpTo bound (p.past r.taken) r.rest
    match r.token with
    | some t => (⟨t, p⟩ :: rest.1, rest.2)
    | none => rest

/-- The tokens of a text, and the place of its end. Every reading takes a character, so their number
is bounded by the length. -/
def lex (text : String) : List Lexeme × Place :=
  lexUpTo text.toList.length .start text.toList

end Unnest.Css
