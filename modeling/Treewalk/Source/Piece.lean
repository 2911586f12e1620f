import Treewalk.Source.Token

/-!
Source text split into pieces. Every character belongs to exactly one piece: a token, a blank, a
comment, a character that can start nothing, or a string that is never closed.
-/

namespace Treewalk

inductive Piece where
  | token (kind : TokenKind) (lexeme : List Char)
  | blank (c : Char)
  | comment (text : List Char)
  | unexpected (c : Char)
  | unterminated (text : List Char)
  deriving DecidableEq, Repr

namespace Piece

def text : Piece → List Char
  | token _ lexeme => lexeme
  | blank c => [c]
  | comment text => text
  | unexpected c => [c]
  | unterminated text => text

def isBlank (c : Char) : Bool :=
  c = ' ' || c = '\r' || c = '\t' || c = '\n'

def isLetter (c : Char) : Bool :=
  c.isAlpha || c = '_'

def isWordChar (c : Char) : Bool :=
  isLetter c || c.isDigit

/-- A word is reserved or an identifier. -/
def ofWord (word : List Char) : Piece :=
  match TokenKind.words.find? (fun entry => entry.1.toList = word) with
  | some (_, kind) => token kind word
  | none => token .identifier word

/-- The digits of a number, with a fraction when a digit follows the point. -/
def splitNumber (cs : List Char) : List Char × List Char :=
  let whole := cs.takeWhile Char.isDigit
  match cs.dropWhile Char.isDigit with
  | '.' :: d :: rest =>
    if d.isDigit then
      (whole ++ '.' :: (d :: rest).takeWhile Char.isDigit, (d :: rest).dropWhile Char.isDigit)
    else (whole, '.' :: d :: rest)
  | rest => (whole, rest)

/-- A string up to its closing quote; the opening quote is already taken. -/
def splitString (cs : List Char) : Piece × List Char :=
  let inside := cs.takeWhile (· ≠ '"')
  match cs.dropWhile (· ≠ '"') with
  | [] => (unterminated ('"' :: inside), [])
  | quote :: rest => (token .string ('"' :: inside ++ [quote]), rest)

/-- The first symbol of the table that the text starts with. -/
def symbol? (cs : List Char) : Option (TokenKind × List Char) :=
  (TokenKind.symbols.find? fun entry => entry.1.toList.isPrefixOf cs).map
    fun entry => (entry.2, entry.1.toList)

/-- The first piece of a text that starts with `c`, and what follows it. -/
def next (c : Char) (rest : List Char) : Piece × List Char :=
  if isBlank c then (blank c, rest)
  else if c = '/' ∧ rest.head? = some '/' then
    (comment (c :: rest.takeWhile (· ≠ '\n')), rest.dropWhile (· ≠ '\n'))
  else if c = '"' then splitString rest
  else if c.isDigit then
    let (number, tail) := splitNumber (c :: rest)
    (token .number number, tail)
  else if isLetter c then
    (ofWord (c :: rest.takeWhile isWordChar), rest.dropWhile isWordChar)
  else match symbol? (c :: rest) with
    | some (kind, lexeme) => (token kind lexeme, (c :: rest).drop lexeme.length)
    | none => (unexpected c, rest)

def split : Nat → List Char → List Piece
  | 0, _ => []
  | _, [] => []
  | fuel + 1, c :: rest =>
    let (piece, tail) := next c rest
    piece :: split fuel tail

end Piece

/-- The pieces of a text. A piece is never empty, so there are no more pieces than characters. -/
def pieces (source : List Char) : List Piece :=
  Piece.split source.length source

end Treewalk
