import Treewalk.Source.Scan

/-!
Parsers over a list of tokens. A parser may give up, but the mistakes it has recorded stay: a later part
of the text can then be checked too.
-/

namespace Treewalk.Grammar

inductive Mistake where
  | expected (what : String)
  | tooMany (what : String)
  | invalidTarget
  | accessorDefined
  | getterMissing
  | defaultDefined
  deriving DecidableEq, Repr

def Mistake.message : Mistake → String
  | expected what => s!"Expect {what}."
  | tooMany what => s!"Can't have more than 255 {what}."
  | invalidTarget => "Invalid assignment target."
  | accessorDefined => "Accessor is already defined."
  | getterMissing => "Property must define a getter."
  | defaultDefined => "Switch already has a default branch."

inductive Place where
  | at (name : Name)
  | atEnd (line : Line)
  deriving DecidableEq, Repr

structure ParseError where
  mistake : Mistake
  place : Place
  deriving DecidableEq, Repr

def ParseError.text (e : ParseError) : String :=
  match e.place with
  | .at name => s!"[line {name.line}] Error at '{name.text}': {e.mistake.message}"
  | .atEnd line => s!"[line {line}] Error at end: {e.mistake.message}"

/-- The tokens still to be read, and the mistakes found so far in their order. -/
structure State where
  rest : List Token
  endLine : Line
  errors : List ParseError := []
  deriving DecidableEq, Repr

def State.place (s : State) : Place :=
  match s.rest with
  | [] => .atEnd s.endLine
  | t :: _ => .at t.name

def State.record (s : State) (place : Place) (mistake : Mistake) : State :=
  { s with errors := s.errors ++ [⟨mistake, place⟩] }

def Parser (α : Type) : Type :=
  State → Option α × State

namespace Parser

def bind (p : Parser α) (f : α → Parser β) : Parser β := fun s =>
  match p s with
  | (some a, after) => f a after
  | (none, after) => (none, after)

instance : Monad Parser where
  pure a := fun s => (some a, s)
  bind := bind

theorem bind_apply (p : Parser α) (f : α → Parser β) (s : State) :
    (p >>= f) s = match p s with
      | (some a, after) => f a after
      | (none, after) => (none, after) := rfl

def giveUp : Parser α := fun s =>
  (none, s)

def peek : Parser (Option Token) := fun s =>
  (some s.rest.head?, s)

def peekKind : Parser (Option TokenKind) := fun s =>
  (some (s.rest.head?.map Token.kind), s)

def peekTwo : Parser (Option TokenKind × Option TokenKind) := fun s =>
  (some (s.rest.head?.map Token.kind, (s.rest.drop 1).head?.map Token.kind), s)

def skip : Parser Unit := fun s =>
  (some (), { s with rest := s.rest.drop 1 })

/-- Takes the next token if its kind is among those that `select` knows. -/
def acceptMap (select : TokenKind → Option α) : Parser (Option (α × Token)) := fun s =>
  match s.rest with
  | [] => (some none, s)
  | t :: rest =>
    match select t.kind with
    | some a => (some (some (a, t)), { s with rest := rest })
    | none => (some none, s)

def accept (kind : TokenKind) : Parser (Option Token) := fun s =>
  match s.rest with
  | [] => (some none, s)
  | t :: rest => if t.kind = kind then (some (some t), { s with rest := rest }) else (some none, s)

def accepts (kind : TokenKind) : Parser Bool := do
  return (← accept kind).isSome

def report (mistake : Mistake) : Parser Unit := fun s =>
  (some (), s.record s.place mistake)

def reportIf (wrong : Bool) (mistake : Mistake) : Parser Unit :=
  if wrong then report mistake else pure ()

def reportAt (name : Name) (mistake : Mistake) : Parser Unit := fun s =>
  (some (), s.record (.at name) mistake)

def fail (mistake : Mistake) : Parser α := fun s =>
  (none, s.record s.place mistake)

def require (kind : TokenKind) (what : String) : Parser Token := do
  match ← accept kind with
  | some t => return t
  | none => fail (.expected what)

def optional (kind : TokenKind) (p : Parser α) : Parser (Option α) := do
  if ← accepts kind then
    return some (← p)
  else
    return none

/-- What follows, unless a token of the given kind comes next, which stays where it is. -/
def unlessNext (kind : TokenKind) (otherwise : α) (p : Parser α) : Parser α := do
  if (← peekKind) = some kind then
    return otherwise
  else
    p

/-- A bound for a loop that takes a token each time round. The tokens still to be read serve as its
marks, with one more for the last time round. -/
abbrev Budget : Type :=
  List Token

def budget : Parser Budget := fun s =>
  (some (default :: s.rest), s)

def commaSeparated (item : Parser α) : Budget → Parser (List α)
  | [] => giveUp
  | _ :: fuel => do
    let first ← item
    if ← accepts .comma then
      return first :: (← commaSeparated item fuel)
    else
      return [first]

/-- Items up to a closing brace or the end of the text. -/
def untilBrace (item : Parser α) : Budget → Parser (List α)
  | [] => giveUp
  | _ :: fuel => do
    match ← peekKind with
    | none | some .rightBrace => return []
    | _ =>
      let first ← item
      return first :: (← untilBrace item fuel)

/-- One or more items with commas between them, of which there may be at most 255; the items beyond
that are read and reported. -/
def commaSeparatedLimited (item : Parser α) (what : String) (count : Nat) : Budget → Parser (List α)
  | [] => giveUp
  | _ :: fuel => do
    reportIf (255 ≤ count) (.tooMany what)
    let first ← item
    if ← accepts .comma then
      return first :: (← commaSeparatedLimited item what (count + 1) fuel)
    else
      return [first]

end Parser

end Treewalk.Grammar
