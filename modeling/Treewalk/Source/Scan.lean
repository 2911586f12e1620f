import Treewalk.Source.Piece

/-!
The tokens of a source text. A token carries the line on which its last character stands; a mistake is
reported on the line on which its piece starts. One mistake is enough to withhold the tokens, but all
mistakes are reported.
-/

namespace Treewalk

/-- The tokens of a text, and the line on which the text ends. -/
structure Tokens where
  tokens : List Token
  endLine : Line
  deriving DecidableEq, Repr

inductive ScanMistake where
  | unexpected (c : Char)
  | unterminated
  deriving DecidableEq, Repr

structure ScanError where
  mistake : ScanMistake
  line : Line
  deriving DecidableEq, Repr

def ScanMistake.message : ScanMistake → String
  | unexpected c => s!"Unexpected character '{c}'."
  | unterminated => "Unterminated string."

def ScanError.text (e : ScanError) : String :=
  s!"[line {e.line}] Error: {e.mistake.message}"

def tokensFrom (line : Line) : List Piece → List Token
  | [] => []
  | piece :: rest =>
    let after := line.past piece.text
    match piece with
    | .token kind lexeme => ⟨kind, String.ofList lexeme, after⟩ :: tokensFrom after rest
    | _ => tokensFrom after rest

def mistakesFrom (line : Line) : List Piece → List ScanError
  | [] => []
  | piece :: rest =>
    let after := line.past piece.text
    match piece with
    | .unexpected c => ⟨.unexpected c, line⟩ :: mistakesFrom after rest
    | .unterminated _ => ⟨.unterminated, line⟩ :: mistakesFrom after rest
    | _ => mistakesFrom after rest

def scan (source : String) : Except (List ScanError) Tokens :=
  let cs := source.toList
  match mistakesFrom 1 (pieces cs) with
  | [] => .ok ⟨tokensFrom 1 (pieces cs), Line.past 1 cs⟩
  | mistakes => .error mistakes

end Treewalk
