import Treewalk.Number.Text
import Treewalk.Source.Line

/-!
Tokens: what a piece of source text stands for, the text itself and the line on which it ends.
-/

namespace Treewalk

inductive TokenKind where
  | leftParen | rightParen | leftBrace | rightBrace | leftBracket | rightBracket
  | comma | dot | semicolon | colon | question
  | minus | minusEqual | minusMinus | plus | plusEqual | plusPlus
  | slash | slashEqual | star | starEqual | starStarEqual
  | bang | bangEqual | equal | equalEqual
  | greater | greaterEqual | less | lessEqual
  | arrow | leftArrow | colonColon | questionDot | questionQuestion | questionEqual
  | identifier | string | number
  | kwAnd | kwAs | kwBreak | kwCase | kwCast | kwCatch | kwClass | kwConst | kwContinue | kwDefault
  | kwElse | kwEnum | kwExpect | kwFalse | kwFinally | kwFor | kwFun | kwIf | kwInterface | kwLength
  | kwMethod | kwModule | kwNil | kwOperator | kwOr | kwReturn | kwStatic | kwSuper | kwSwitch | kwTest
  | kwThis | kwTrue | kwTry | kwTypeof | kwUnsigned | kwValue | kwVar | kwWhen | kwWhile
  | typeNum | typeString | typeBool | typeVoid | typeAny | typeType | typeByte | typeObj
  deriving DecidableEq, Repr, Inhabited

/-- The fixed symbols. Where one symbol starts another, the longer one stands first. -/
def TokenKind.symbols : List (String × TokenKind) :=
  [("**=", .starStarEqual),
    ("::", .colonColon), ("?.", .questionDot), ("??", .questionQuestion), ("?=", .questionEqual),
    ("--", .minusMinus), ("-=", .minusEqual), ("->", .arrow), ("++", .plusPlus), ("+=", .plusEqual),
    ("*=", .starEqual), ("/=", .slashEqual), ("!=", .bangEqual), ("==", .equalEqual),
    ("<=", .lessEqual), ("<-", .leftArrow), (">=", .greaterEqual),
    ("(", .leftParen), (")", .rightParen), ("\x7b", .leftBrace), ("\x7d", .rightBrace),
    ("[", .leftBracket), ("]", .rightBracket), (",", .comma), (".", .dot), (";", .semicolon),
    (":", .colon), ("?", .question), ("-", .minus), ("+", .plus), ("*", .star), ("/", .slash),
    ("!", .bang), ("=", .equal), ("<", .less), (">", .greater)]

def TokenKind.words : List (String × TokenKind) :=
  [("and", .kwAnd), ("as", .kwAs), ("break", .kwBreak), ("case", .kwCase), ("cast", .kwCast),
    ("catch", .kwCatch), ("class", .kwClass), ("const", .kwConst), ("continue", .kwContinue),
    ("default", .kwDefault), ("else", .kwElse), ("enum", .kwEnum), ("expect", .kwExpect),
    ("false", .kwFalse), ("finally", .kwFinally), ("for", .kwFor), ("fun", .kwFun), ("if", .kwIf),
    ("interface", .kwInterface), ("length", .kwLength), ("method", .kwMethod),
    ("module", .kwModule), ("nil", .kwNil), ("operator", .kwOperator), ("or", .kwOr),
    ("return", .kwReturn), ("static", .kwStatic), ("super", .kwSuper), ("switch", .kwSwitch),
    ("test", .kwTest), ("this", .kwThis), ("true", .kwTrue), ("try", .kwTry),
    ("typeof", .kwTypeof), ("unsigned", .kwUnsigned), ("value", .kwValue), ("var", .kwVar),
    ("when", .kwWhen), ("while", .kwWhile), ("num", .typeNum), ("string", .typeString),
    ("bool", .typeBool), ("void", .typeVoid), ("any", .typeAny), ("type", .typeType),
    ("byte", .typeByte), ("obj", .typeObj)]

/-- Whether a type annotation may start with a token of this kind. -/
def TokenKind.isTypeName : TokenKind → Bool
  | .typeNum | .typeString | .typeBool | .typeVoid | .typeAny | .typeType | .typeByte | .typeObj => true
  | _ => false

inductive Literal where
  | nil
  | bool (b : Bool)
  | num (n : Float)
  | str (s : String)
  deriving Repr, Inhabited

structure Token where
  kind : TokenKind
  lexeme : String
  line : Line
  deriving DecidableEq, Repr, Inhabited

/-- The literal that a number or string token stands for. A string stands for what its quotes enclose. -/
def Token.literal? (t : Token) : Option Literal :=
  match t.kind with
  | .number => (Number.read? t.lexeme).map .num
  | .string => some (.str (String.ofList (t.lexeme.toList.drop 1).dropLast))
  | _ => none

structure Name where
  text : String
  line : Line
  deriving DecidableEq, Repr, Inhabited

def Token.name (t : Token) : Name :=
  ⟨t.lexeme, t.line⟩

end Treewalk
