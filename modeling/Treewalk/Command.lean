import Treewalk.Session

/-!
The command line: what its arguments ask for, and what the command prints and answers. Without a script
it starts a dialogue, which runs every line of its input.
-/

namespace Treewalk

inductive Command where
  | script (path : String)
  | dialogue
  | version
  | help
  | misused
  deriving DecidableEq, Repr

namespace Command

def logLevels : List String :=
  ["error", "warn", "info", "debug", "trace"]

structure Options where
  path : Option String := none
  logLevel : Option String := none

def Options.command (o : Options) : Command :=
  match o.path with
  | some path => .script path
  | none => .dialogue

/-- The script is named at most once, and not by nothing. -/
def Options.addPath (o : Options) (path : String) : Option Options :=
  if o.path.isSome || path.isEmpty then none else some { o with path := some path }

/-- A level is given at most once. -/
def Options.addLevel (o : Options) (level : String) : Option Options :=
  if o.logLevel.isSome || !logLevels.contains level then none
  else some { o with logLevel := some level }

/-- Arguments after a double dash, which all name scripts. -/
def parsePaths (o : Options) : List String → Command
  | [] => o.command
  | path :: rest =>
    match o.addPath path with
    | some o => parsePaths o rest
    | none => .misused

/-- The level after an equals sign. -/
def levelIn? (arg : String) : Option String :=
  let start := "--log-level=".toList
  if start.isPrefixOf arg.toList then some (String.ofList (arg.toList.drop start.length)) else none

def parseFrom (o : Options) : List String → Command
  | [] => o.command
  | "--" :: rest => parsePaths o rest
  | "--version" :: _ => .version
  | "--help" :: _ => .help
  | ["--log-level"] => .misused
  | "--log-level" :: level :: rest =>
    match o.addLevel level with
    | some o => parseFrom o rest
    | none => .misused
  | arg :: rest =>
    match levelIn? arg with
    | some level =>
      match o.addLevel level with
      | some o => parseFrom o rest
      | none => .misused
    | none =>
      match arg.toList with
      | '-' :: 'V' :: _ => .version
      | '-' :: 'h' :: _ => .help
      | '-' :: _ :: _ => .misused
      | _ =>
        match o.addPath arg with
        | some o => parseFrom o rest
        | none => .misused

def parse (args : List String) : Command :=
  parseFrom {} args

structure Result where
  exit : Nat
  out : String := ""
  err : String := ""

def versionText : String := "tlox 0.1.0\n"

def usageText : String := "Usage: tlox [script]\n"

def promptText : String := "> "

def runScript (fuel : Nat) (clock : Clock) (path : String) (content : Except String String) : Result :=
  match content with
  | .error reason => { exit := 1, err := s!"Error: could not read {path}: {reason}\n" }
  | .ok source =>
    let s := (Session.start clock).run fuel source
    {
      exit := if s.hadError then 65 else if s.hadRuntimeError then 70 else 0
      out := s.machine.out
      err := s.machine.err
    }

/-- The lines of a text. A line ends with a newline, before which a carriage return is dropped; the last
line need not end. -/
def linesFrom (line : List Char) : List Char → List (List Char)
  | [] => if line.isEmpty then [] else [line.reverse]
  | '\n' :: rest =>
    let ended := match line with
      | '\r' :: before => before
      | _ => line
    ended.reverse :: linesFrom [] rest
  | c :: rest => linesFrom (c :: line) rest

def lines (text : String) : List String :=
  (linesFrom [] text.toList).map String.ofList

def prompt (s : Session) : Session :=
  s.print promptText

def answerLine (fuel : Nat) (s : Session) (line : String) : Session :=
  prompt (s.runLine fuel line)

def runDialogue (fuel : Nat) (clock : Clock) (input : String) : Result :=
  let s := (lines input).foldl (answerLine fuel) (prompt (Session.start clock))
  { exit := 0, out := s.machine.out, err := s.machine.err }

/-- Runs the command with a way to read files and the text of its standard input. -/
def run (fuel : Nat) (clock : Clock) (contentOf : String → Except String String) (input : String)
    (args : List String) : Result :=
  match parse args with
  | .script path => runScript fuel clock path (contentOf path)
  | .dialogue => runDialogue fuel clock input
  | .version => { exit := 0, out := versionText }
  | .help => { exit := 0, out := usageText }
  | .misused => { exit := 64, err := usageText }

end Command

end Treewalk
