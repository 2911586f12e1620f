import Std.Time.DateTime.Timestamp
import Treewalk.Command

/-!
The command itself: it reads arguments, files and lines, and writes what the library answers.
-/

namespace Treewalk.Main

def readFailure : IO.Error → String
  | .noFileOrDirectory _ code _ => s!"No such file or directory (os error {code})"
  | .permissionDenied _ code _ => s!"Permission denied (os error {code})"
  | .inappropriateType _ code _ => s!"Is a directory (os error {code})"
  | .unsatisfiedConstraints code details => s!"{details} (os error {code})"
  | .userError _ => "stream did not contain valid UTF-8"
  | e => toString e

def contentOf (path : String) : IO (Except String String) := do
  try
    return .ok (← IO.FS.readFile path)
  catch e =>
    return .error (readFailure e)

def emit (out err : String) : IO Unit := do
  let stdout ← IO.getStdout
  stdout.putStr out
  stdout.flush
  (← IO.getStderr).putStr err

/-- Writes what a session has printed and goes on without it. -/
def flushSession (s : Session) : IO Session := do
  emit s.machine.out s.machine.err
  return { s with machine := s.machine.silent }

/-- Runs lines until the input ends. -/
partial def converse (input : IO.FS.Stream) (s : Session) : IO Unit := do
  let text ← input.getLine
  match Command.lines text with
  | [] => return
  | line :: _ => converse input (← flushSession (Command.answerLine ampleFuel s line))

def finish (r : Command.Result) : IO UInt32 := do
  emit r.out r.err
  return r.exit.toUInt32

end Treewalk.Main

open Treewalk Treewalk.Main in
def main (args : List String) : IO UInt32 := do
  let start := (← Std.Time.Timestamp.now).toMillisecondsSinceUnixEpoch.val
  -- A program that waits for a moment gets there.
  let clock : Clock := { shows := fun readings => start + readings }
  match Command.parse args with
  | .dialogue =>
    let s ← flushSession (Command.prompt (Session.start clock))
    converse (← IO.getStdin) s
    return 0
  | .script path => finish (Command.runScript ampleFuel clock path (← contentOf path))
  | _ => finish (Command.run ampleFuel clock (fun _ => .error "") "" args)
