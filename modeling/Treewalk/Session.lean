import Treewalk.Eval.Stmt
import Treewalk.Grammar.Statement
import Treewalk.Scoping.Numbering
import Treewalk.Scoping.Resolver

/-!
Programs from text to run, and sessions in which one text is run after another. A text with a static
error is reported and nothing of it is run.
-/

namespace Treewalk

/-- Why a text is not a program. Only the first stage that finds errors reports them. -/
inductive Rejection where
  | scan (errors : List ScanError)
  | parse (errors : List Grammar.ParseError)
  | scope (errors : List Scoping.ScopeError)
  deriving Repr

def Rejection.texts : Rejection → List String
  | scan errors => errors.map ScanError.text
  | parse errors => errors.map Grammar.ParseError.text
  | scope errors => errors.map Scoping.ScopeError.text

def objectClass : Class :=
  {
    name := "Object"
    superclass := none
    methods := NameMap.empty.insert "toString" ⟨0⟩
    fields := .empty
    scope := .globals
    templates := []
    interfaces := []
  }

def nativeGlobals : List (String × Native) :=
  [("clock", .clock), ("print", .print), ("println", .println), ("error", .error)]

/-- The bindings of the global scope before a program runs, none of which can be assigned. -/
def initialGlobals : NameMap Cell :=
  let constant (value : Value) : Cell :=
    { content := .plain value, modifiers := { const := true } }
  (nativeGlobals.zipIdx 1).foldl
    (fun names ((name, _), i) => names.insert name (constant (.function ⟨i⟩)))
    (NameMap.empty.insert "Object" (constant (.cls .objectClass)))

def initialHeap : Heap :=
  {
    scopes := #[{ names := initialGlobals }]
    functions := (Function.ofNative "toString" .objectText ::
      nativeGlobals.map fun (name, native) => .ofNative name native).toArray
    classes := #[objectClass]
  }

def Function.relabel (f : Reference → Reference) (g : Function) : Function :=
  match g.body with
  | .user body closure => { g with body := .user (Stmt.relabelAll f body) closure }
  | _ => g

def Heap.relabel (f : Reference → Reference) (h : Heap) : Heap :=
  { h with functions := h.functions.map (Function.relabel f) }

namespace Machine

def relabel (f : Reference → Reference) (m : Machine) : Machine :=
  { m with heap := m.heap.relabel f }

def initial (echo : Bool) (clock : Clock) : Machine :=
  { heap := initialHeap, scope := .globals, echo := echo, clock := clock }

def silent (m : Machine) : Machine :=
  { m with out := "", err := "", warnings := #[] }

inductive Ending where
  | value (value : Value)
  | signal (signal : Signal)
  | failed (e : RuntimeError)
  /-- The statement never comes to its end. -/
  | exhausted
  deriving Repr

def Ending.ofStop : Stop → Ending
  | .fault e => .failed e
  | .crash | .outOfFuel => .exhausted

/-- Runs a top-level statement. An expression ends with its value. -/
def execute (fuel : Nat) (s : Stmt) (m : Machine) : Ending × Machine :=
  match s with
  | .expr e =>
    match perform fuel (.expr e) m with
    | .ok value after => (.value value, after)
    | .error stop after => (.ofStop stop, after)
  | _ =>
    match perform fuel (.stmt s) m with
    | .ok signal after => (.signal signal, after)
    | .error stop after => (.ofStop stop, after)

/-- Runs a program up to its first fault. -/
def interpret (fuel : Nat) : List Stmt → Machine → Option Stop × Machine
  | [], m => (none, m)
  | s :: rest, m =>
    match perform fuel (.stmt s) m with
    | .ok _ after => interpret fuel rest after
    | .error stop after => (some stop, after)

/-- The value of a global, if it has one; a getter is run, and may print. -/
def global (fuel : Nat) (name : String) (m : Machine) : Option Value × Machine :=
  match m.heap.here? .globals name with
  | none => (none, m)
  | some cell =>
    match (Evaluator.readCell cell 0 m).outcome (perform fuel) with
    | .ok value after => (some value, after)
    | .error _ after => (none, after)

end Machine

/-- More fuel than any run uses up. -/
def ampleFuel : Nat := 1000000000000000000

/-- A machine that lives from one text to the next, with the distances of the references of all texts, and whether
any of them failed. -/
structure Session where
  machine : Machine
  /-- The id of the next reference. -/
  nextId : Nat := 0
  locals : Scoping.Locals := []
  hadError : Bool := false
  hadRuntimeError : Bool := false

namespace Session

def start (clock : Clock) : Session :=
  { machine := .initial true clock }

def print (text : String) (s : Session) : Session :=
  { s with machine := { s.machine with out := s.machine.out ++ text } }

def complain (texts : List String) (s : Session) : Session :=
  let lines := texts.foldl (fun lines text => lines ++ text ++ "\n") ""
  { s with machine := { s.machine with err := s.machine.err ++ lines } }

/-- Numbers the references of a program and resolves them. Distances are written into the table even if there is a
mistake. -/
def resolve (program : List Stmt) (s : Session) : Except Rejection (List Stmt) × Session :=
  let (numbered, nextId) := Scoping.numberStmts program s.nextId
  let (errors, after) := Scoping.record numbered { locals := s.locals }
  let s := { s with nextId := nextId, locals := after.locals }
  (if errors.isEmpty then .ok numbered else .error (.scope errors), s)

/-- Reads a text. Where the grammar gives up it has used up no more ids than there are tokens. -/
def load (source : String) (s : Session) : Except Rejection (List Stmt) × Session :=
  match scan source with
  | .error errors => (.error (.scan errors), s)
  | .ok tokens =>
    match parse tokens with
    | .error errors => (.error (.parse errors), { s with nextId := s.nextId + tokens.tokens.length })
    | .ok program => s.resolve program

/-- Runs a program on the machine. References find their distances in the table, those of functions that were made
before as well as those of the program; no run changes it. -/
def interpret (fuel : Nat) (program : List Stmt) (s : Session) : Option Stop × Machine :=
  (s.machine.relabel (.link s.locals)).interpret fuel (program.map (Stmt.relabel (.link s.locals)))

/-- The session after a program has been run. A fault is reported and remembered. -/
def finish (s : Session) : Option Stop × Machine → Session
  | (some (.fault e), after) => { complain [e.text] { s with machine := after } with hadRuntimeError := true }
  | (_, after) => { s with machine := after }

/-- Runs what has been read. Errors are reported and remembered. -/
def runLoaded (fuel : Nat) : Except Rejection (List Stmt) × Session → Session
  | (.error rejection, s) => { s.complain rejection.texts with hadError := true }
  | (.ok program, s) => s.finish (s.interpret fuel program)

def run (fuel : Nat) (source : String) (s : Session) : Session :=
  runLoaded fuel (s.load source)

/-- Runs a program fresh from the grammar. -/
def runProgram (fuel : Nat) (program : List Stmt) (s : Session) : Session :=
  runLoaded fuel (s.resolve program)

/-- Runs a line of a dialogue, after which its errors are forgotten. -/
def runLine (fuel : Nat) (line : String) (s : Session) : Session :=
  { s.run fuel line with hadError := false, hadRuntimeError := false }

end Session

end Treewalk
