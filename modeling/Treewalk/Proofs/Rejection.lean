import Treewalk.Proofs.Sessions
import Treewalk.Proofs.Settled

/-!
Texts that are rejected. No statement of such a text is run, but it leaves more behind than its report: ids have been
given out, and the resolver may have written distances into the table before it came upon a mistake. The references of
all other texts have other ids, and whatever is run later goes on as if the text had never been there. Later texts get
other ids than they would have had, which no program can tell; and the machine does not read its error text, so that
two machines which differ in it alone run side by side.
-/

namespace Treewalk

open Scoping Tie

/-- Two machines that differ in their error texts only. To what these begin with, the same has been added. -/
def Machine.Apart (texts : String × String) (m n : Machine) : Prop :=
  ∃ added, m.err = texts.1 ++ added ∧ n = { m with err := texts.2 ++ added }

/-- Two machines that differ in their error texts and in the ids of references only. -/
def Machine.Twins (texts : String × String) (m n : Machine) : Prop :=
  (m.relabel .unnumbered).Apart texts (n.relabel .unnumbered)

def Session.runAll (fuel : Nat) (sources : List String) (s : Session) : Session :=
  sources.foldl (fun s source => s.run fuel source) s

/-- Two machines at rest that are apart. -/
structure Machine.Abreast (texts : String × String) (m n : Machine) : Prop where
  rests : m.Rests
  apart : m.Apart texts n

variable {texts : String × String} {m n : Machine} {h : Heap}

theorem Machine.Apart.out (apart : m.Apart texts n) : n.out = m.out := by
  obtain ⟨added, -, rfl⟩ := apart
  rfl

/-- What two outcomes on such machines have in common. -/
inductive Outcome.Abreast (texts : String × String) : Outcome α → Outcome α → Prop where
  | ok {m n : Machine} (a : α) (abreast : m.Abreast texts n) : Abreast texts (.ok a m) (.ok a n)
  | error {m n : Machine} (reason : Stop) (abreast : m.Abreast texts n) :
      Abreast texts (.error reason m) (.error reason n)

theorem Tie.Holds.apart {S : Array Scope} {err : String} (held : (plain texts).Holds m S err) :
    m.Apart texts (m.beside S err) := by
  obtain ⟨added, first, rfl⟩ := held.err
  refine ⟨added, first, ?_⟩
  rw [held.scopes_eq]
  rfl

theorem Tie.Agree.abreast {outcome outcome' : Outcome α}
    (agree : (plain texts).Agree h .globals Same outcome outcome') : Outcome.Abreast texts outcome outcome' := by
  have rests := agree.rests
  cases agree with
  | ok held _ _ same =>
    cases same
    exact .ok _ ⟨rests, held.apart⟩
  | error reason held => exact .error reason ⟨rests, held.apart⟩
  | first ahead => cases ahead
  | second ahead => cases ahead

namespace Machine.Abreast

theorem complain (abreast : m.Abreast texts n) (line : String) :
    Machine.Abreast texts { m with err := m.err ++ line } { n with err := n.err ++ line } := by
  obtain ⟨added, first, rfl⟩ := abreast.apart
  refine ⟨⟨⟨abreast.rests.settled.guarded, abreast.rests.settled.scope⟩, abreast.rests.scope⟩, added ++ line, ?_, ?_⟩
  · rw [first, String.append_assoc]
  · rw [String.append_assoc]

theorem outcome {c : Run α} (abreast : m.Abreast texts n)
    (matched : (plain texts).Matches m.heap m.scope Same c c) (fuel : Nat) :
    Outcome.Abreast texts ((c m).outcome (perform fuel)) ((c n).outcome (perform fuel)) := by
  obtain ⟨added, first, rfl⟩ := abreast.apart
  have held : (plain texts).Holds m m.heap.scopes (texts.2 ++ added) :=
    abreast.rests.settled.holds ⟨added, first, rfl⟩
  have plans := matched m _ _ held (.refl _) rfl
  rw [abreast.rests.scope] at plans
  exact (plans.outcome (Tie.synchronous _ fuel)).abreast

theorem stmt (abreast : m.Abreast texts n) (fuel : Nat) (s : Stmt) :
    Outcome.Abreast texts (perform fuel (.stmt s) m) (perform fuel (.stmt s) n) :=
  abreast.outcome (.exec abreast.rests.seated (Paired.freeStmt s)) fuel

theorem interpret (abreast : m.Abreast texts n) (fuel : Nat) (program : List Stmt) :
    (n.interpret fuel program).1 = (m.interpret fuel program).1 ∧
      (m.interpret fuel program).2.Abreast texts (n.interpret fuel program).2 := by
  induction program generalizing m n with
  | nil => exact ⟨rfl, abreast⟩
  | cons s rest ih =>
    have first := abreast.stmt fuel s
    unfold Machine.interpret
    generalize perform fuel (.stmt s) m = outcome at first
    generalize perform fuel (.stmt s) n = outcome' at first
    cases first with
    | ok signal abreast => exact ih abreast
    | error reason abreast => exact ⟨rfl, abreast⟩

theorem global (abreast : m.Abreast texts n) (fuel : Nat) (name : String) :
    (n.global fuel name).1 = (m.global fuel name).1 ∧ (m.global fuel name).2.Apart texts (n.global fuel name).2 := by
  have bound : n.heap.here? .globals name = m.heap.here? .globals name := by
    obtain ⟨added, -, rfl⟩ := abreast.apart
    rfl
  unfold Machine.global
  rw [bound]
  cases m.heap.here? .globals name with
  | none => exact ⟨rfl, abreast.apart⟩
  | some cell =>
    have read := abreast.outcome (Evaluator.readCell_matches cell 0) fuel
    dsimp only
    generalize (Evaluator.readCell cell 0 m).outcome (perform fuel) = outcome at read
    generalize (Evaluator.readCell cell 0 n).outcome (perform fuel) = outcome' at read
    cases read with
    | ok value abreast => exact ⟨rfl, abreast.apart⟩
    | error reason abreast => exact ⟨rfl, abreast.apart⟩

end Machine.Abreast

theorem Machine.Twins.out (twins : m.Twins texts n) : n.out = m.out :=
  Apart.out (m := m.relabel .unnumbered) (n := n.relabel .unnumbered) twins

/-- The scopes of a machine do not depend on what is written in its functions. -/
theorem Machine.Rests.relabel (rests : m.Rests) (f : Reference → Reference) : (m.relabel f).Rests := by
  have guarded := rests.settled.guarded
  have same : m.heap.Extends (m.heap.relabel f) := .of_scopes rfl
  refine ⟨⟨⟨guarded.globals.mono same, guarded.outermost, guarded.older, guarded.own, fun g body closure user => ?_,
    fun c => (guarded.classes c).mono same, fun o s member => (guarded.objects o s member).mono same⟩,
    rests.settled.scope⟩, rests.scope⟩
  change ((m.heap.relabel f).function g).body = _ at user
  rw [Heap.relabel_function] at user
  cases body' : (m.heap.function g).body with
  | user original home =>
    rw [Function.relabel_user f _ body'] at user
    cases user
    exact (guarded.functions g _ _ body').mono same
  | native | missing =>
    rw [Function.relabel_other f _ (by simp [body'])] at user
    exact (guarded.functions g _ _ user).mono same

namespace Session

/-- Two sessions in which the same has happened but for the error text and the ids of references. -/
structure Abreast (texts : String × String) (s t : Session) : Prop where
  machines : (s.machine.relabel .unnumbered).Abreast texts (t.machine.relabel .unnumbered)
  failed : t.hadRuntimeError = s.hadRuntimeError

variable {H H' : List Event} {s t : Session}

theorem Abreast.finish {ended ended' : Option Stop × Machine} (failed : t.hadRuntimeError = s.hadRuntimeError)
    (same : ended'.1 = ended.1)
    (machines : (ended.2.relabel .unnumbered).Abreast texts (ended'.2.relabel .unnumbered)) :
    Abreast texts (s.finish ended) (t.finish ended') := by
  obtain ⟨reason, m⟩ := ended
  obtain ⟨reason', n⟩ := ended'
  cases same
  rcases reason with _ | (e | _ | _)
  · exact ⟨machines, failed⟩
  · exact ⟨machines.complain _, rfl⟩
  · exact ⟨machines, failed⟩
  · exact ⟨machines, failed⟩

theorem Abreast.run (abreast : Abreast texts s t) (coherent : s.Coherent H) (coherent' : t.Coherent H') (fuel : Nat)
    (source : String) : Abreast texts (s.run fuel source) (t.run fuel source) := by
  unfold Session.run
  have loads := s.load_loads source
  have loads' := t.load_loads source
  generalize s.load source = result at loads
  generalize t.load source = result' at loads'
  generalize Treewalk.load source = verdict at loads loads'
  cases loads with
  | rejected rejection =>
    cases loads' with
    | rejected => exact ⟨abreast.machines.complain _, abreast.failed⟩
  | accepted numbered linked le between alike links =>
    cases loads' with
    | accepted numbered' linked' le' between' alike' links' =>
      rw [runLoaded, runLoaded, coherent.interpret le between links, coherent'.interpret le' between' links']
      obtain ⟨same, machines⟩ := abreast.machines.interpret fuel (linked.map (Stmt.relabel .unnumbered))
      have run := Machine.interpret_relabel (f := .unnumbered) (fun _ => rfl) (fun _ => rfl) fuel
      have first := run linked s.machine
      have second := run linked' t.machine
      rw [alike', ← alike] at second
      rw [first, second] at same machines
      exact .finish abreast.failed same machines

theorem Abreast.runAll (abreast : Abreast texts s t) (reached : Reached H s) (reached' : Reached H' t) (fuel : Nat)
    (sources : List String) : Abreast texts (s.runAll fuel sources) (t.runAll fuel sources) := by
  induction sources generalizing s t H H' with
  | nil => exact abreast
  | cons source rest ih =>
    exact ih (abreast.run reached.coherent reached'.coherent fuel source) (.run reached fuel source)
      (.run reached' fuel source)

theorem Abreast.global (abreast : Abreast texts s t) (fuel : Nat) (name : String) :
    (t.machine.global fuel name).1 = (s.machine.global fuel name).1 ∧
      (s.machine.global fuel name).2.Twins texts (t.machine.global fuel name).2 := by
  have both := abreast.machines.global fuel name
  have read (m : Machine) := Machine.global_relabel (f := .unnumbered) (fun _ => rfl) (fun _ => rfl) fuel name m
  rwa [read, read] at both

end Session

/-- A text that is rejected runs no statement. It changes the error text and the flag for errors, uses up ids, and
adds distances for them to the table. None of the functions that the machine has gets another distance by that. Later
texts have the same effects as without it, and find and leave the same globals. -/
theorem rejection_unnoticed {H : List Event} {s : Session} (reached : Session.Reached H s) {source : String}
    {rejection : Rejection} (rejected : (s.load source).1 = .error rejection) (fuel : Nat) :
    s.events fuel source = [] ∧
    (∃ report nextId, ∃ entries : Locals, s.nextId ≤ nextId ∧ entries.Between s.nextId nextId ∧
      s.run fuel source = { s with
        machine := { s.machine with err := s.machine.err ++ report }
        nextId := nextId
        locals := entries ++ s.locals
        hadError := true }) ∧
    s.machine.relabel (.link (s.run fuel source).locals) = s.machine.relabel (.link s.locals) ∧
    ∀ (later : Nat) (sources : List String),
      let after := (s.run fuel source).runAll later sources
      let without := s.runAll later sources
      let texts := (s.machine.err, (s.run fuel source).machine.err)
      without.machine.Twins texts after.machine ∧ after.hadRuntimeError = without.hadRuntimeError ∧
        ∀ name, (after.machine.global later name).1 = (without.machine.global later name).1 ∧
          (without.machine.global later name).2.Twins texts (after.machine.global later name).2 := by
  have loads := s.load_loads source
  have run : s.run fuel source = Session.runLoaded fuel (s.load source) := rfl
  have events : s.events fuel source = Session.loadedEvents fuel (s.load source) := rfl
  generalize s.load source = result at loads rejected run events
  generalize load source = verdict at loads
  cases loads with
  | accepted => cases rejected
  | @rejected _ nextId entries le between =>
    have coherent := reached.coherent
    refine ⟨events, ⟨_, nextId, entries, le, between, run⟩, ?_, fun later sources => ?_⟩
    · rw [coherent.linked fun _ _ _ => rfl, run]
      exact coherent.linked between.agree_old
    · have start : Session.Abreast (s.machine.err, (s.run fuel source).machine.err) s (s.run fuel source) := by
        refine ⟨⟨(reached.machine.settled.2).relabel _, "", (String.append_empty ..).symm, ?_⟩, ?_⟩
        · rw [run]
          simp [Session.runLoaded, Session.complain, Machine.relabel]
        · rw [run]
          rfl
      have after := start.runAll reached (.run reached fuel source) later sources
      exact ⟨after.machines.apart, after.failed, after.global later⟩

def countingSource : String :=
  "var n = \"a\"; fun next() \x7b n = n + \"a\"; return n; \x7d"

/-- A block that uses a name and declares it again. -/
def doublingSource : String :=
  "\x7b var n; n; var n; \x7d"

def Rejection.isScope : Except Rejection (List Stmt) → Bool
  | .error (.scope _) => true
  | _ => false

set_option maxRecDepth 100000 in
theorem counting_run :
    ∃ H s, Session.Reached H s ∧ Rejection.isScope (s.load doublingSource).1 = true ∧
      (s.run 30 doublingSource).locals.length = s.locals.length + 1 ∧
      (s.runAll 30 ["println(next());"]).machine.out = "aa\n" :=
  ⟨_, _, .run (.start {}) 30 countingSource, by decide +kernel⟩

/-- The resolver rejects a text after it has written down the distance of a name in it. The function that was there
before goes on counting. -/
theorem rejection_unnoticed_counting :
    ∃ H s errors, Session.Reached H s ∧ (s.load doublingSource).1 = .error (.scope errors) ∧
      (s.run 30 doublingSource).locals.length = s.locals.length + 1 ∧
      ((s.run 30 doublingSource).runAll 30 ["println(next());"]).machine.out = "aa\n" := by
  obtain ⟨H, s, reached, isScope, written, out⟩ := counting_run
  unfold Rejection.isScope at isScope
  split at isScope
  · rename_i errors rejected
    refine ⟨H, s, errors, reached, rejected, written, ?_⟩
    obtain ⟨-, -, -, later⟩ := rejection_unnoticed reached rejected 30
    exact (later 30 ["println(next());"]).1.out.trans out
  · cases isScope

end Treewalk
