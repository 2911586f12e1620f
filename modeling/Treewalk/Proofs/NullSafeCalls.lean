import Treewalk.Proofs.CompoundAssignment

/-!
Null-safe calls. The receiver is looked at when the member is read, and the call then looks at the member that has been
read. A receiver that is nil passes both, which skips the arguments. So does a member that is nil itself, and this is
all that tells a null-safe call on any other receiver from a plain one: the plain call evaluates its arguments there,
and fails.
-/

namespace Treewalk

variable {act : (a : Activity) → Machine → Outcome a.Result} {fuel : Nat} {m n : Machine}

namespace Evaluator

/-- What is done with the value of an expression, unless it is nil and nil is to be let through. -/
def guarded (nullSafe : Bool) (e : Expr) (next : Value → Run Value) : Run Value := do
  let value ← Run.eval e
  if nullSafe && value.isNil then return .nil else next value

def passing (line : Line) (args generics : List Expr) (callee : Value) : Run Value := do
  let args ← exprs args
  let generics ← exprs generics
  apply callee args generics line

section

variable {e e' : Expr} {next : Value → Run Value}

theorem guarded_nil (nil : act (.expr e) m = .ok .nil n) : (guarded true e next m).outcome act = .ok .nil n := by
  rw [guarded, Run.outcome_bind, Run.outcome_eval, nil]
  rfl

theorem unguarded_nil (nil : act (.expr e) m = .ok .nil n) :
    (guarded false e next m).outcome act = (next .nil n).outcome act := by
  rw [guarded, Run.outcome_bind, Run.outcome_eval, nil]
  rfl

theorem guarded_other (other : ∀ n, act (.expr e) m ≠ .ok .nil n) :
    (guarded true e next m).outcome act = (guarded false e next m).outcome act := by
  rw [guarded, guarded, Run.outcome_bind, Run.outcome_bind, Run.outcome_eval]
  cases done : act (.expr e) m with
  | ok value after =>
    cases value with
    | nil => exact absurd done (other after)
    | _ => rfl
  | error reason after => rfl

theorem guarded_congr (same : act (.expr e) m = act (.expr e') m) (nullSafe : Bool) :
    (guarded nullSafe e next m).outcome act = (guarded nullSafe e' next m).outcome act := by
  rw [guarded, guarded, Run.outcome_bind, Run.outcome_bind, Run.outcome_eval, Run.outcome_eval, same]

end

/-- A call of nil evaluates its arguments before it fails, and never succeeds. -/
theorem passing_nil_ne_ok (line : Line) (args generics : List Expr) (m : Machine) (value : Value) (after : Machine) :
    (passing line args generics .nil m).outcome act ≠ .ok value after := by
  intro done
  obtain ⟨_, _, _, done⟩ := Run.outcome_bind_ok done
  obtain ⟨_, _, _, done⟩ := Run.outcome_bind_ok done
  cases done

end Evaluator

open Evaluator

/-! The two places where nil is let through. -/

theorem perform_get (receiver : Expr) (name : Name) (nullSafe : Bool) :
    perform (fuel + 1) (.expr (.get receiver name nullSafe)) m =
      (guarded nullSafe receiver (getMember · name false) m).outcome (perform fuel) :=
  rfl

theorem perform_call (callee : Expr) (line : Line) (args generics : List Expr) (nullSafe : Bool) :
    perform (fuel + 1) (.expr (.call callee line args generics nullSafe)) m =
      (guarded nullSafe callee (passing line args generics) m).outcome (perform fuel) :=
  rfl

theorem receiver_ne_nil {receiver : Expr} {name : Name} {value : Value}
    (read : perform (fuel + 1) (.expr (.get receiver name false)) m = .ok value n) (after : Machine) :
    perform fuel (.expr receiver) m ≠ .ok .nil after := by
  intro nil
  rw [perform_get, unguarded_nil nil] at read
  cases read

/-- How a null-safe call of a method compares to a plain one. On a receiver that is nil, it is nil at once: nothing
happens after the evaluation of the receiver. On a receiver that is not nil, or has no value, both come to the same end
on the same machine, unless the receiver has a member of that name which is nil. In that case the null-safe call is nil
as soon as the member is read, and the plain one never succeeds: it evaluates its arguments and finds that it cannot
call nil. -/
theorem null_safe_calls (fuel : Nat) (m : Machine) (receiver : Expr) (name : Name) (line : Line)
    (args generics : List Expr) :
    let member := perform (fuel + 1) (.expr (.get receiver name false)) m
    let plain := perform (fuel + 2) (.expr (.call (.get receiver name false) line args generics false)) m
    let safe := perform (fuel + 2) (.expr (.call (.get receiver name true) line args generics true)) m
    (∀ n, perform fuel (.expr receiver) m = .ok .nil n → safe = .ok .nil n) ∧
      ((∀ n, perform fuel (.expr receiver) m ≠ .ok .nil n) → (∀ n, member ≠ .ok .nil n) → safe = plain) ∧
      ∀ n, member = .ok .nil n → safe = .ok .nil n ∧
        plain = (passing line args generics .nil n).outcome (perform (fuel + 1)) ∧
        ∀ value after, plain ≠ .ok value after := by
  intro member plain safe
  have reads (other : ∀ n, perform fuel (.expr receiver) m ≠ .ok .nil n) :
      perform (fuel + 1) (.expr (.get receiver name true)) m = member := by
    rw [perform_get, guarded_other other]
    rfl
  refine ⟨fun n nil => ?_, fun other present => ?_, fun n nil => ?_⟩
  · have read : perform (fuel + 1) (.expr (.get receiver name true)) m = .ok .nil n :=
      (perform_get ..).trans (guarded_nil nil)
    exact (perform_call ..).trans (guarded_nil read)
  · have read : safe = (guarded true (.get receiver name false) (passing line args generics) m).outcome
        (perform (fuel + 1)) := (perform_call ..).trans (guarded_congr (reads other) true)
    rw [read, guarded_other present]
    rfl
  · have skipped : safe = .ok .nil n := (perform_call ..).trans (guarded_nil ((reads (receiver_ne_nil nil)).trans nil))
    have refused : plain = (passing line args generics .nil n).outcome (perform (fuel + 1)) :=
      (perform_call ..).trans (unguarded_nil nil)
    refine ⟨skipped, refused, fun value after done => ?_⟩
    exact passing_nil_ne_ok line args generics n value after (refused ▸ done)

def Outcome.isNil : Outcome Value → Bool
  | .ok .nil _ => true
  | _ => false

theorem Outcome.isNil_iff {outcome : Outcome Value} : outcome.isNil = true ↔ ∃ n, outcome = .ok .nil n := by
  constructor
  · intro nil
    unfold isNil at nil
    split at nil
    · exact ⟨_, rfl⟩
    · cases nil
  · rintro ⟨n, rfl⟩
    rfl

/-- A door that can be opened and has no bell, and a gate that is not there. -/
def doorSource : String :=
  "class Door \x7b var bell = nil; method open(key) \x7b println(\"opened\"); return key; \x7d \x7d " ++
    "var door = Door(); var gate = nil;"

def doorUse (text : String) : Expr :=
  .use { name := ⟨text, 1⟩ }

def doorMember (receiver member : String) (nullSafe : Bool) : Expr :=
  .get (doorUse receiver) ⟨member, 1⟩ nullSafe

def doorCall (receiver member : String) (nullSafe : Bool) : Expr :=
  .call (doorMember receiver member nullSafe) 1 [.literal (.str "brass")] [] nullSafe

set_option maxRecDepth 100000 in
/-- The gate is not asked to open, the door opens as in a plain call, and its bell is skipped. -/
theorem null_safe_calls_door : ∃ m,
    (∃ n, perform 20 (.expr (doorUse "gate")) m = .ok .nil n ∧
      perform 22 (.expr (doorCall "gate" "open" true)) m = .ok .nil n) ∧
    (∃ n, perform 22 (.expr (doorCall "door" "open" true)) m = .ok (.str "brass") n ∧ n.out = "opened\n") ∧
    ∃ n, perform 21 (.expr (doorMember "door" "bell" false)) m = .ok .nil n ∧
      perform 22 (.expr (doorCall "door" "bell" true)) m = .ok .nil n := by
  have evaluated : (perform 20 (.expr (doorUse "gate")) ((Session.start {}).run 20 doorSource).machine).isNil = true ∧
      (perform 20 (.expr (doorUse "door")) ((Session.start {}).run 20 doorSource).machine).isNil = false ∧
      (perform 21 (.expr (doorMember "door" "open" false))
        ((Session.start {}).run 20 doorSource).machine).isNil = false ∧
      (perform 22 (.expr (doorCall "door" "open" false))
        ((Session.start {}).run 20 doorSource).machine).said? = some ("brass", "opened\n") ∧
      (perform 21 (.expr (doorMember "door" "bell" false))
        ((Session.start {}).run 20 doorSource).machine).isNil = true := by decide +kernel
  generalize ((Session.start {}).run 20 doorSource).machine = m at evaluated
  obtain ⟨gate, door, method, said, bell⟩ := evaluated
  obtain ⟨n, gate⟩ := Outcome.isNil_iff.mp gate
  obtain ⟨after, opened, out⟩ := Outcome.said?_cases said
  obtain ⟨n', bell⟩ := Outcome.isNil_iff.mp bell
  have other {outcome : Outcome Value} (notNil : outcome.isNil = false) (n : Machine) : outcome ≠ .ok .nil n :=
    fun nil => by simp [nil, Outcome.isNil] at notNil
  have ofGate := null_safe_calls 20 m (doorUse "gate") ⟨"open", 1⟩ 1 [.literal (.str "brass")] []
  have ofDoor := null_safe_calls 20 m (doorUse "door") ⟨"open", 1⟩ 1 [.literal (.str "brass")] []
  have ofBell := null_safe_calls 20 m (doorUse "door") ⟨"bell", 1⟩ 1 [.literal (.str "brass")] []
  refine ⟨m, ⟨n, gate, ofGate.1 n gate⟩, ⟨after, ?_, out⟩, n', bell, (ofBell.2.2 n' bell).1⟩
  exact (ofDoor.2.1 (other door) (other method)).trans opened

end Treewalk
