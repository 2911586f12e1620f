import Treewalk.Proofs.Casts
import Treewalk.Proofs.CellReads
import Treewalk.Proofs.Fuel

/-!
Compound assignments. `x op= e` evaluates `e` before it reads `x`, and the assignment of `x op e` does it the other
way round. From there on both apply the operator to the same values on the same machine, whatever an overload of it
does then. Only a fault of the operator itself tells them apart, since it spells the operator as it was written.
-/

namespace Treewalk

variable {act act' : (a : Activity) → Machine → Outcome a.Result} {fuel fuel' : Nat} {m : Machine}

/-- The operator that a compound assignment applies. That of a power is not among the operators of expressions. -/
def AssignOp.operator? : AssignOp → Option Operator
  | add => some .add
  | subtract => some .subtract
  | multiply => some .multiply
  | divide => some .divide
  | set | power | increment | decrement => none

/-- The same end on the same machine. Faults may differ in their wording. -/
inductive Outcome.Alike : Outcome α → Outcome α → Prop where
  | same (outcome : Outcome α) : Alike outcome outcome
  | fault {fault fault' : Fault} (kind : fault'.kind = fault.kind) (line : Line) (m : Machine) :
      Alike (.error (.fault ⟨fault, line⟩) m) (.error (.fault ⟨fault', line⟩) m)

/-- A variable is bound to a plain cell, and has a value. -/
def Machine.HoldsAt (m : Machine) (ref : Reference) (value : Value) : Prop :=
  ∃ cell, Evaluator.variableCell ref m = .ok cell ∧ cell.content = .plain value

/-! Outcomes of computations in order. -/

theorem Outcome.Alike.finished {outcome outcome' : Outcome α} (alike : outcome.Alike outcome')
    (finished : outcome.Finished) : outcome'.Finished := by
  cases alike with
  | same outcome => exact finished
  | fault kind line m => exact fun _ => nofun

theorem Outcome.Alike.symm {outcome outcome' : Outcome α} (alike : outcome.Alike outcome') :
    outcome'.Alike outcome := by
  cases alike with
  | same outcome => exact .same outcome
  | fault kind line m => exact .fault kind.symm line m

namespace Run

variable {c c' : Run α} {f f' : α → Run β}

theorem raise_alike {fault fault' : Fault} (kind : fault'.kind = fault.kind) (line : Line) :
    ((raise line fault : Run α) m |>.outcome act).Alike ((raise line fault' : Run α) m |>.outcome act) :=
  .fault kind line m

theorem bind_alike (first : ((c m).outcome act).Alike ((c' m).outcome act))
    (next : ∀ a n, ((f a n).outcome act).Alike ((f' a n).outcome act)) :
    (((c >>= f) m).outcome act).Alike (((c' >>= f') m).outcome act) := by
  rw [outcome_bind, outcome_bind]
  generalize (c m).outcome act = outcome, (c' m).outcome act = outcome' at first
  cases first with
  | same outcome =>
    cases outcome with
    | ok a n => exact next a n
    | error reason n => exact .same _
  | fault kind line n => exact .fault kind line n

theorem outcome_bind_congr (next : ∀ a n, (c m).outcome act = .ok a n → (f a n).outcome act = (f' a n).outcome act) :
    ((c >>= f) m).outcome act = ((c >>= f') m).outcome act := by
  rw [outcome_bind, outcome_bind]
  cases done : (c m).outcome act with
  | ok a n => exact next a n done
  | error reason n => rfl

theorem finished_first (finished : (((c >>= f) m).outcome act).Finished) : ((c m).outcome act).Finished := by
  rcases ((c m).outcome act).finished_or with ends | ⟨n, short⟩
  · exact ends
  · rw [outcome_bind, short] at finished
    exact absurd rfl (finished n)

end Run

/-! The two assignments. -/

namespace Evaluator

variable {ref : Reference} {current : Value}

theorem readVariable_of_holdsAt (reads : m.HoldsAt ref current) : readVariable ref m = .done (.ok current m) := by
  obtain ⟨cell, found, plain⟩ := reads
  rw [readVariable_found found, readCell_plain plain]
  rfl

/-- How an operator is spelled is seen in its faults only. -/
theorem operation_alike (op : Operator) (symbol symbol' : String) (line : Line) (left right : Value) :
    ((operation op symbol line left right m).outcome act).Alike
      ((operation op symbol' line left right m).outcome act) := by
  unfold operation
  cases overloader? left right with
  | none => exact .same _
  | some o =>
    dsimp only
    rw [Run.heap_bind, Run.heap_bind]
    cases m.heap.findMethod? (m.heap.object o).cls op.method with
    | some method =>
      dsimp only
      split
      · exact .same _
      · refine Run.raise_alike ?_ line
        rfl
    | none =>
      dsimp only
      split
      · exact .same _
      · refine Run.raise_alike ?_ line
        rfl

def combined (op : Operator) (symbol : String) (line : Line) (current : Value) (e : Expr) : Run Value := do
  operation op symbol line current (← Run.eval e)

def storing (ref : Reference) (value : Run Value) : Run Value := do
  let result ← value
  writeVariable ref result
  return result

theorem combined_below (op : Operator) (symbol : String) (line : Line) (current : Value) (e : Expr) :
    (combined op symbol line current e).Below (combined op symbol line current e) :=
  .bind (.ask _) fun operand => below_compositional.operation op symbol line current operand

variable (act) in
theorem storing_alike (ref : Reference) (op : Operator) (symbol symbol' : String) (line : Line) (current : Value)
    (e : Expr) : ((storing ref (combined op symbol line current e) m).outcome act).Alike
      ((storing ref (combined op symbol' line current e) m).outcome act) := by
  refine Run.bind_alike (Run.bind_alike (.same _) fun operand n => ?_) fun _ _ => .same _
  exact operation_alike op symbol symbol' line current operand

theorem storing_below (ref : Reference) {value : Run Value} (below : value.Below value) :
    (storing ref value).Below (storing ref value) := by
  have writes := below_compositional.writeVariable below_pervasive.define ref
  exact .bind below fun result => .bind (writes result) fun _ => below_compositional.pure result

theorem assignedValue_some (ref : Reference) (site : AssignSite) (e : Expr) :
    assignedValue ref site (some e) =
      Run.eval e >>= fun operand => newValue site (readVariable ref) (some operand) := by
  change Run.eval e >>= (fun operand => pure (some operand)) >>= newValue site (readVariable ref) = _
  rw [Run.bind_assoc]
  rfl

theorem assigned_of_operator {site : AssignSite} {op : Operator} (operator : site.op.operator? = some op)
    (current operand : Value) :
    assigned site current (some operand) = operation op site.op.symbol site.line current operand := by
  unfold assigned
  cases written : site.op <;> rw [written] at operator <;> cases operator <;> rfl

theorem newValue_of_operator {site : AssignSite} {op : Operator} (operator : site.op.operator? = some op)
    (reads : m.HoldsAt ref current) (operand : Value) :
    newValue site (readVariable ref) (some operand) m = operation op site.op.symbol site.line current operand m := by
  have other : site.op ≠ .set := fun set => by
    rw [set] at operator
    cases operator
  unfold newValue
  rw [if_neg other, Run.bind_of_done (readVariable_of_holdsAt reads), assigned_of_operator operator]

end Evaluator

open Evaluator

theorem perform_assign (ref : Reference) (site : AssignSite) (value : Option Expr) :
    perform (fuel + 1) (.expr (.assign ref site value)) m =
      (storing ref (assignedValue ref site value) m).outcome (perform fuel) :=
  rfl

theorem Run.outcome_eval (e : Expr) : (Run.eval e m).outcome act = act (.expr e) m :=
  rfl

section

variable {ref : Reference} {e : Expr} {current : Value} {op : Operator} {line setLine : Line}

/-- The compound assignment, if the variable is still what it was when the operand has been evaluated. -/
theorem perform_compound {site : AssignSite} (operator : site.op.operator? = some op)
    (undisturbed : ∀ value after, perform fuel (.expr e) m = .ok value after → after.HoldsAt ref current) :
    perform (fuel + 1) (.expr (.assign ref site (some e))) m =
      (storing ref (combined op site.op.symbol site.line current e) m).outcome (perform fuel) := by
  have value : (assignedValue ref site (some e) m).outcome (perform fuel) =
      (combined op site.op.symbol site.line current e m).outcome (perform fuel) := by
    rw [assignedValue_some]
    refine Run.outcome_bind_congr fun operand after done => ?_
    rw [newValue_of_operator operator (undisturbed operand after done)]
  rw [perform_assign, storing, storing, Run.outcome_bind, Run.outcome_bind, value]

theorem perform_binary_use (reads : m.HoldsAt ref current) (line : Line) :
    perform (fuel + 2) (.expr (.binary (.operator op) line (.use ref) e)) m =
      (combined op op.symbol line current e m).outcome (perform (fuel + 1)) := by
  have reading : perform (fuel + 1) (.expr (.use ref)) m = .ok current m := by
    change (readVariable ref m).outcome (perform fuel) = _
    rw [readVariable_of_holdsAt reads]
    rfl
  change ((Run.eval (.use ref) >>= fun l => Run.eval e >>= fun r => operation op op.symbol line l r) m).outcome
    (perform (fuel + 1)) = _
  rw [Run.outcome_bind, Run.outcome_eval, reading]
  rfl

/-- What is written out is evaluated one step further inside than the assignment. -/
theorem perform_expansion (reads : m.HoldsAt ref current)
    (finished : ((combined op op.symbol line current e m).outcome (perform (fuel + 1))).Finished) :
    perform (fuel + 3) (.expr (.assign ref ⟨.set, setLine⟩ (some (.binary (.operator op) line (.use ref) e)))) m =
      (storing ref (combined op op.symbol line current e) m).outcome (perform (fuel + 2)) := by
  have more := Run.outcome_more (Nat.le_succ (fuel + 1)) (combined_below op op.symbol line current e) finished
  have value : (assignedValue ref ⟨.set, setLine⟩ (some (.binary (.operator op) line (.use ref) e)) m).outcome
      (perform (fuel + 2)) = (combined op op.symbol line current e m).outcome (perform (fuel + 2)) := by
    rw [assignedValue_some, more, ← perform_binary_use reads, Run.outcome_bind, Run.outcome_eval]
    cases perform (fuel + 2) (.expr (.binary (.operator op) line (.use ref) e)) m <;> rfl
  rw [perform_assign, storing, storing, Run.outcome_bind, Run.outcome_bind, value]

theorem expansion_of_storing (reads : m.HoldsAt ref current)
    (finished : ((storing ref (combined op op.symbol line current e) m).outcome (perform (fuel + 1))).Finished)
    (less : fuel ≤ fuel') :
    perform (fuel' + 3) (.expr (.assign ref ⟨.set, setLine⟩ (some (.binary (.operator op) line (.use ref) e)))) m =
      (storing ref (combined op op.symbol line current e) m).outcome (perform (fuel + 1)) := by
  have below := combined_below op op.symbol line current e
  have value := Run.finished_first finished
  have same := Run.outcome_more (Nat.succ_le_succ less) below value
  rw [perform_expansion reads (same ▸ value)]
  exact Run.outcome_more (by omega) (storing_below ref below) finished

theorem storing_of_expansion (reads : m.HoldsAt ref current)
    (finished : (perform (fuel + 3)
      (.expr (.assign ref ⟨.set, setLine⟩ (some (.binary (.operator op) line (.use ref) e)))) m).Finished)
    (less : fuel + 2 ≤ fuel') :
    (storing ref (combined op op.symbol line current e) m).outcome (perform fuel') =
      perform (fuel + 3) (.expr (.assign ref ⟨.set, setLine⟩ (some (.binary (.operator op) line (.use ref) e)))) m := by
  have below := combined_below op op.symbol line current e
  have value : (perform (fuel + 2) (.expr (.binary (.operator op) line (.use ref) e)) m).Finished := by
    rw [perform_assign, storing, assignedValue_some, Run.bind_assoc] at finished
    have first := Run.finished_first finished
    rwa [Run.outcome_eval] at first
  rw [perform_binary_use reads] at value
  rw [perform_expansion reads value] at finished ⊢
  exact Run.outcome_more less (storing_below ref below) finished

end

/-- A compound assignment to a variable means what its expansion means. Let the variable be bound to a plain cell, and
let the operand leave it as it is, as it does if the machine is the same afterwards. Whichever of the two assignments
comes to an end, the other one comes to the same end with more fuel: to the same value or to a fault of the same kind
on the same line, and in both cases on the same machine. The operator may be overloaded, and its method may do
anything. -/
theorem compound_assignment_expands {site : AssignSite} {op : Operator} (operator : site.op.operator? = some op)
    {ref : Reference} {current : Value} (reads : m.HoldsAt ref current) {e : Expr}
    (undisturbed : ∀ fuel value after, perform fuel (.expr e) m = .ok value after → after.HoldsAt ref current)
    (setLine : Line) (less : fuel < fuel') :
    let compound := Activity.expr (.assign ref site (some e))
    let expansion := Activity.expr
      (.assign ref ⟨.set, setLine⟩ (some (.binary (.operator op) site.line (.use ref) e)))
    ((perform fuel compound m).Finished → (perform fuel compound m).Alike (perform fuel' expansion m)) ∧
      ((perform fuel expansion m).Finished → (perform fuel' compound m).Alike (perform fuel expansion m)) := by
  intro compound expansion
  obtain ⟨fuel', rfl⟩ := Nat.exists_eq_succ_of_ne_zero (Nat.ne_of_gt (Nat.zero_lt_of_lt less))
  constructor
  · intro finished
    match fuel, less, finished with
    | 0, _, finished | 1, _, finished => exact absurd rfl (finished m)
    | fuel + 2, less, finished =>
      obtain ⟨fuel', rfl⟩ := Nat.exists_eq_add_of_le' (show 2 ≤ fuel' by omega)
      have alike := storing_alike (perform (fuel + 1)) (m := m) ref op site.op.symbol op.symbol site.line current e
      rw [perform_compound operator (undisturbed (fuel + 1))] at finished ⊢
      rw [expansion_of_storing reads (alike.finished finished) (by omega)]
      exact alike
  · intro finished
    match fuel, less, finished with
    | 0, _, finished | 1, _, finished | 2, _, finished => exact absurd rfl (finished m)
    | fuel + 3, less, finished =>
      have more : fuel + 2 ≤ fuel' := by omega
      rw [perform_compound operator (undisturbed fuel'), ← storing_of_expansion reads finished more]
      exact storing_alike _ ref op site.op.symbol op.symbol site.line current e

/-- A class whose sum prints something and assigns to the variable that is being assigned to. -/
def tallySource : String :=
  "class Tally \x7b operator method add(a, b) \x7b println(\"added\"); x = 7; return b; \x7d \x7d var x = Tally();"

def tallyUse : Reference :=
  { name := ⟨"x", 1⟩ }

def Machine.instance? (m : Machine) (ref : Reference) : Option Nat :=
  match Evaluator.variableCell ref m with
  | .ok ⟨.plain (.object o), _, _⟩ => some o.index
  | _ => none

theorem Machine.holdsAt_of_instance? {ref : Reference} {i : Nat} (found : m.instance? ref = some i) :
    m.HoldsAt ref (.object ⟨i⟩) := by
  unfold instance? at found
  split at found
  · rename_i cell
    cases found
    exact ⟨_, cell, rfl⟩
  · cases found

def Outcome.said? : Outcome Value → Option (String × String)
  | .ok (.str s) n => some (s, n.out)
  | _ => none

theorem Outcome.said?_cases {outcome : Outcome Value} {s out : String} (said : outcome.said? = some (s, out)) :
    ∃ n, outcome = .ok (.str s) n ∧ n.out = out := by
  unfold said? at said
  split at said
  · cases said
    exact ⟨_, rfl, rfl⟩
  · cases said

set_option maxRecDepth 100000 in
/-- The method is called once, and what it assigns is overwritten by the assignment that has called it. -/
theorem compound_assignment_expands_overloaded :
    ∃ m n, m.HoldsAt tallyUse (.object ⟨0⟩) ∧ AssignOp.add.operator? = some .add ∧
      perform 21 (.expr (.assign tallyUse ⟨.set, 1⟩
        (some (.binary (.operator .add) 1 (.use tallyUse) (.literal (.str "one")))))) m = .ok (.str "one") n ∧
      n.out = "added\n" := by
  have both : ((Session.start {}).run 20 tallySource).machine.instance? tallyUse = some 0 ∧
      (perform 20 (.expr (.assign tallyUse ⟨.add, 1⟩ (some (.literal (.str "one")))))
        ((Session.start {}).run 20 tallySource).machine).said? = some ("one", "added\n") := by decide +kernel
  generalize ((Session.start {}).run 20 tallySource).machine = m at both
  obtain ⟨found, said⟩ := both
  have reads := m.holdsAt_of_instance? found
  obtain ⟨n, done, out⟩ := Outcome.said?_cases said
  have undisturbed (fuel : Nat) (value : Value) (after : Machine)
      (done : perform fuel (.expr (.literal (.str "one"))) m = .ok value after) :
      after.HoldsAt tallyUse (.object ⟨0⟩) := by
    cases fuel with
    | zero => cases done
    | succ fuel =>
      cases done
      exact reads
  have operator : (⟨.add, 1⟩ : AssignSite).op.operator? = some .add := rfl
  have same := (compound_assignment_expands operator reads undisturbed 1 (Nat.lt_succ_self 20)).1
  dsimp only at same
  rw [done] at same
  have alike := same fun _ => nofun
  generalize ended : perform 21 _ m = outcome at alike
  cases alike with
  | same => exact ⟨m, n, reads, rfl, ended, out⟩

end Treewalk
