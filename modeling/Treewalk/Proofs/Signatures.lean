import Mathlib.Data.List.Forall2
import Treewalk.Proofs.Bindings
import Treewalk.Proofs.SafeCall

/-!
Calls and signatures. A function of the user checks all its arguments before its body begins, and what its
body yields after the body has ended. In between its body runs once. The result type is resolved when the body
has ended, so it may be another one by then than when the call began; what falls off the end of a body yields
nil, and by then nil conforms to the result type.
-/

namespace Treewalk

namespace Heap

/-- A parameter takes a value that conforms to its declared type, resolved in the closure of the function, and
that its modifiers admit. -/
def Takes (h : Heap) (closure : Ref .scope) (param : Param) (value : Value) : Prop :=
  h.conforms value (h.resolveType param.declared closure) = true ∧ param.modifiers.Admits value

theorem checkRange_ok {m : Modifiers} (name : String) {value : Value} :
    checkRange m name value = .ok () ↔ m.Admits value := by
  refine ⟨admits_of_checkRange, fun admits => ?_⟩
  cases value with
  | num n =>
    obtain ⟨signed, wide⟩ := admits n rfl
    have notNegative : ¬(m.unsigned && n < 0) = true := by simpa using signed
    have inRange : ¬(m.byte && !(0 ≤ n && n ≤ 255)) = true := by simpa using wide
    simp only [checkRange, if_neg notNegative, if_neg inRange]
  | _ => rfl

variable {h : Heap} (function : String) {closure : Ref .scope}

theorem argumentCell_makes {param : Param} {value : Value} :
    (∃ cell, h.argumentCell function closure param value = .ok cell) ↔ h.Takes closure param value := by
  unfold argumentCell Takes
  by_cases conforms : h.conforms value (h.resolveType param.declared closure) = true
  · rw [if_pos conforms, ← checkRange_ok param.name.text]
    cases checkRange param.modifiers param.name.text value <;>
      simp [conforms, Bind.bind, Except.bind, Pure.pure, Except.pure]
  · rw [if_neg conforms]
    simp [conforms, throw, throwThe, MonadExceptOf.throw]

theorem argumentCells_makes {params : List Param} {values : List Value}
    (count : values.length = params.length) (cells : NameMap Cell) :
    (∃ made, h.argumentCells function closure params values cells = .ok made) ↔
      List.Forall₂ (h.Takes closure) params values := by
  induction params generalizing values cells with
  | nil =>
    obtain rfl := List.length_eq_zero_iff.mp count
    exact ⟨fun _ => .nil, fun _ => ⟨cells, rfl⟩⟩
  | cons param params ih =>
    obtain ⟨value, values, rfl⟩ := List.exists_cons_of_length_eq_add_one count
    have others := ih (by simpa using count : values.length = params.length)
    rw [List.forall₂_cons, ← argumentCell_makes function]
    unfold argumentCells
    constructor
    · rintro ⟨made, done⟩
      obtain ⟨cell, own, rest⟩ := bind_eq_ok.mp done
      exact ⟨⟨cell, own⟩, (others _).mp ⟨made, rest⟩⟩
    · rintro ⟨⟨cell, own⟩, taken⟩
      obtain ⟨made, rest⟩ := (others (cells.insert param.name.text cell)).mpr taken
      exact ⟨made, bind_eq_ok.mpr ⟨cell, own, rest⟩⟩

/-- What falls off the end of a body conforms to any type that lets it. -/
theorem conforms_nil (h : Heap) {t : TypeDesc} (kind : t.kind = .void ∨ t.kind = .any) :
    h.conforms .nil t = true := by
  have known : TypeDesc.null.agreesFlat t = true ∨ t.isPlainAny = true := by
    cases array : t.isArray with
    | true => exact .inl (by simp [TypeDesc.agreesFlat, array, TypeDesc.isNull, TypeDesc.null, TypeDesc.object])
    | false =>
      rcases kind with void | any
      · exact .inl (by simp [TypeDesc.agreesFlat, void, TypeDesc.isNull, TypeDesc.null, TypeDesc.object,
          TypeDesc.isArray, TypeDesc.dropBrackets?])
      · exact .inr (by simp [TypeDesc.isPlainAny, any, array])
  have flat : TypeDesc.null.dimensions = 0 := by decide
  simp only [conforms, typeOf, TypeDesc.agrees, flat, TypeDesc.agreesWithin, Bool.or_eq_true]
  grind

end Heap

/-- The machine on which the body of a function begins, with the cells of its parameters in a scope of its
own. -/
def Machine.entered (m : Machine) (closure : Ref .scope) (cells : NameMap Cell) : Machine :=
  { m with
    heap := (m.heap.addScope { enclosing := some closure, names := cells }).2
    scope := ⟨m.heap.scopes.size⟩ }

def Signal.handed : Signal → Value
  | .returning value => value
  | _ => .nil

namespace Evaluator

variable {f : Function} {body : List Stmt} {closure : Ref .scope} {m : Machine}
  {act : (a : Activity) → Machine → Outcome a.Result} {history : Activity → Machine → List Event}

theorem block_events (r : Ref .scope) (body : List Stmt) (m : Machine) :
    (block r body m).events act history = (stmts body { m with scope := r }).events act history := by
  refine (Plan.events_andThen _ _).trans ?_
  cases (stmts body { m with scope := r }).outcome act <;> simp [Run.leave, Plan.events]

theorem block_ends {r : Ref .scope} {signal : Signal} {after : Machine}
    (ended : (block r body m).outcome act = .ok signal after) :
    ∃ last, (stmts body { m with scope := r }).outcome act = .ok signal last ∧
      after = { last with scope := m.scope } := by
  have inner := (Plan.outcome_andThen (stmts body { m with scope := r }) (Run.leave m.scope)).symm.trans ended
  cases done : (stmts body { m with scope := r }).outcome act with
  | ok signal' last =>
    rw [done] at inner
    cases inner
    exact ⟨last, rfl, rfl⟩
  | error reason last =>
    rw [done] at inner
    cases inner

/-- A call whose arguments do not fit stops at once, -/
theorem callFunction_refuses (user : f.body = .user body closure) {args : List Value}
    (misfit : ¬List.Forall₂ (m.heap.Takes closure) f.params args) (line : Line) :
    ∃ fault, callFunction f args [] line m = .done (.error (.fault ⟨fault, line⟩) m) := by
  unfold callFunction
  by_cases count : args.length ≠ f.arity
  · rw [if_pos count]
    exact ⟨_, rfl⟩
  · rw [if_neg count, user]
    rw [← Heap.argumentCells_makes f.name (Decidable.not_not.mp count) .empty] at misfit
    cases checked : m.heap.argumentCells f.name closure f.params args .empty with
    | ok cells => exact absurd ⟨cells, checked⟩ misfit
    | error fault =>
      refine ⟨fault, ?_⟩
      change ((Run.orRaise line (m.heap.argumentCells f.name closure f.params args .empty)) m).andThen _ = _
      rw [checked]
      rfl

/-- and any other runs the body in a new scope and then looks at what it has yielded. -/
theorem callFunction_enters (user : f.body = .user body closure) (plain : f.constructs = false)
    {args : List Value} (fit : List.Forall₂ (m.heap.Takes closure) f.params args) (line : Line) :
    ∃ cells, m.heap.argumentCells f.name closure f.params args .empty = .ok cells ∧
      callFunction f args [] line m = (block (m.entered closure cells).scope body >>= resultOf f closure line)
        { m with heap := (m.entered closure cells).heap } := by
  have count : args.length = f.params.length := fit.length_eq.symm
  obtain ⟨cells, checked⟩ := (Heap.argumentCells_makes f.name count .empty).mpr fit
  refine ⟨cells, checked, ?_⟩
  unfold callFunction
  rw [if_neg (by simpa [Function.arity] using count), user]
  change ((Run.orRaise line (m.heap.argumentCells f.name closure f.params args .empty)) m).andThen _ = _
  rw [checked]
  simp only [plain, Bool.false_eq_true, if_false]
  rfl

/-- The result is checked against the type that it is declared to have, as it is resolved by then. -/
theorem resultOf_ends (f : Function) (closure : Ref .scope) (line : Line) (signal : Signal) (m : Machine) :
    ∃ outcome, resultOf f closure line signal m = .done outcome ∧ ∀ value after, outcome = .ok value after →
      after = m ∧ value = signal.handed ∧
        after.heap.conforms value (after.heap.resolveType f.returns closure) = true := by
  have demanded (holds : Bool) (fault : Fault) (value : Value) :
      ∃ outcome, (Run.demand holds line fault >>= fun _ => Pure.pure value) m = .done outcome ∧
        ∀ v after, outcome = .ok v after → after = m ∧ v = value ∧ holds = true := by
    cases holds with
    | true => exact ⟨.ok value m, rfl, by rintro v after ⟨⟩; exact ⟨rfl, rfl, rfl⟩⟩
    | false => exact ⟨.error (.fault ⟨fault, line⟩) m, rfl, by rintro v after ⟨⟩⟩
  cases signal with
  | returning value =>
    obtain ⟨outcome, done, ends⟩ := demanded (m.heap.conforms value (m.heap.resolveType f.returns closure))
      (.returnedType f.name (m.heap.resolveType f.returns closure) (m.heap.typeOf value)) value
    refine ⟨outcome, done, fun v after ended => ?_⟩
    obtain ⟨rfl, rfl, holds⟩ := ends v after ended
    exact ⟨rfl, rfl, holds⟩
  | _ =>
    obtain ⟨outcome, done, ends⟩ := demanded ((m.heap.resolveType f.returns closure).kind = .void ||
      (m.heap.resolveType f.returns closure).kind = .any)
      (.nothingReturned f.name (m.heap.resolveType f.returns closure)) .nil
    refine ⟨outcome, done, fun v after ended => ?_⟩
    obtain ⟨rfl, rfl, holds⟩ := ends v after ended
    exact ⟨rfl, rfl, after.heap.conforms_nil (by simpa using holds)⟩

theorem body_events (f : Function) (closure : Ref .scope) (line : Line) (r : Ref .scope) (body : List Stmt)
    (m : Machine) : ((block r body >>= resultOf f closure line) m).events act history =
      (stmts body { m with scope := r }).events act history := by
  rw [Run.events_bind, block_events]
  cases (block r body m).outcome act with
  | ok signal after =>
    obtain ⟨_, done, -⟩ := resultOf_ends f closure line signal after
    simp [done, Plan.events]
  | error => simp

end Evaluator

/-- A call of a function of the user that is no constructor either stops on its line before anything of the
body runs and leaves the machine as it was, which is so if the arguments are not as many as the parameters or
one of them is not taken by its parameter; or the body runs once, in a scope of its own, and what a call yields
is what the body has handed back, and conforms to the result type as it is resolved in the closure when the body
has ended. -/
theorem calls_honour_signatures {f : Function} {body : List Stmt} {closure : Ref .scope}
    (user : f.body = .user body closure) (plain : f.constructs = false) (args : List Value) (line : Line) (fuel : Nat)
    (m : Machine) :
    (¬List.Forall₂ (m.heap.Takes closure) f.params args → ∃ fault,
      perform (fuel + 1) (.call f args [] line) m = .error (.fault ⟨fault, line⟩) m ∧
      history (fuel + 1) (.call f args [] line) m = [.started (.call f args [] line) m,
        .ended (.call f args [] line) m (.error (.fault ⟨fault, line⟩) m)]) ∧
    (List.Forall₂ (m.heap.Takes closure) f.params args → ∃ cells,
      m.heap.argumentCells f.name closure f.params args .empty = .ok cells ∧
      history (fuel + 1) (.call f args [] line) m =
        .started (.call f args [] line) m ::
          (Evaluator.stmts body (m.entered closure cells)).events (perform fuel) (history fuel) ++
          [.ended (.call f args [] line) m (perform (fuel + 1) (.call f args [] line) m)] ∧
      ∀ value after, perform (fuel + 1) (.call f args [] line) m = .ok value after →
        after.heap.conforms value (after.heap.resolveType f.returns closure) = true ∧
        ∃ signal last, (Evaluator.stmts body (m.entered closure cells)).outcome (perform fuel) = .ok signal last ∧
          after = { last with scope := m.scope } ∧ value = signal.handed) := by
  constructor
  · intro misfit
    obtain ⟨fault, refused⟩ := Evaluator.callFunction_refuses user misfit line
    have ended : perform (fuel + 1) (.call f args [] line) m = .error (.fault ⟨fault, line⟩) m :=
      congrArg (Plan.outcome (perform fuel)) refused
    refine ⟨fault, ended, ?_⟩
    unfold history
    rw [ended]
    exact congrArg (fun plan => _ :: plan.events (perform fuel) (history fuel) ++ _) refused
  · intro fit
    obtain ⟨cells, checked, enters⟩ := Evaluator.callFunction_enters user plain fit line
    refine ⟨cells, checked, ?_, fun value after ended => ?_⟩
    · have happens := @Evaluator.body_events (perform fuel) (history fuel) f closure line
        (m.entered closure cells).scope body { m with heap := (m.entered closure cells).heap }
      rw [← enters] at happens
      exact congrArg (fun events => _ :: events ++ _) happens
    · change (Evaluator.callFunction f args [] line m).outcome (perform fuel) = _ at ended
      rw [enters, Run.outcome_bind] at ended
      split at ended
      · rename_i signal middle blocked
        obtain ⟨last, ran, back⟩ := Evaluator.block_ends blocked
        obtain ⟨outcome, done, ends⟩ := Evaluator.resultOf_ends f closure line signal middle
        rw [done] at ended
        obtain ⟨rfl, handed, conforms⟩ := ends value after ended
        exact ⟨conforms, signal, last, ran, back, handed⟩
      · cases ended

/-- A function of a string, whose body ends without a result. -/
def fallingFunction : Function where
  name := "f"
  params := [{ name := ⟨"s", 1⟩, declared := .string }]
  returns := .arrayOf .void
  modifiers := {}
  body := .user [] .globals
  constructs := false

theorem calls_honour_signatures_falling :
    ∃ m : Machine,
      (∃ after, perform 1 (.call fallingFunction [.str "a"] [] 1) m = .ok .nil after ∧
        after.heap.conforms .nil (after.heap.resolveType (.arrayOf .void) .globals) = true) ∧
      ∃ fault, perform 1 (.call fallingFunction [.bool true] [] 1) m = .error (.fault ⟨fault, 1⟩) m := by
  have text := calls_honour_signatures (f := fallingFunction) rfl rfl [.str "a"] 1 0 (.initial false {})
  have truth := calls_honour_signatures (f := fallingFunction) rfl rfl [.bool true] 1 0 (.initial false {})
  refine ⟨.initial false {}, ?_, ?_⟩
  · have fit : List.Forall₂ ((Machine.initial false {}).heap.Takes .globals) fallingFunction.params [.str "a"] :=
      .cons ⟨by decide, fun n same => by cases same⟩ .nil
    obtain ⟨cells, -, -, yields⟩ := text.2 fit
    exact ⟨_, rfl, (yields .nil _ rfl).1⟩
  · have misfit : ¬List.Forall₂ ((Machine.initial false {}).heap.Takes .globals) fallingFunction.params
        [.bool true] := fun fit => by
      obtain ⟨conforms, -⟩ := (List.forall₂_cons.mp fit).1
      exact absurd conforms (by decide)
    obtain ⟨fault, stopped, -⟩ := truth.1 misfit
    exact ⟨fault, stopped⟩

end Treewalk
