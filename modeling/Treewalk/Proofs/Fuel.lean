import Treewalk.Proofs.LoopRefinement
import Treewalk.Proofs.Pervasive

/-!
Fuel. A computation that is out of fuel stops at once, and no handler takes it up. So an activity that comes to an
end comes to the same end with more fuel, and the fuel says only how long one waits for it.
-/

namespace Treewalk

variable {fuel fuel' : Nat} {act act' : (a : Activity) → Machine → Outcome a.Result}

/-- A plan, and one for more fuel. They are the same up to a place where the first one is out of fuel. -/
inductive Plan.Below : Plan α → Plan α → Prop where
  | short (m : Machine) (plan : Plan α) : Below (.done (.error .outOfFuel m)) plan
  | done (outcome : Outcome α) : Below (.done outcome) (.done outcome)
  | ask {a : Activity} {m : Machine} {next next' : Outcome a.Result → Plan α}
      (passes : ∀ n, ∃ n', next (.error .outOfFuel n) = .done (.error .outOfFuel n'))
      (resume : ∀ outcome, Below (next outcome) (next' outcome)) : Below (.ask a m next) (.ask a m next')

def Run.Below (c c' : Run α) : Prop :=
  ∀ m, (c m).Below (c' m)

theorem Outcome.finished_or (outcome : Outcome α) :
    outcome.Finished ∨ ∃ m, outcome = .error .outOfFuel m := by
  match outcome with
  | .ok _ _ | .error (.fault _) _ | .error .crash _ => exact .inl fun _ => nofun
  | .error .outOfFuel m => exact .inr ⟨m, rfl⟩

namespace Plan.Below

theorem andThen {plan plan' : Plan α} {f f' : Outcome α → Plan β} (first : plan.Below plan')
    (passes : ∀ n, ∃ n', f (.error .outOfFuel n) = .done (.error .outOfFuel n'))
    (next : ∀ outcome, (f outcome).Below (f' outcome)) : (plan.andThen f).Below (plan'.andThen f') := by
  induction first with
  | short m plan =>
    obtain ⟨n, stops⟩ := passes m
    rw [Plan.andThen, stops]
    exact .short n _
  | done outcome => exact next outcome
  | ask through resume ih =>
    refine .ask (fun n => ?_) ih
    obtain ⟨n', stops⟩ := through n
    obtain ⟨n'', last⟩ := passes n'
    exact ⟨n'', by rw [stops, Plan.andThen, last]⟩

/-- If activities that finish do the same in the other way of performing them, so does a plan that finishes. -/
theorem outcome_eq (same : ∀ a m, (act a m).Finished → act' a m = act a m) {plan plan' : Plan α}
    (below : plan.Below plan') (finished : (plan.outcome act).Finished) :
    plan'.outcome act' = plan.outcome act := by
  induction below with
  | short m plan => exact absurd rfl (finished m)
  | done outcome => rfl
  | @ask a m next next' passes resume ih =>
    rcases (act a m).finished_or with ends | ⟨n, short⟩
    · rw [Plan.outcome, same a m ends]
      exact ih (act a m) finished
    · obtain ⟨n', stops⟩ := passes n
      rw [Plan.outcome, short, stops] at finished
      exact absurd rfl (finished n')

end Plan.Below

namespace Run.Below

theorem bind {c c' : Run α} {f f' : α → Run β} (first : c.Below c') (next : ∀ a, (f a).Below (f' a)) :
    (c >>= f).Below (c' >>= f') := by
  refine fun m => (first m).andThen (fun n => ⟨n, rfl⟩) fun outcome => ?_
  cases outcome with
  | ok a after => exact next a after
  | error reason after => exact .done _

theorem ask (a : Activity) : (Run.ask a).Below (Run.ask a) :=
  fun _ => .ask (fun n => ⟨n, rfl⟩) .done

theorem inScope (r : Ref .scope) {c c' : Run α} (inner : c.Below c') : (Run.inScope r c).Below (Run.inScope r c') :=
  fun m => (inner { m with scope := r }).andThen (fun _ => ⟨_, rfl⟩) fun outcome => by
    cases outcome <;> exact .done _

/-- Being out of fuel is not a fault, so that the handler does not come in. -/
theorem catching {body body' : Run α} {handler handler' : RuntimeError → Run α} (inner : body.Below body')
    (handles : ∀ e, (handler e).Below (handler' e)) :
    (Run.catching body handler).Below (Run.catching body' handler') := by
  refine fun m => (inner m).andThen (fun n => ⟨n, rfl⟩) fun outcome => ?_
  match outcome with
  | .ok _ _ | .error .crash _ | .error .outOfFuel _ => exact .done _
  | .error (.fault e) after => exact handles e after

end Run.Below

theorem below_compositional : Compositional fun c => c.Below c where
  pure _ _ := .done _
  bind := .bind
  stop _ _ := .done _
  get _ := .done _
  quiet quiet m := by
    obtain ⟨a, after, done, -⟩ := quiet m
    rw [done]
    exact .done _
  ask _ := .ask _
  addScope _ _ := .done _
  addFunction _ _ := .done _
  addArray _ _ := .done _
  addProperty _ _ := .done _
  addInterface _ _ := .done _
  addEnumeration _ _ := .done _
  setElement _ _ _ _ := .done _
  setCache _ _ _ := .done _

theorem below_pervasive : Pervasive fun c => c.Below c where
  toCompositional := below_compositional
  exec _ := .ask _
  define _ _ _ _ := .done _
  addObject _ _ := .done _
  setFields _ _ _ := .done _
  setField _ _ _ _ := .done _
  setClassField _ _ _ _ := .done _
  inScope r _ inner := .inScope r inner
  catching inner handles := .catching inner handles
  declareClass := below_compositional.declareClass (fun _ _ _ _ => .done _) (fun r _ => .inScope r)
    fun _ _ => below_compositional.addClass (fun _ => .done _) fun _ _ _ => .done _

/-! Loops, which are all that looks at the fuel by itself. -/

namespace Evaluator

theorem whileLoop_below {body : Run Signal} (inner : body.Below body) (condition : Expr) (increment : Option Expr)
    (less : fuel ≤ fuel') :
    (whileLoop condition body increment fuel).Below (whileLoop condition body increment fuel') := by
  induction fuel generalizing fuel' with
  | zero => exact fun m => .short m _
  | succ fuel ih =>
    obtain ⟨fuel', rfl⟩ := Nat.exists_eq_add_of_le' (Nat.lt_of_lt_of_le (Nat.zero_lt_succ fuel) less)
    have again := ih (Nat.le_of_succ_le_succ less)
    refine .bind (.ask _) fun held => ?_
    split
    · refine .bind inner fun signal => ?_
      cases signal with
      | normal | continuing => exact .bind (below_compositional.option increment) fun _ => again
      | breaking | returning _ | expecting _ => exact below_compositional.pure _
    · exact below_compositional.pure _

theorem untilLoop_below (condition : Expr) (body : Stmt) (less : fuel ≤ fuel') :
    (untilLoop condition body fuel).Below (untilLoop condition body fuel') := by
  induction fuel generalizing fuel' with
  | zero => exact fun m => .short m _
  | succ fuel ih =>
    obtain ⟨fuel', rfl⟩ := Nat.exists_eq_add_of_le' (Nat.lt_of_lt_of_le (Nat.zero_lt_succ fuel) less)
    have again := ih (Nat.le_of_succ_le_succ less)
    refine .bind (.ask _) fun held => ?_
    split
    · exact below_compositional.pure _
    · refine .bind (.ask _) fun signal => ?_
      cases signal with
      | normal | continuing => exact again
      | breaking | returning _ | expecting _ => exact below_compositional.pure _

theorem evalStmt_below (s : Stmt) (less : fuel ≤ fuel') : (evalStmt fuel s).Below (evalStmt fuel' s) := by
  cases s with
  | whileLoop condition body increment names =>
    have iterates := below_compositional.iteration below_pervasive.define below_pervasive.block body names
    change (runWhile fuel condition body increment names).Below (runWhile fuel' condition body increment names)
    unfold runWhile
    split
    · exact whileLoop_below (.ask (.stmt body)) condition increment less
    · exact whileLoop_below iterates condition increment less
  | whenLoop condition body finish =>
    refine .bind (untilLoop_below condition body less) fun signal => ?_
    split
    · cases finish with
      | none => exact below_compositional.pure _
      | some s => exact .ask _
    · exact below_compositional.pure _
  | _ => exact below_pervasive.evalStmt fuel _

end Evaluator

theorem Activity.plan_below (a : Activity) (less : fuel ≤ fuel') : (a.plan fuel).Below (a.plan fuel') := by
  cases a with
  | stmt s => exact Evaluator.evalStmt_below s less
  | expr _ | call _ _ _ _ | text _ => exact below_pervasive.plan _ fuel

/-- By induction on the smaller fuel: an activity that finishes comes to the same end with more fuel. -/
theorem perform_more (less : fuel ≤ fuel') {a : Activity} {m : Machine} (finished : (perform fuel a m).Finished) :
    perform fuel' a m = perform fuel a m := by
  induction fuel generalizing fuel' a m with
  | zero => exact absurd rfl (finished m)
  | succ fuel ih =>
    obtain ⟨fuel', rfl⟩ := Nat.exists_eq_add_of_le' (Nat.lt_of_lt_of_le (Nat.zero_lt_succ fuel) less)
    have again := Nat.le_of_succ_le_succ less
    exact (a.plan_below again m).outcome_eq (fun _ _ ends => ih again ends) finished

theorem Run.outcome_more (less : fuel ≤ fuel') {c : Run α} (below : c.Below c) {m : Machine}
    (finished : ((c m).outcome (perform fuel)).Finished) :
    (c m).outcome (perform fuel') = (c m).outcome (perform fuel) :=
  (below m).outcome_eq (fun _ _ ends => perform_more less ends) finished

end Treewalk
