import Treewalk.Proofs.Tasks

/-!
Classes that are called. When the operands of a call have been evaluated and a class is what is called, the rest of
the call is to make an instance: what happens from then on is in the history of the call, up to its end.
-/

namespace Treewalk

namespace Evaluator

/-- The operands of a call, in the order of their evaluation. -/
def operands (callee : Expr) (args generics : List Expr) : Run (Value × List Value × List Value) := do
  let target ← Run.eval callee
  let args ← exprs args
  let generics ← exprs generics
  return (target, args, generics)

/-- When the operands of a call have been evaluated and a class is called, what is left to do is to make an
instance. -/
theorem evalCall_of_operands {act : (a : Activity) → Machine → Outcome a.Result}
    (history : Activity → Machine → List Event) {callee : Expr} {argExprs genericExprs : List Expr} {c : Ref .cls}
    {args generics : List Value} {m n : Machine}
    (done : (operands callee argExprs genericExprs m).outcome act = .ok (.cls c, args, generics) n) (line : Line)
    (nullSafe : Bool) :
    (evalCall callee line argExprs genericExprs nullSafe m).events act history =
        (operands callee argExprs genericExprs m).events act history ++
          (construct c args generics line n).events act history ∧
      (evalCall callee line argExprs genericExprs nullSafe m).outcome act =
        (construct c args generics line n).outcome act := by
  obtain ⟨target, m₁, first, rest⟩ := Run.outcome_bind_ok done
  obtain ⟨args', m₂, second, rest⟩ := Run.outcome_bind_ok rest
  obtain ⟨generics', m₃, third, rest⟩ := Run.outcome_bind_ok rest
  cases rest
  have present : ¬(nullSafe && (Value.cls c).isNil) = true := by simp [Value.isNil]
  constructor
  · simp only [evalCall, operands, Run.events_bind, first, second, third, if_neg present, List.append_assoc]
    rfl
  · simp only [evalCall, Run.outcome_bind, first, second, third, if_neg present]
    rfl

end Evaluator

/-- A class that is about to be instantiated, with the arguments, and the machine as it is then. -/
structure Construction where
  fuel : Nat
  cls : Ref .cls
  args : List Value
  generics : List Value
  line : Line
  machine : Machine

namespace Construction

def plan (x : Construction) : Plan Value :=
  Evaluator.construct x.cls x.args x.generics x.line x.machine

def form (x : Construction) : Class :=
  x.machine.heap.cls x.cls

end Construction

namespace Task

/-- What a call of a class instantiates, when its operands have been evaluated. -/
def construction? (t : Task) : Option Construction :=
  match t.fuel, t.activity with
  | fuel + 1, .expr (.call callee line argExprs genericExprs _) =>
    match (Evaluator.operands callee argExprs genericExprs t.machine).outcome (perform fuel) with
    | .ok (.cls c, args, generics) n => some ⟨fuel, c, args, generics, line, n⟩
    | _ => none
  | _, _ => none

theorem splits_of_construction {t : Task} {x : Construction} (constructs : t.construction? = some x) :
    (∃ begun, t.history = begun ++ (x.plan.events (perform x.fuel) (Treewalk.history x.fuel) ++ [t.ended])) ∧
      t.ended.machine = (x.plan.outcome (perform x.fuel)).machine := by
  obtain ⟨fuel, a, m⟩ := t
  unfold construction? at constructs
  dsimp only at constructs
  split at constructs
  · rename_i fuel callee line argExprs genericExprs nullSafe
    split at constructs
    · rename_i done
      cases constructs
      obtain ⟨events, outcome⟩ := Evaluator.evalCall_of_operands (Treewalk.history fuel) done line nullSafe
      refine ⟨⟨.started (.expr (.call callee line argExprs genericExprs nullSafe)) m ::
        (Evaluator.operands callee argExprs genericExprs m).events (perform fuel) (Treewalk.history fuel), ?_⟩,
        congrArg Outcome.machine outcome⟩
      rw [List.cons_append, ← List.append_assoc, Construction.plan, ← events]
      rfl
    · cases constructs
  · cases constructs

def constructions (t : Task) : List (Task × Construction) :=
  t.asked.flatMap fun statement => statement.asked.filterMap fun part => part.construction?.map (part, ·)

theorem of_mem_constructions {t part : Task} {x : Construction} (member : (part, x) ∈ t.constructions) :
    t.Contains part ∧ part.construction? = some x := by
  obtain ⟨statement, asked, member⟩ := List.mem_flatMap.mp member
  obtain ⟨part', asked', same⟩ := List.mem_filterMap.mp member
  obtain ⟨x', constructs, same⟩ := Option.map_eq_some_iff.mp same
  cases same
  exact ⟨.tail (.single (asks_of_mem asked)) (asks_of_mem asked'), constructs⟩

end Task

end Treewalk
