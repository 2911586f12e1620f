import Treewalk.Proofs.Trail

/-!
Signals stay inside the constructs that take them up. A statement ends only with signals that may pass at
the place where it stands: none may pass at the outermost level, and only one that returns may leave the
body of a function.
-/

namespace Treewalk

open Scoping

/-- The signals that may pass at a place. -/
def Scoping.Context.Allows (c : Context) : Signal → Prop
  | .normal => True
  | .returning _ => c.function ≠ .none
  | .breaking => c.inLoop = true ∨ c.inSwitch = true
  | .continuing => c.inLoop = true
  | .expecting _ => c.inTest = true

namespace Scoping.Context.Allows

variable {signal : Signal}

theorem normal (allows : Context.Allows {} signal) : signal = .normal := by
  cases signal with
  | normal => rfl
  | returning value => exact absurd rfl allows
  | breaking => cases allows with
    | inl loop => cases loop
    | inr switch => cases switch
  | continuing | expecting value => cases allows

theorem returns {c : Context} {role : FunctionRole} (allows : (c.inFunction role).Allows signal) :
    signal = .normal ∨ ∃ value, signal = .returning value := by
  cases signal with
  | normal => exact .inl rfl
  | returning value => exact .inr ⟨value, rfl⟩
  | breaking => cases allows with
    | inl loop => cases loop
    | inr switch => cases switch
  | continuing | expecting value => cases allows

end Scoping.Context.Allows

namespace Plan

def Yields (perform : (a : Activity) → Machine → Outcome a.Result) (Q : α → Prop) (plan : Plan α) : Prop :=
  ∀ a m, plan.outcome perform = .ok a m → Q a

variable {perform : (a : Activity) → Machine → Outcome a.Result} {P : α → Prop} {Q : β → Prop} {m : Machine}

namespace Yields

theorem andThen {plan : Plan α} {f : Outcome α → Plan β}
    (next : ∀ outcome, plan.outcome perform = outcome → (f outcome).Yields perform Q) :
    (plan.andThen f).Yields perform Q := by
  intro b m done
  rw [outcome_andThen] at done
  exact next _ rfl b m done

theorem pure {a : α} (holds : P a) : ((Pure.pure a : Run α) m).Yields perform P := by
  rintro _ _ ⟨⟩
  exact holds

theorem stop (reason : Stop) : ((Run.stop reason : Run α) m).Yields perform P := by
  rintro _ _ ⟨⟩

theorem bind {c : Run α} {f : α → Run β} (first : (c m).Yields perform P)
    (next : ∀ a m', P a → (f a m').Yields perform Q) : ((c >>= f) m).Yields perform Q := by
  refine andThen fun outcome reached => ?_
  cases outcome with
  | ok a after => exact next a after (first a after reached)
  | error reason after => exact stop (m := after) reason

theorem after {c : Run α} {f : α → Run β} (next : ∀ a m', (f a m').Yields perform Q) :
    ((c >>= f) m).Yields perform Q :=
  bind (P := fun _ => True) (fun _ _ _ => trivial) fun a m' _ => next a m'

theorem ite {c : Prop} [Decidable c] {yes no : Run α} (holds : c → (yes m).Yields perform P)
    (fails : ¬c → (no m).Yields perform P) : ((if c then yes else no) m).Yields perform P := by
  by_cases decided : c
  · rw [if_pos decided]
    exact holds decided
  · rw [if_neg decided]
    exact fails decided

theorem inScope {body : Run α} {r : Ref .scope} (inner : (body { m with scope := r }).Yields perform P) :
    (Run.inScope r body m).Yields perform P := by
  refine andThen fun outcome reached => ?_
  cases outcome with
  | ok a after => exact pure (m := { after with scope := m.scope }) (inner a after reached)
  | error reason after => exact stop (m := { after with scope := m.scope }) reason

theorem catching {body : Run α} {handler : RuntimeError → Run α} (inner : (body m).Yields perform P)
    (handled : ∀ e m', (handler e m').Yields perform P) :
    (Run.catching body handler m).Yields perform P := by
  refine andThen fun outcome reached => ?_
  cases outcome with
  | ok a after => exact pure (m := after) (inner a after reached)
  | error reason after =>
    cases reason with
    | fault e => exact handled e after
    | crash | outOfFuel => exact stop (m := after) _

end Yields

end Plan

open Plan

/-- Statements performed in this way end with signals that may pass where they stand. -/
def Contains (perform : (a : Activity) → Machine → Outcome a.Result) : Prop :=
  ∀ p s m, At .lax p (.stmt s) → (Run.exec s m).Yields perform p.context.Allows

namespace Evaluator

variable {perform : (a : Activity) → Machine → Outcome a.Result} {p : Place}

theorem stmts_contained (each : Contains perform) {ss : List Stmt}
    (stands : ∀ q ∈ bodyParts p ss, At .lax q.1 q.2) (m : Machine) :
    (stmts ss m).Yields perform p.context.Allows := by
  induction ss generalizing p m with
  | nil => exact .pure trivial
  | cons s rest ih =>
    refine .bind (each p s m (stands (p, .stmt s) (by simp [bodyParts]))) fun signal after allows => ?_
    cases signal with
    | normal =>
      have same : (p.after s).context = p.context := by
        unfold Place.after
        split <;> rfl
      rw [← same]
      exact ih (fun q member => stands q (by simp [bodyParts, member])) after
    | _ => exact .pure allows

theorem block_contained (each : Contains perform) {body : List Stmt} (stands : At .lax p (.body body))
    (r : Ref .scope) (m : Machine) : (block r body m).Yields perform p.context.Allows :=
  .inScope (stmts_contained each (fun _ member => stands.part member) _)

theorem whileLoop_contained {condition : Expr} {body : Run Signal} {increment : Option Expr}
    (inner : ∀ m, (body m).Yields perform p.inLoop.context.Allows) (fuel : Nat) (m : Machine) :
    (whileLoop condition body increment fuel m).Yields perform p.context.Allows := by
  induction fuel generalizing m with
  | zero => exact .stop _
  | succ fuel ih =>
    refine .after fun decided m₁ => .ite (fun _ => ?_) fun _ => .pure trivial
    refine .bind (inner m₁) fun signal m₂ allows => ?_
    cases signal with
    | normal | continuing => exact .after fun _ m₃ => ih m₃
    | breaking => exact .pure trivial
    | returning value | expecting value => exact .pure allows

theorem untilLoop_contained (each : Contains perform) {condition : Expr} {body : Stmt}
    (stands : At .lax p.inLoop (.stmt body)) (fuel : Nat) (m : Machine) :
    (untilLoop condition body fuel m).Yields perform p.context.Allows := by
  induction fuel generalizing m with
  | zero => exact .stop _
  | succ fuel ih =>
    refine .after fun decided m₁ => .ite (fun _ => .pure trivial) fun _ => ?_
    refine .bind (each _ body m₁ stands) fun signal m₂ allows => ?_
    cases signal with
    | normal | continuing => exact ih m₂
    | breaking => exact .pure trivial
    | returning value | expecting value => exact .pure allows

theorem iteration_contained (each : Contains perform) {body : Stmt} {names : List Name}
    (stands : At .lax p (.stmt body)) (m : Machine) :
    (iteration body names m).Yields perform p.context.Allows := by
  refine .after fun outer m₁ => .after fun copies m₂ => .after fun scope m₃ => ?_
  refine .bind (P := p.context.Allows) (.inScope (stmts_contained each (fun q member => ?_) _))
    fun signal m₄ allows => .after fun _ _ => .pure allows
  obtain rfl : q = (p, .stmt body) := by simpa [bodyParts] using member
  exact stands

theorem runWhile_contained (each : Contains perform) {condition : Expr} {body : Stmt}
    {increment : Option Expr} {names : List Name}
    (stands : At .lax p (.stmt (.whileLoop condition body increment names))) (fuel : Nat) (m : Machine) :
    (runWhile fuel condition body increment names m).Yields perform p.context.Allows := by
  have inner : At .lax (p.loopBody names body) (.stmt body) := stands.part (by simp [Item.parts, Stmt.parts])
  have same : (p.loopBody names body).context = p.inLoop.context := by
    unfold Place.loopBody
    split <;> rfl
  refine .ite (fun _ => ?_) fun _ => ?_
  · exact whileLoop_contained (fun m => same ▸ each _ body m inner) fuel m
  · exact whileLoop_contained (fun m => same ▸ iteration_contained each inner m) fuel m

theorem runWhen_contained (each : Contains perform) {condition : Expr} {body : Stmt} {finish : Option Stmt}
    (stands : At .lax p (.stmt (.whenLoop condition body finish))) (fuel : Nat) (m : Machine) :
    (runWhen fuel condition body finish m).Yields perform p.context.Allows := by
  have inner : At .lax p.inLoop (.stmt body) := stands.part (by simp [Item.parts, Stmt.parts])
  refine .bind (untilLoop_contained each inner fuel m) fun signal m₁ allows => ?_
  cases signal with
  | normal =>
    cases finish with
    | none => exact .pure trivial
    | some last => exact each p last m₁ (stands.part (by simp [Item.parts, Stmt.parts]))
  | _ => exact .pure allows

theorem selectCase_contained {value : Value} {default : Option Stmt} {cases : List (Expr × Stmt)}
    (line : Line) (m : Machine) :
    (selectCase line value default cases m).Yields perform
      fun chosen => ∀ s ∈ chosen, s ∈ cases.map Prod.snd ∨ s ∈ default := by
  induction cases generalizing m with
  | nil => exact .pure fun s member => .inr member
  | cons first rest ih =>
    refine .after fun other m₁ => .after fun equal m₂ => .ite (fun _ => .pure (by simp)) fun _ => ?_
    intro chosen m₃ done s member
    rcases ih m₂ chosen m₃ done s member with listed | last
    · exact .inl (List.mem_cons_of_mem _ listed)
    · exact .inr last

/-- A switch takes up what breaks, and nothing else. -/
theorem runSwitch_contained (each : Contains perform) {line : Line} {value : Expr}
    {cases : List (Expr × Stmt)} {default : Option Stmt}
    (stands : At .lax p (.stmt (.switch line value cases default))) (m : Machine) :
    (runSwitch line value cases default m).Yields perform p.context.Allows := by
  refine .after fun chosen m₁ => .bind (selectCase_contained line m₁) fun body m₂ listed => ?_
  cases body with
  | none => exact .pure trivial
  | some body =>
    have inner : At .lax p.inSwitch (.stmt body) := stands.part (mem_switchParts line (listed body rfl))
    refine .bind (each _ body m₂ inner) fun signal m₃ allows => ?_
    cases signal with
    | breaking => exact .pure trivial
    | normal | returning value | continuing | expecting value => exact .pure allows

theorem runTest_contained {line : Line} {name : Expr} {body : Stmt} (m : Machine) :
    (runTest line name body m).Yields perform p.context.Allows := by
  refine .after fun title m₁ => ?_
  cases title with
  | str title =>
    exact .after fun signal m₂ => .after fun passed m₃ => .after fun _ m₄ => .pure trivial
  | _ => exact .stop _

theorem evalStmt_contained (each : Contains perform) {s : Stmt} (stands : At .lax p (.stmt s)) (fuel : Nat)
    (m : Machine) : (evalStmt fuel s m).Yields perform p.context.Allows := by
  have permitted : s.Permitted p.context := Stmt.Fits.permitted stands.fits
  cases s with
  | expr _ | var _ | property _ | function _ | classDecl _ | interfaceDecl _ | enumDecl _ _ =>
    exact .after fun _ _ => .pure trivial
  | block body =>
    have inner : At .lax (p.block body) (.body body) := stands.part (by simp [Item.parts, Stmt.parts])
    exact .after fun outer m₁ => .after fun scope m₂ => block_contained each inner scope m₂
  | ifElse condition yes no =>
    refine .after fun decided m₁ => .ite (fun _ => ?_) fun _ => ?_
    · exact each p yes m₁ (stands.part (by simp [Item.parts, Stmt.parts]))
    · cases no with
      | none => exact .pure trivial
      | some no => exact each p no m₁ (stands.part (by simp [Item.parts, Stmt.parts]))
  | whileLoop condition body increment names => exact runWhile_contained each stands fuel m
  | whenLoop condition body finish => exact runWhen_contained each stands fuel m
  | switch line value cases default => exact runSwitch_contained each stands m
  | tryCatch body name handler =>
    have inner : At .lax (p.handler name handler) (.body handler) :=
      stands.part (by simp [Item.parts, Stmt.parts])
    refine .catching (each p body m (stands.part (by simp [Item.parts, Stmt.parts]))) fun e m₁ => ?_
    exact .after fun outer m₂ => .after fun scope m₃ => block_contained each inner scope m₃
  | test line name body => exact runTest_contained m
  | expect _ _ | returning _ _ => exact .after fun _ _ => .pure permitted
  | breaking _ | continuing _ => exact .pure permitted
  | moduleName _ => exact .pure trivial

end Evaluator

/-- Statements end with signals that may pass where they stand. -/
theorem perform_contains (fuel : Nat) : Contains (perform fuel) := by
  induction fuel with
  | zero =>
    intro p s m stands signal after done
    cases done
  | succ fuel ih =>
    intro p s m stands signal after done
    exact Evaluator.evalStmt_contained ih stands fuel m signal after done

/-- Only a statement that is no expression is said to end with a signal. -/
theorem Machine.execute_signal {n : Machine} {fuel : Nat} {s : Stmt} {signal : Signal}
    (ended : (n.execute fuel s).1 = .signal signal) :
    ∃ n', perform fuel (.stmt s) n = .ok signal n' := by
  unfold Machine.execute at ended
  split at ended
  · split at ended
    · cases ended
    · rename_i stop _ _
      cases stop <;> cases ended
  · split at ended
    · rename_i done
      cases ended
      exact ⟨_, done⟩
    · rename_i stop _ _
      cases stop <;> cases ended

def Event.calledBody? : Event → Option (List Stmt)
  | .started (.call f _ _ _) _ =>
    match f.body with
    | .user body _ => some body
    | _ => none
  | _ => none

/-- A body that is called in a run stands in a program, in the context of a function. -/
theorem Reached.calledBody_at {H : List Event} {m : Machine} (reached : Reached H m) {e : Event}
    (member : e ∈ H) {body : List Stmt} (called : e.calledBody? = some body) :
    ∃ p role decl, At .lax (Place.callee p role decl) (.body body) := by
  obtain ⟨w, trail, -⟩ := reached.trail
  obtain ⟨v, seen, -, -⟩ := trail.seen member
  unfold Event.calledBody? at called
  split at called
  · rename_i f args generics line n
    have callable : v.Callable .lax f := seen.good.1
    have closed := callable.closed seen.sound fun impossible => impossible.elim
    unfold World.Closed at closed
    split at called
    · rename_i found
      cases called
      rw [found] at closed
      obtain ⟨p, role, decl, stands, same, -, -⟩ := closed
      exact ⟨p, role, decl, stands.part (by simp [Item.parts, same])⟩
    · cases called
  · cases called

/-- No signal leaves a top-level statement, and none but one that returns leaves a body that is called in a
run, in whichever scope and on whichever machine the body is executed. -/
theorem signals_taken_up {H : List Event} {m : Machine} (reached : Reached H m) :
    (∀ s, Accepted s → ∀ fuel n,
      (∀ signal n', perform fuel (.stmt s) n = .ok signal n' → signal = .normal) ∧
        ∀ signal, (n.execute fuel s).1 = .signal signal → signal = .normal) ∧
    ∀ e ∈ H, ∀ body ∈ e.calledBody?, ∀ fuel r n signal n',
      (Evaluator.block r body n).outcome (perform fuel) = .ok signal n' →
        signal = .normal ∨ ∃ value, signal = .returning value := by
  refine ⟨fun s accepted fuel n => ?_, fun e member body called fuel r n signal n' done => ?_⟩
  · have normal (signal : Signal) (n' : Machine) (done : perform fuel (.stmt s) n = .ok signal n') :
        signal = .normal :=
      (perform_contains fuel {} s n (accepted.at trivial) signal n' done).normal
    refine ⟨normal, fun signal ended => ?_⟩
    obtain ⟨n', done⟩ := Machine.execute_signal ended
    exact normal signal n' done
  · obtain ⟨p, role, decl, inner⟩ := reached.calledBody_at member called
    exact (Evaluator.block_contained (perform_contains fuel) inner r n signal n' done).returns

/-- A switch and a loop inside a function. -/
def loopingSource : String :=
  "fun f() { while (true) { switch (nil) { case (nil) break; } return true; } } f();"

set_option maxRecDepth 100000 in
theorem signals_taken_up_looping :
    ∃ e ∈ (Session.start {}).events 20 loopingSource, ∃ body ∈ e.calledBody?, ∀ fuel r n signal n',
      (Evaluator.block r body n).outcome (perform fuel) = .ok signal n' →
        signal = .normal ∨ ∃ value, signal = .returning value := by
  have some : ((Session.start {}).events 20 loopingSource).any (·.calledBody?.isSome) = true := by
    decide +kernel
  obtain ⟨e, member, called⟩ := List.any_eq_true.mp some
  obtain ⟨body, found⟩ := Option.isSome_iff_exists.mp called
  exact ⟨e, member, body, found, (signals_taken_up (Reached.text 20 loopingSource)).2 e member body found⟩

end Treewalk
