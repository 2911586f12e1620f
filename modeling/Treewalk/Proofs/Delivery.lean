import Treewalk.Proofs.Composition
import Treewalk.Proofs.Signals

/-!
Where signals go. What breaks, continues or states an expectation sends a signal outward through the
statements that it stands in. Each of them passes the signal on as it is, up to the first that takes it, and
that one goes on at once: a loop with its next time round or behind itself, a switch or a test behind itself.
A test takes every signal that it is reached by, also those that are meant for a loop or a switch around it.
-/

namespace Treewalk

open Scoping

/-- How a statement holds another one that stands directly in it. -/
inductive Hold where
  | plain
  | loop
  | switch
  | test
  deriving DecidableEq

inductive Stmt.Holds : Stmt → Hold → Stmt → Prop where
  | block {body : List Stmt} {s : Stmt} (member : s ∈ body) : Holds (.block body) .plain s
  | yes (condition : Expr) (s : Stmt) (no : Option Stmt) : Holds (.ifElse condition s no) .plain s
  | no (condition : Expr) (yes s : Stmt) : Holds (.ifElse condition yes (some s)) .plain s
  | whileBody (condition : Expr) (s : Stmt) (increment : Option Expr) (names : List Name) :
      Holds (.whileLoop condition s increment names) .loop s
  | whenBody (condition : Expr) (s : Stmt) (finish : Option Stmt) : Holds (.whenLoop condition s finish) .loop s
  /-- The last part of a loop is run when the loop is over. -/
  | finish (condition : Expr) (body s : Stmt) : Holds (.whenLoop condition body (some s)) .plain s
  | branch {line : Line} {value : Expr} {cases : List (Expr × Stmt)} {default : Option Stmt} {s : Stmt}
      (listed : s ∈ cases.map Prod.snd ∨ s ∈ default) : Holds (.switch line value cases default) .switch s
  | tried (s : Stmt) (name : Option Name) (handler : List Stmt) : Holds (.tryCatch s name handler) .plain s
  | handler {body : Stmt} {name : Option Name} {handler : List Stmt} {s : Stmt} (member : s ∈ handler) :
      Holds (.tryCatch body name handler) .plain s
  | test (line : Line) (name : Expr) (s : Stmt) : Holds (.test line name s) .test s

/-- The signals that a statement takes from one that it holds. -/
def Hold.takes : Hold → Signal → Bool
  | .loop, .breaking | .loop, .continuing | .switch, .breaking => true
  | .test, .breaking | .test, .continuing | .test, .expecting _ => true
  | _, _ => false

/-- A signal that is meant for a loop, a switch or a test. -/
def Signal.Sent : Signal → Prop
  | .breaking | .continuing | .expecting _ => True
  | .normal | .returning _ => False

/-- The statements from which signals come, and the signals that come from them. -/
inductive Stmt.Sends : Stmt → Signal → Prop where
  | breaking (line : Line) : Sends (.breaking line) .breaking
  | continuing (line : Line) : Sends (.continuing line) .continuing
  | expecting (line : Line) (e : Expr) (value : Value) : Sends (.expect line e) (.expecting value)

theorem Stmt.Sends.sent {s : Stmt} {signal : Signal} (sends : s.Sends signal) : signal.Sent := by
  cases sends <;> trivial

/-- What happens next when a statement takes a signal. A loop that continues steps on or asks for its
condition, unless it has been round as often as it may; one that is broken off runs its last part. In all
other cases the statement ends normally. -/
def Stmt.TakesUp (outer : Stmt) (signal : Signal) (e : Event) : Prop :=
  match outer, signal with
  | .whileLoop condition _ increment _, .continuing =>
    (∃ n, e = .started (.expr (increment.getD condition)) n) ∨
      ∃ n n', e = .ended (.stmt outer) n (.error .outOfFuel n')
  | .whenLoop condition _ _, .continuing =>
    (∃ n, e = .started (.expr condition) n) ∨ ∃ n n', e = .ended (.stmt outer) n (.error .outOfFuel n')
  | .whenLoop _ _ (some finish), .breaking => ∃ n, e = .started (.stmt finish) n
  | _, _ => ∃ n n', e = .ended (.stmt outer) n (.ok .normal n')

/-- A signal that has left a statement, with these events to follow, comes to leave another one around it, with
other events to follow. The statements in between do nothing else than to end with the signal. -/
inductive Climbs (signal : Signal) (s : Stmt) (events : List Event) : Stmt → List Event → Prop where
  | here : Climbs signal s events s events
  | through {inner outer : Stmt} {rest : List Event} {hold : Hold} {n n' : Machine}
      (climbs : Climbs signal s events inner (.ended (.stmt outer) n (.ok signal n') :: rest))
      (held : outer.Holds hold inner) (untaken : hold.takes signal = false) : Climbs signal s events outer rest

/-- A signal that has left a statement, with these events to follow, comes to the first statement around it
that takes it, and is taken up there. -/
def Delivers (signal : Signal) (s : Stmt) (events : List Event) : Prop :=
  ∃ (inner outer : Stmt) (hold : Hold) (e : Event) (rest : List Event),
    Climbs signal s events inner (e :: rest) ∧ outer.Holds hold inner ∧ hold.takes signal = true ∧
      outer.TakesUp signal e

theorem Climbs.append {signal : Signal} {s outer : Stmt} {events rest : List Event}
    (climbs : Climbs signal s events outer rest) (more : List Event) :
    Climbs signal s (events ++ more) outer (rest ++ more) := by
  induction climbs with
  | here => exact .here
  | through _ held untaken ih => exact .through ih held untaken

theorem Delivers.append {signal : Signal} {s : Stmt} {events : List Event} (delivers : Delivers signal s events)
    (more : List Event) : Delivers signal s (events ++ more) := by
  obtain ⟨inner, outer, hold, e, rest, climbs, held, takes, taken⟩ := delivers
  exact ⟨inner, outer, hold, e, rest ++ more, climbs.append more, held, takes, taken⟩

/-! The plan of a statement relays signals: it passes on what it does not take. -/

namespace Plan

def Asks (P : Stmt → Prop) : Plan α → Prop
  | done _ => True
  | ask a _ next => (∀ s, a = .stmt s → P s) ∧ ∀ outcome, (next outcome).Asks P

theorem Asks.andThen {P : Stmt → Prop} {plan : Plan α} {f : Outcome α → Plan β} (asks : plan.Asks P)
    (next : ∀ outcome, (f outcome).Asks P) : (plan.andThen f).Asks P := by
  induction plan with
  | done outcome => exact next outcome
  | ask a m resume ih => exact ⟨asks.1, fun outcome => ih outcome (asks.2 outcome)⟩

end Plan

theorem asks_compositional (P : Stmt → Prop) : Compositional fun c => ∀ m, (c m).Asks P where
  pure _ _ := trivial
  bind first next m := (first m).andThen fun outcome => by
    cases outcome with
    | ok a after => exact next a after
    | error reason after => trivial
  stop _ _ := trivial
  get _ := trivial
  quiet quiet m := by
    obtain ⟨a, m', done, -, -⟩ := quiet m
    rw [done]
    trivial
  ask other _ := ⟨fun s same => absurd same (other s), fun _ => trivial⟩
  addScope _ _ := trivial
  addFunction _ _ := trivial
  addArray _ _ := trivial
  addProperty _ _ := trivial
  addInterface _ _ := trivial
  addEnumeration _ _ := trivial
  setElement _ _ _ _ := trivial
  setCache _ _ _ := trivial

/-- The way in which activities are performed, and what happens while they are. -/
structure Course where
  perform : (a : Activity) → Machine → Outcome a.Result
  history : Activity → Machine → List Event
  starts : ∀ a m, ∃ rest, history a m = .started a m :: rest

variable (course : Course) (outer : Stmt) (start : Machine)

/-- What happens while the rest of the plan of a statement is carried out, up to the end of the statement. -/
def Plan.remainder (plan : Plan Signal) : List Event :=
  plan.events course.perform course.history ++ [.ended (.stmt outer) start (plan.outcome course.perform)]

theorem Plan.remainder_ask (a : Activity) (m : Machine) (next : Outcome a.Result → Plan Signal) :
    ∃ rest, (Plan.ask a m next).remainder course outer start = .started a m :: rest := by
  obtain ⟨rest, begins⟩ := course.starts a m
  unfold remainder events
  rw [begins]
  exact ⟨_, rfl⟩

structure Treats (hold : Hold) (next : Outcome Signal → Plan Signal) : Prop where
  takes : ∀ signal m, signal.Sent → hold.takes signal = true →
    ∃ e rest, (next (.ok signal m)).remainder course outer start = e :: rest ∧ outer.TakesUp signal e
  passes : ∀ signal m, signal.Sent → hold.takes signal = false → ∃ m', next (.ok signal m) = .done (.ok signal m')

/-- The plan of a statement, or the rest of it, treats all signals as it should that the statements inside it
end with. -/
inductive Plan.Relays : Plan Signal → Prop where
  | done (outcome : Outcome Signal) : Relays (.done outcome)
  | stmt {inner : Stmt} {hold : Hold} {m : Machine} {next : Outcome Signal → Plan Signal}
      (held : outer.Holds hold inner) (treats : Treats course outer start hold next)
      (resume : ∀ outcome, Relays (next outcome)) : Relays (.ask (.stmt inner) m next)
  | other {a : Activity} {m : Machine} {next : Outcome a.Result → Plan Signal} (other : ∀ s, a ≠ .stmt s)
      (resume : ∀ outcome, Relays (next outcome)) : Relays (.ask a m next)

/-- A computation inside a statement relays signals if what follows on it does. -/
def Carries (hold : Hold) (c : Run Signal) : Prop :=
  ∀ next, Treats course outer start hold next → (∀ outcome, (next outcome).Relays course outer start) →
    ∀ m, ((c m).andThen next).Relays course outer start

variable {course outer start} {hold : Hold}

theorem Treats.via {next next' : Outcome Signal → Plan Signal} (treats : Treats course outer start hold next)
    (same : ∀ signal m, signal.Sent → ∃ m', next' (.ok signal m) = next (.ok signal m')) :
    Treats course outer start hold next' where
  takes signal m sent takes := by
    obtain ⟨m', eq⟩ := same signal m sent
    rw [eq]
    exact treats.takes signal m' sent takes
  passes signal m sent untaken := by
    obtain ⟨m', eq⟩ := same signal m sent
    rw [eq]
    exact treats.passes signal m' sent untaken

namespace Plan.Relays

theorem after {plan : Plan α} {next : Outcome α → Plan Signal} (silent : plan.Asks fun _ => False)
    (resume : ∀ outcome, (next outcome).Relays course outer start) :
    (plan.andThen next).Relays course outer start := by
  induction plan with
  | done outcome => exact resume outcome
  | ask a m more ih => exact .other (fun s same => silent.1 s same) fun outcome => ih outcome (silent.2 outcome)

theorem bind {c : Run α} {f : α → Run Signal} (silent : ∀ m, (c m).Asks fun _ => False)
    (next : ∀ a m, (f a m).Relays course outer start) (m : Machine) :
    ((c >>= f) m).Relays course outer start := by
  refine after (silent m) fun outcome => ?_
  cases outcome with
  | ok a after => exact next a after
  | error reason after => exact .done _

theorem of_silent {plan : Plan Signal} (silent : plan.Asks fun _ => False) :
    plan.Relays course outer start := by
  induction plan with
  | done outcome => exact .done outcome
  | ask a m more ih => exact .other (fun s same => silent.1 s same) fun outcome => ih outcome (silent.2 outcome)

end Plan.Relays

theorem Plan.andThen_done (plan : Plan α) : plan.andThen .done = plan := by
  induction plan with
  | done outcome => rfl
  | ask a m next ih => exact congrArg (Plan.ask a m) (funext ih)

namespace Carries

theorem relays {c : Run Signal} (carries : Carries course outer start hold c)
    (plain : ∀ signal, hold.takes signal = false) (m : Machine) : (c m).Relays course outer start := by
  rw [← (c m).andThen_done]
  refine carries .done ⟨fun signal _ _ takes => ?_, fun signal m' _ _ => ⟨m', rfl⟩⟩ (fun outcome => .done outcome) m
  rw [plain signal] at takes
  cases takes

theorem exec {s : Stmt} (held : outer.Holds hold s) : Carries course outer start hold (Run.exec s) :=
  fun _ treats resume _ => .stmt held treats resume

theorem after {c : Run α} {f : α → Run Signal} (silent : ∀ m, (c m).Asks fun _ => False)
    (rest : ∀ a, Carries course outer start hold (f a)) : Carries course outer start hold (c >>= f) := by
  intro next treats resume m
  change (((c m).andThen _).andThen next).Relays course outer start
  rw [Plan.andThen_assoc]
  refine .after (silent m) fun outcome => ?_
  cases outcome with
  | ok a after => exact rest a next treats resume after
  | error reason after => exact resume (.error reason after)

theorem inScope {c : Run Signal} (carries : Carries course outer start hold c) (r : Ref .scope) :
    Carries course outer start hold (Run.inScope r c) := by
  intro next treats resume m
  change (((c { m with scope := r }).andThen (Run.leave m.scope)).andThen next).Relays course outer start
  rw [Plan.andThen_assoc]
  refine carries (fun outcome => (Run.leave m.scope outcome).andThen next)
    (treats.via fun signal m' _ => ⟨{ m' with scope := m.scope }, rfl⟩) (fun outcome => ?_) _
  cases outcome with
  | ok signal after => exact resume (.ok signal _)
  | error reason after => exact resume (.error reason _)

theorem before {c : Run Signal} {last : Run Unit} (carries : Carries course outer start hold c)
    (smooth : last.Smooth) : Carries course outer start hold (c >>= fun signal => last >>= fun _ => pure signal) := by
  intro next treats resume m
  change (((c m).andThen _).andThen next).Relays course outer start
  rw [Plan.andThen_assoc]
  have passes (signal : Signal) (after : Machine) :
      ∃ m', (((last >>= fun _ => pure signal : Run Signal) after).andThen next) = next (.ok signal m') := by
    obtain ⟨u, m', done⟩ := smooth after
    refine ⟨m', ?_⟩
    change ((last after).andThen _).andThen next = _
    rw [done]
    rfl
  refine carries _ (treats.via fun signal after _ => passes signal after) (fun outcome => ?_) m
  cases outcome with
  | ok signal after =>
    obtain ⟨m', same⟩ := passes signal after
    change (((last >>= fun _ => pure signal : Run Signal) after).andThen next).Relays course outer start
    rw [same]
    exact resume _
  | error reason after => exact resume (.error reason after)

theorem stmts {body : List Stmt} (held : ∀ s ∈ body, outer.Holds hold s) :
    Carries course outer start hold (Evaluator.stmts body) := by
  induction body with
  | nil => exact fun next _ resume m => resume (.ok .normal m)
  | cons s rest ih =>
    intro next treats resume m
    have later := ih fun s member => held s (List.mem_cons_of_mem _ member)
    refine .stmt (held s List.mem_cons_self) (treats.via fun signal m' sent => ⟨m', ?_⟩) fun outcome => ?_
    · cases signal with
      | normal | returning value => exact sent.elim
      | breaking | continuing | expecting value => rfl
    · cases outcome with
      | ok signal after =>
        cases signal with
        | normal => exact later next treats resume after
        | _ => exact resume (.ok _ after)
      | error reason after => exact resume (.error reason after)

theorem block {body : List Stmt} (held : ∀ s ∈ body, outer.Holds hold s) (r : Ref .scope) :
    Carries course outer start hold (Evaluator.block r body) :=
  .inScope (.stmts held) r

end Carries

namespace Evaluator

open Plan

theorem silent : Compositional fun c => ∀ m, (c m).Asks fun _ => False :=
  asks_compositional fun _ => False

theorem copyNames_smooth (source target : Ref .scope) (names : List Name) :
    (copyNames source target names).Smooth := by
  induction names with
  | nil => exact .pure ()
  | cons name rest ih =>
    refine .bind (.reading _) fun found => ?_
    cases found with
    | none => exact ih
    | some cell => exact .bind (.update _) fun _ => ih

theorem iteration_carries {body : Stmt} (held : outer.Holds hold body) (names : List Name) :
    Carries course outer start hold (iteration body names) := by
  refine .after silent.currentScope fun around => .after (silent.reading _) fun copies => ?_
  refine .after (silent.addScope _) fun scope => .before (.block (fun s member => ?_) scope) ?_
  · obtain rfl := List.mem_singleton.mp member
    exact held
  · exact copyNames_smooth scope around names

theorem whileLoop_relays {condition : Expr} {s : Stmt} {increment : Option Expr} {names : List Name}
    {body : Run Signal} (carries : Carries course (.whileLoop condition s increment names) start .loop body)
    (fuel : Nat) (m : Machine) :
    (whileLoop condition body increment fuel m).Relays course (.whileLoop condition s increment names) start := by
  induction fuel generalizing m with
  | zero => exact .done _
  | succ fuel ih =>
    refine .bind (silent.eval condition) (fun decided m₁ => ?_) m
    split
    · refine carries _ ⟨fun signal m₂ sent takes => ?_, fun signal m₂ sent untaken => ?_⟩ (fun outcome => ?_) m₁
      · cases signal with
        | breaking => exact ⟨_, _, rfl, _, _, rfl⟩
        | continuing =>
          cases increment with
          | some e =>
            obtain ⟨rest, begins⟩ := remainder_ask course (.whileLoop condition s (some e) names) start (.expr e) m₂ _
            exact ⟨_, rest, begins, .inl ⟨m₂, rfl⟩⟩
          | none =>
            cases fuel with
            | zero => exact ⟨_, _, rfl, .inr ⟨_, _, rfl⟩⟩
            | succ fuel =>
              obtain ⟨rest, begins⟩ :=
                remainder_ask course (.whileLoop condition s none names) start (.expr condition) m₂ _
              exact ⟨_, rest, begins, .inl ⟨m₂, rfl⟩⟩
        | normal | returning value => exact sent.elim
        | expecting value => cases takes
      · cases signal with
        | breaking | continuing => cases untaken
        | normal | returning value => exact sent.elim
        | expecting value => exact ⟨m₂, rfl⟩
      · cases outcome with
        | ok signal after =>
          cases signal with
          | normal | continuing => exact .bind (silent.option increment) (fun _ m₃ => ih m₃) after
          | _ => exact .done _
        | error reason after => exact .done _
    · exact .done _

theorem untilLoop_relays {condition : Expr} {s : Stmt} {finish : Option Stmt} {f : Signal → Run Signal}
    (ends : ∀ m, ∃ e rest, (f .normal m).remainder course (.whenLoop condition s finish) start = e :: rest ∧
      (Stmt.whenLoop condition s finish).TakesUp .breaking e)
    (passes : ∀ value, f (.expecting value) = pure (.expecting value))
    (next : ∀ signal m, (f signal m).Relays course (.whenLoop condition s finish) start) (fuel : Nat)
    (m : Machine) :
    ((untilLoop condition s fuel >>= f) m).Relays course (.whenLoop condition s finish) start := by
  induction fuel generalizing m with
  | zero => exact .done _
  | succ fuel ih =>
    unfold untilLoop
    rw [Run.bind_assoc]
    refine .bind (silent.eval condition) (fun decided m₁ => ?_) m
    split
    · exact next .normal m₁
    · refine .stmt (.whenBody condition s finish)
        ⟨fun signal m₂ sent takes => ?_, fun signal m₂ sent untaken => ?_⟩ fun outcome => ?_
      · cases signal with
        | breaking => exact ends m₂
        | continuing =>
          cases fuel with
          | zero => exact ⟨_, _, rfl, .inr ⟨_, _, rfl⟩⟩
          | succ fuel =>
            obtain ⟨rest, begins⟩ :=
              remainder_ask course (.whenLoop condition s finish) start (.expr condition) m₂ _
            exact ⟨_, rest, begins, .inl ⟨m₂, rfl⟩⟩
        | normal | returning value => exact sent.elim
        | expecting value => cases takes
      · cases signal with
        | breaking | continuing => cases untaken
        | normal | returning value => exact sent.elim
        | expecting value =>
          refine ⟨m₂, ?_⟩
          change f (.expecting value) m₂ = _
          rw [passes value]
          rfl
      · cases outcome with
        | ok signal after =>
          cases signal with
          | normal | continuing => exact ih after
          | breaking => exact next .normal after
          | returning value | expecting value => exact next _ after
        | error reason after => exact .done _

theorem runWhen_relays (condition : Expr) (s : Stmt) (finish : Option Stmt) (fuel : Nat) (m : Machine) :
    (runWhen fuel condition s finish m).Relays course (.whenLoop condition s finish) start := by
  unfold runWhen
  refine untilLoop_relays (fun m₁ => ?_) (fun value => ?_) (fun signal m₁ => ?_) fuel m
  · cases finish with
    | none => exact ⟨_, _, rfl, _, _, rfl⟩
    | some last =>
      obtain ⟨rest, begins⟩ := remainder_ask course (.whenLoop condition s (some last)) start (.stmt last) m₁ .done
      exact ⟨_, rest, begins, m₁, rfl⟩
  · rfl
  · cases signal with
    | normal =>
      cases finish with
      | none => exact .done _
      | some last => exact (Carries.exec (.finish condition s last)).relays (fun _ => rfl) m₁
    | _ => exact .done _

theorem selectCase_relays {value : Value} {default : Option Stmt} {cases : List (Expr × Stmt)}
    {f : Option Stmt → Run Signal}
    (next : ∀ chosen, (∀ s ∈ chosen, s ∈ cases.map Prod.snd ∨ s ∈ default) →
      ∀ m, (f chosen m).Relays course outer start) (line : Line) (m : Machine) :
    ((selectCase line value default cases >>= f) m).Relays course outer start := by
  induction cases generalizing m with
  | nil => exact next default (fun s found => .inr found) m
  | cons first rest ih =>
    unfold selectCase
    rw [Run.bind_assoc]
    refine .bind (silent.eval first.1) (fun other m₁ => ?_) m
    rw [Run.bind_assoc]
    refine .bind (silent.operation _ _ line value other) (fun equal m₂ => ?_) m₁
    split
    · exact next (some first.2) (fun s found => .inl (by simp [Option.mem_some.mp found])) m₂
    · refine ih (fun chosen listed => next chosen fun s found => ?_) m₂
      exact (listed s found).imp_left (List.mem_cons_of_mem _)

theorem runSwitch_relays (line : Line) (value : Expr) (cases : List (Expr × Stmt)) (default : Option Stmt)
    (m : Machine) :
    (runSwitch line value cases default m).Relays course (.switch line value cases default) start := by
  refine .bind (silent.eval value) (fun v m₁ => selectCase_relays (fun chosen listed m₂ => ?_) line m₁) m
  cases chosen with
  | none => exact .done _
  | some body =>
    refine .stmt (.branch (listed body rfl)) ⟨fun signal m₃ sent takes => ?_, fun signal m₃ sent untaken => ?_⟩
      fun outcome => ?_
    · cases signal with
      | breaking => exact ⟨_, _, rfl, _, _, rfl⟩
      | normal | returning value => exact sent.elim
      | continuing | expecting value => cases takes
    · cases signal with
      | breaking => cases untaken
      | normal | returning value => exact sent.elim
      | continuing | expecting value => exact ⟨m₃, rfl⟩
    · cases outcome with
      | ok signal after => cases signal <;> exact .done _
      | error reason after => exact .done _

theorem runTest_relays (line : Line) (name : Expr) (body : Stmt) (m : Machine) :
    (runTest line name body m).Relays course (.test line name body) start := by
  refine .bind (silent.eval name) (fun title m₁ => ?_) m
  cases title with
  | str title =>
    refine .stmt (.test line name body) ⟨fun signal m₂ sent takes => ?_, fun signal m₂ sent untaken => ?_⟩
      fun outcome => ?_
    · cases signal with
      | breaking | continuing | expecting value => exact ⟨_, _, rfl, _, _, rfl⟩
      | normal | returning value => exact sent.elim
    · cases signal with
      | breaking | continuing | expecting value => cases untaken
      | normal | returning value => exact sent.elim
    · cases outcome with
      | ok signal after => cases signal <;> exact .done _
      | error reason after => exact .done _
  | _ => exact .done _

/-- A statement relays the signals of the statements that it holds. -/
theorem evalStmt_relays (course : Course) (start : Machine) (s : Stmt) (fuel : Nat) (m : Machine) :
    (evalStmt fuel s m).Relays course s start := by
  by_cases declares : s.declares?.isSome = true
  · refine .of_silent (silent.evalDeclaration declares (fun _ _ _ _ => trivial) (fun decl _ => ?_) fuel m)
    refine silent.declareClass (fun _ _ _ _ => trivial) (fun r c inner m' => ?_) (fun cls _ => ?_) decl
    · exact (inner _).andThen fun outcome => by cases outcome <;> trivial
    · exact silent.addClass (fun _ => trivial) fun _ _ _ => trivial
  cases s with
  | expr e => exact .of_silent (silent.bind (silent.eval e) (fun _ => silent.pure _) m)
  | var _ | property _ | function _ | classDecl _ | interfaceDecl _ | enumDecl _ _ => exact absurd rfl declares
  | block body =>
    refine (Carries.after silent.currentScope fun around => .after (silent.addScope _) fun scope =>
      .block (fun s member => .block member) scope).relays (fun _ => rfl) m
  | ifElse condition yes no =>
    refine .bind (silent.eval condition) (fun decided m₁ => ?_) m
    split
    · exact (Carries.exec (.yes condition yes no)).relays (fun _ => rfl) m₁
    · cases no with
      | none => exact .done _
      | some s => exact (Carries.exec (.no condition yes s)).relays (fun _ => rfl) m₁
  | whileLoop condition body increment names =>
    have held := Stmt.Holds.whileBody condition body increment names
    change (runWhile fuel condition body increment names m).Relays course _ start
    unfold runWhile
    split
    · exact whileLoop_relays (.exec held) fuel m
    · exact whileLoop_relays (iteration_carries held names) fuel m
  | whenLoop condition body finish => exact runWhen_relays condition body finish fuel m
  | switch line value cases default => exact runSwitch_relays line value cases default m
  | tryCatch body name handler =>
    refine .stmt (.tried body name handler)
      ⟨fun signal m₁ _ takes => (by cases takes), fun signal m₁ _ _ => ⟨m₁, rfl⟩⟩ fun outcome => ?_
    cases outcome with
    | ok signal after => exact .done _
    | error reason after =>
      cases reason with
      | crash | outOfFuel => exact .done _
      | fault e =>
        exact (Carries.after silent.currentScope fun around => .after (silent.addScope _) fun scope =>
          .block (fun s member => .handler member) scope).relays (fun _ => rfl) after
  | test line name body => exact runTest_relays line name body m
  | expect line value => exact .of_silent (silent.bind (silent.eval value) (fun _ => silent.pure _) m)
  | returning line value => exact .of_silent (silent.bind (silent.option value) (fun _ => silent.pure _) m)
  | breaking _ | continuing _ | moduleName _ => exact .done _

end Evaluator

/-! Histories. A signal that comes up in one is delivered in it, unless the whole activity ends with it. -/

def Rooted (events : List Event) : Prop :=
  ∀ e ∈ events, ∀ body ∈ e.calledBody?, ∃ p role decl, At .lax (Place.callee p role decl) (.body body)

/-- An activity ends with a signal that comes from a statement inside it. -/
def Escapes (signal : Signal) (s : Stmt) (events : List Event) : (a : Activity) → Outcome a.Result → Prop
  | .stmt root, .ok left _ => left = signal ∧ Climbs signal s events root []
  | _, _ => False

theorem Escapes.intro {signal : Signal} {s root : Stmt} {events : List Event} {outcome : Outcome Signal} {m : Machine}
    (done : outcome = .ok signal m) (climbs : Climbs signal s events root []) :
    Escapes signal s events (.stmt root) outcome := by
  subst done
  exact ⟨rfl, climbs⟩

theorem Escapes.stmt {signal : Signal} {s inner : Stmt} {events : List Event} {outcome : Outcome Signal}
    (escapes : Escapes signal s events (.stmt inner) outcome) :
    ∃ m, outcome = .ok signal m ∧ Climbs signal s events inner [] := by
  cases outcome with
  | ok left m => exact ⟨m, by rw [escapes.1], escapes.2⟩
  | error reason m => exact escapes.elim

theorem Escapes.is_stmt {signal : Signal} {s : Stmt} {events : List Event} {a : Activity}
    {outcome : Outcome a.Result} (escapes : Escapes signal s events a outcome) : ∃ root, a = .stmt root := by
  cases a with
  | stmt root => exact ⟨root, rfl⟩
  | _ => exact escapes.elim

/-- Every signal that comes up in a history is delivered, or leaves the activity. -/
def Relayed (a : Activity) (outcome : Outcome a.Result) (events : List Event) : Prop :=
  ∀ before after s n signal n', events = before ++ .ended (.stmt s) n (.ok signal n') :: after →
    s.Sends signal → Delivers signal s after ∨ Escapes signal s after a outcome

theorem split_append {α : Type} {xs ys before after : List α} {e : α} (split : xs ++ ys = before ++ e :: after) :
    (∃ mid, xs = before ++ e :: mid ∧ after = mid ++ ys) ∨ ∃ pre, before = xs ++ pre ∧ ys = pre ++ e :: after := by
  rcases List.append_eq_append_iff.mp split with ⟨pre, rfl, rest⟩ | ⟨mid, rfl, rest⟩
  · exact .inr ⟨pre, rfl, rest⟩
  · cases mid with
    | nil => exact .inr ⟨[], by simp, by simpa using rest.symm⟩
    | cons first mid =>
      simp only [List.cons_append, List.cons.injEq] at rest
      obtain ⟨rfl, rfl⟩ := rest
      exact .inl ⟨mid, rfl, rfl⟩

section

variable (course : Course)
  (each : ∀ a m, Rooted (course.history a m) → Relayed a (course.perform a m) (course.history a m))

include each

theorem Plan.Relays.relayed {plan : Plan Signal} (relays : plan.Relays course outer start)
    (rooted : Rooted (plan.events course.perform course.history)) {before after : List Event} {s : Stmt}
    {n n' : Machine} {signal : Signal}
    (split : plan.events course.perform course.history = before ++ .ended (.stmt s) n (.ok signal n') :: after)
    (sends : s.Sends signal) :
    Delivers signal s (after ++ [.ended (.stmt outer) start (plan.outcome course.perform)]) ∨
      ∃ m', plan.outcome course.perform = .ok signal m' ∧
        Climbs signal s (after ++ [.ended (.stmt outer) start (plan.outcome course.perform)]) outer [] := by
  induction relays generalizing before with
  | done outcome => simp [events] at split
  | @stmt inner hold m next held treats resume ih =>
    rcases split_append split with ⟨mid, within, rfl⟩ | ⟨pre, rfl, later⟩
    · have inside : Rooted (course.history (.stmt inner) m) := fun e member =>
        rooted e (List.mem_append_left _ member)
      rcases each (.stmt inner) m inside before mid s n signal n' within sends with delivered | escapes
      · refine .inl ?_
        rw [List.append_assoc]
        exact delivered.append _
      · obtain ⟨m', done, climbs⟩ := escapes.stmt
        -- The signal has come out of the inner statement, and what follows is the rest of the plan.
        have follows : Climbs signal s (mid ++ (next (.ok signal m')).remainder course outer start) inner
            ((next (.ok signal m')).remainder course outer start) := climbs.append _
        simp only [outcome, done, List.append_assoc]
        change Delivers signal s (mid ++ (next (.ok signal m')).remainder course outer start) ∨ _
        by_cases takes : hold.takes signal = true
        · obtain ⟨e, rest, begins, taken⟩ := treats.takes signal m' sends.sent takes
          rw [begins] at follows
          exact .inl ⟨inner, outer, hold, e, rest, by rwa [begins], held, takes, taken⟩
        · obtain ⟨m'', passed⟩ := treats.passes signal m' sends.sent (by simpa using takes)
          rw [passed] at follows ⊢
          exact .inr ⟨m'', rfl, .through follows held (by simpa using takes)⟩
    · exact ih _ (fun e member => rooted e (List.mem_append_right _ member)) later
  | @other a m next other resume ih =>
    rcases split_append split with ⟨mid, within, rfl⟩ | ⟨pre, rfl, later⟩
    · have inside : Rooted (course.history a m) := fun e member => rooted e (List.mem_append_left _ member)
      rcases each a m inside before mid s n signal n' within sends with delivered | escapes
      · refine .inl ?_
        rw [List.append_assoc]
        exact delivered.append _
      · obtain ⟨root, same⟩ := escapes.is_stmt
        exact absurd same (other root)
    · exact ih _ (fun e member => rooted e (List.mem_append_right _ member)) later

theorem Plan.Asks.relayed {P : Stmt → Prop} {plan : Plan α} (asks : plan.Asks P)
    (contained : ∀ s, P s → ∀ m signal m', course.perform (.stmt s) m = .ok signal m' → ¬signal.Sent)
    (rooted : Rooted (plan.events course.perform course.history)) {before after : List Event} {s : Stmt}
    {n n' : Machine} {signal : Signal}
    (split : plan.events course.perform course.history = before ++ .ended (.stmt s) n (.ok signal n') :: after)
    (sends : s.Sends signal) : Delivers signal s after := by
  induction plan generalizing before with
  | done outcome => simp [events] at split
  | ask a m next ih =>
    rcases split_append split with ⟨mid, within, rfl⟩ | ⟨pre, rfl, later⟩
    · have inside : Rooted (course.history a m) := fun e member => rooted e (List.mem_append_left _ member)
      rcases each a m inside before mid s n signal n' within sends with delivered | escapes
      · exact delivered.append _
      · obtain ⟨root, rfl⟩ := escapes.is_stmt
        obtain ⟨m', done, -⟩ := escapes.stmt
        exact absurd sends.sent (contained root (asks.1 root rfl) m signal m' done)
    · exact ih _ (asks.2 _) (fun e member => rooted e (List.mem_append_right _ member)) later

end

def Course.fuelled (fuel : Nat) : Course where
  perform := Treewalk.perform fuel
  history := Treewalk.history fuel
  starts a m := by
    cases fuel with
    | zero => exact ⟨_, rfl⟩
    | succ fuel => exact ⟨_, rfl⟩

theorem mem_bodyParts {ss : List Stmt} {s : Stmt} (member : s ∈ ss) (p : Place) :
    ∃ q, (q, Item.stmt s) ∈ bodyParts p ss ∧ q.context = p.context := by
  induction ss generalizing p with
  | nil => cases member
  | cons first rest ih =>
    rcases List.mem_cons.mp member with rfl | later
    · exact ⟨p, by simp [bodyParts], rfl⟩
    · obtain ⟨q, found, same⟩ := ih later (p.after first)
      refine ⟨q, by simp [bodyParts, found], same.trans ?_⟩
      unfold Place.after
      split <;> rfl

/-- A statement of the body of a function does not end with a signal for something outside the function. -/
theorem contained_of_body {p : Place} {role : FunctionRole} {decl : FunctionDecl} {body : List Stmt}
    (stands : At .lax (Place.callee p role decl) (.body body)) {s : Stmt} (member : s ∈ body) (fuel : Nat)
    {m m' : Machine} {signal : Signal} (done : perform fuel (.stmt s) m = .ok signal m') : ¬signal.Sent := by
  obtain ⟨q, found, same⟩ := mem_bodyParts member (Place.callee p role decl)
  have allows : q.context.Allows signal := perform_contains fuel q s m (stands.part found) signal m' done
  rw [same] at allows
  rcases Context.Allows.returns allows with rfl | ⟨value, rfl⟩
  · exact id
  · exact id

theorem Activity.plan_asks {a : Activity} (other : ∀ s, a ≠ .stmt s) (fuel : Nat) (m : Machine) :
    (a.plan fuel m).Asks fun s => ∃ body ∈ (Event.started a m).calledBody?, s ∈ body := by
  have comp := asks_compositional fun s => ∃ body ∈ (Event.started a m).calledBody?, s ∈ body
  cases a with
  | stmt s => exact absurd rfl (other s)
  | text value => exact comp.textOf value m
  | expr e =>
    refine comp.evalExpr (fun ref site value _ => ?_) (fun object name site value qualified _ => ?_)
      (fun c args generics line => ?_) m
    · exact comp.assign (fun ref value => comp.writeVariable (fun _ _ _ _ => trivial) ref value) ref site value
    · refine comp.setProperty (fun target name value qualified => ?_) object name site value qualified
      exact comp.setMember (fun _ _ _ _ => trivial) (fun _ _ _ _ => trivial) target name value qualified
    · exact comp.construct (fun _ _ => trivial) (fun _ _ _ => trivial) c args generics line
  | call f args generics line =>
    refine comp.callFunction (fun body closure found cells => ?_) args generics line m
    have each (s : Stmt) (member : s ∈ body) (m' : Machine) :
        (Run.exec s m').Asks fun s => ∃ body ∈ (Event.started (.call f args generics line) m).calledBody?, s ∈ body := by
      refine ⟨fun inner same => ⟨body, ?_, ?_⟩, fun _ => trivial⟩
      · simp [Event.calledBody?, found]
      · cases same
        exact member
    refine comp.bind (comp.addScope _) fun scope m' => (comp.stmts each _).andThen fun outcome => ?_
    cases outcome <;> trivial

theorem history_relayed (fuel : Nat) (a : Activity) (m : Machine) (rooted : Rooted (history fuel a m)) :
    Relayed a (perform fuel a m) (history fuel a m) := by
  induction fuel generalizing a m with
  | zero =>
    intro before after s n signal n' split sends
    have member : Event.ended (.stmt s) n (.ok signal n') ∈ history 0 a m := by simp [split]
    rcases List.mem_cons.mp member with same | last
    · cases same
    · cases List.mem_singleton.mp last
  | succ fuel ih =>
    intro before after s n signal n' split sends
    have inside : Rooted ((a.plan fuel m).events (perform fuel) (history fuel)) := fun e member =>
      rooted e (by simp [history, member])
    rcases split_append split with ⟨mid, within, rfl⟩ | ⟨pre, rfl, last⟩
    · cases before with
      | nil => cases within
      | cons first before =>
        simp only [List.cons_append, List.cons.injEq] at within
        obtain ⟨-, within⟩ := within
        by_cases isStmt : ∃ root, a = .stmt root
        · obtain ⟨root, rfl⟩ := isStmt
          have relays := Evaluator.evalStmt_relays (.fuelled fuel) m root fuel m
          rcases relays.relayed (.fuelled fuel) ih inside within sends with delivered | ⟨m', done, climbs⟩
          · exact .inl delivered
          · exact .inr (.intro done climbs)
        · have asks := Activity.plan_asks (fun root same => isStmt ⟨root, same⟩) fuel m
          refine .inl (.append (Plan.Asks.relayed (.fuelled fuel) ih asks ?_ inside within sends) _)
          rintro inner ⟨body, called, member⟩ m₁ left m₂ done
          obtain ⟨p, role, decl, stands⟩ := rooted _ List.mem_cons_self body called
          exact contained_of_body stands member fuel done
    · -- The end of the activity itself.
      cases pre with
      | nil =>
        simp only [List.nil_append, List.cons.injEq] at last
        obtain ⟨same, rfl⟩ := last
        generalize perform (fuel + 1) a m = outcome at same ⊢
        cases same
        exact .inr (.intro rfl .here)
      | cons first pre => simp at last

theorem Runs.delivers {m m' : Machine} {H : List Event} (run : Runs (fun _ => True) m H m') (rooted : Rooted H)
    {before after : List Event} {s : Stmt} {n n' : Machine} {signal : Signal}
    (split : H = before ++ .ended (.stmt s) n (.ok signal n') :: after) (sends : s.Sends signal) :
    Delivers signal s after := by
  induction run generalizing before after with
  | refl => simp at split
  | @stmt _ H root earlier accepted _ fuel ih =>
    rcases split_append split with ⟨mid, within, rfl⟩ | ⟨pre, rfl, later⟩
    · exact (ih (fun e member => rooted e (List.mem_append_left _ member)) within).append _
    · have inside : Rooted (history fuel (.stmt root) _) := fun e member =>
        rooted e (List.mem_append_right _ member)
      rcases history_relayed fuel _ _ inside pre after s n signal n' later sends with delivered | escapes
      · exact delivered
      · obtain ⟨left, done, -⟩ := escapes.stmt
        have normal : signal = .normal :=
          (perform_contains fuel {} root _ (accepted.at trivial) signal left done).normal
        subst normal
        exact sends.sent.elim
  | @value _ H e earlier accepted _ fuel ih =>
    rcases split_append split with ⟨mid, within, rfl⟩ | ⟨pre, rfl, later⟩
    · exact (ih (fun e member => rooted e (List.mem_append_left _ member)) within).append _
    · have inside : Rooted (history fuel (.expr e) _) := fun e member =>
        rooted e (List.mem_append_right _ member)
      rcases history_relayed fuel _ _ inside pre after s n signal n' later sends with delivered | escapes
      · exact delivered
      · exact escapes.elim
  | @global m₁ H earlier name fuel ih =>
    rcases split_append split with ⟨mid, within, rfl⟩ | ⟨pre, rfl, later⟩
    · exact (ih (fun e member => rooted e (List.mem_append_left _ member)) within).append _
    · have inside : Rooted (Machine.globalEvents fuel name _) := fun e member =>
        rooted e (List.mem_append_right _ member)
      unfold Machine.globalEvents at later inside
      split at later
      · simp at later
      · rename_i cell found
        simp only [found] at inside
        have silent := Evaluator.silent.readCell cell 0 m₁
        exact silent.relayed (.fuelled fuel) (history_relayed fuel) (fun _ none => none.elim) inside later sends
  | host _ _ _ ih => exact ih rooted split

/-- Every signal reaches the innermost statement around it that takes it. No statement in between does anything
but to end with the signal, and the one that takes it goes on at once. -/
theorem signals_delivered {H : List Event} {m : Machine} (reached : Reached H m) {before after : List Event}
    {s : Stmt} {n n' : Machine} {signal : Signal}
    (split : H = before ++ .ended (.stmt s) n (.ok signal n') :: after) (sends : s.Sends signal) :
    Delivers signal s after := by
  obtain ⟨echo, clock, run⟩ := id reached
  exact run.delivers (fun e member body called => reached.calledBody_at member called) split sends

def Event.breaks : Event → Bool
  | .ended (.stmt (.breaking _)) _ (.ok .breaking _) => true
  | _ => false

theorem Event.breaks_cases {e : Event} (breaks : e.breaks = true) :
    ∃ line n n', e = .ended (.stmt (.breaking line)) n (.ok .breaking n') := by
  unfold Event.breaks at breaks
  split at breaks
  · exact ⟨_, _, _, rfl⟩
  · cases breaks

/-- A loop that is broken off from within a block in a condition. -/
def breakingSource : String :=
  "while (true) \x7b if (true) \x7b break; \x7d \x7d"

set_option maxRecDepth 100000 in
theorem signals_delivered_breaking :
    ∃ H m before after line n n', Reached H m ∧
      H = before ++ .ended (.stmt (.breaking line)) n (.ok .breaking n') :: after ∧
        Delivers .breaking (.breaking line) after := by
  have reached := Reached.text 20 breakingSource
  have some : ((Session.start {}).events 20 breakingSource).any Event.breaks = true := by decide +kernel
  obtain ⟨e, member, breaks⟩ := List.any_eq_true.mp some
  obtain ⟨line, n, n', rfl⟩ := Event.breaks_cases breaks
  obtain ⟨before, after, split⟩ := List.append_of_mem member
  exact ⟨_, _, before, after, line, n, n', reached, split, signals_delivered reached split (.breaking line)⟩

end Treewalk
