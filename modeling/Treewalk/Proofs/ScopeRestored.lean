import Treewalk.Proofs.Pervasive
import Treewalk.Proofs.History

/-!
The scope of the machine. Computations enter scopes and leave them again, whichever way they end. So an activity
leaves the machine in the scope in which it found it, and what a session runs on its top level is run in the
global scope, after whatever has failed before.
-/

namespace Treewalk

/-- A plan ends in a scope, if every activity that it asks for ends in the scope in which it starts. -/
def Plan.EndsIn (r : Ref .scope) : Plan α → Prop
  | .done outcome => outcome.machine.scope = r
  | .ask _ m next => ∀ outcome, outcome.machine.scope = m.scope → (next outcome).EndsIn r

def Run.Restores (c : Run α) : Prop :=
  ∀ m, (c m).EndsIn m.scope

namespace Plan.EndsIn

variable {r r' : Ref .scope}

theorem andThen {plan : Plan α} {f : Outcome α → Plan β} (first : plan.EndsIn r)
    (next : ∀ outcome, outcome.machine.scope = r → (f outcome).EndsIn r') : (plan.andThen f).EndsIn r' := by
  induction plan with
  | done outcome => exact next outcome first
  | ask a m rest ih => exact fun outcome back => ih outcome (first outcome back)

theorem outcome {act : (a : Activity) → Machine → Outcome a.Result}
    (back : ∀ a m, (act a m).machine.scope = m.scope) {plan : Plan α} (ends : plan.EndsIn r) :
    (plan.outcome act).machine.scope = r := by
  induction plan with
  | done outcome => exact ends
  | ask a m next ih => exact ih (act a m) (ends (act a m) (back a m))

end Plan.EndsIn

namespace Run.Restores

theorem bind {c : Run α} {f : α → Run β} (first : c.Restores) (next : ∀ a, (f a).Restores) :
    (c >>= f).Restores := by
  intro m
  refine (first m).andThen fun outcome back => ?_
  cases outcome with
  | ok a after =>
    have further := next a after
    rw [show after.scope = m.scope from back] at further
    exact further
  | error reason after => exact back

theorem ask (a : Activity) : (Run.ask a).Restores :=
  fun _ _ back => back

theorem allocate (f : Heap → α × Heap) : (Run.allocate f).Restores :=
  fun _ => rfl

theorem update (f : Heap → Heap) : (Run.update f).Restores :=
  fun _ => rfl

/-- A computation in another scope need not come back by itself. -/
theorem inScope (r : Ref .scope) {c : Run α} (inner : c.Restores) : (Run.inScope r c).Restores := by
  intro m
  refine (inner { m with scope := r }).andThen fun outcome _ => ?_
  cases outcome with
  | ok a after => exact rfl
  | error reason after => exact rfl

theorem catching {body : Run α} {handler : RuntimeError → Run α} (inner : body.Restores)
    (handles : ∀ e, (handler e).Restores) : (Run.catching body handler).Restores := by
  intro m
  refine (inner m).andThen fun outcome back => ?_
  match outcome, back with
  | .ok _ _, back => exact back
  | .error .crash _, back | .error .outOfFuel _, back => exact back
  | .error (.fault e) after, back =>
    have handled := handles e after
    rw [show after.scope = m.scope from back] at handled
    exact handled

end Run.Restores

theorem restores_compositional : Compositional Run.Restores where
  pure _ _ := rfl
  bind := .bind
  stop _ _ := rfl
  get _ := rfl
  quiet quiet m := by
    obtain ⟨a, after, done, -, scope⟩ := quiet m
    rw [done]
    exact scope
  ask _ := .ask _
  addScope _ := .allocate _
  addFunction _ := .allocate _
  addArray _ := .allocate _
  addProperty _ := .allocate _
  addInterface _ := .allocate _
  addEnumeration _ := .allocate _
  setElement _ _ _ := .update _
  setCache _ _ := .update _

theorem restores_pervasive : Pervasive Run.Restores where
  toCompositional := restores_compositional
  exec _ := .ask _
  define _ _ _ := .update _
  addObject _ := .allocate _
  setFields _ _ := .update _
  setField _ _ _ := .update _
  setClassField _ _ _ := .update _
  inScope := .inScope
  catching := .catching
  declareClass := restores_compositional.declareClass (fun _ _ _ => .update _) (fun r _ => .inScope r)
    fun _ _ => restores_compositional.addClass (.allocate _) fun _ _ => .update _

/-- By induction on the fuel: an activity ends in the scope in which it starts. -/
theorem perform_scope (fuel : Nat) (a : Activity) (m : Machine) : (perform fuel a m).machine.scope = m.scope := by
  induction fuel generalizing a m with
  | zero => rfl
  | succ fuel ih => exact (restores_pervasive.plan a fuel m).outcome ih

/-! Sessions. -/

/-- The statements of a program that are run, up to the first fault, each with the machine on which it is run. -/
def Machine.executed (fuel : Nat) : List Stmt → Machine → List (Stmt × Machine)
  | [], _ => []
  | s :: rest, m =>
    (s, m) :: match perform fuel (.stmt s) m with
      | .ok _ after => executed fuel rest after
      | .error _ _ => []

def Session.executed (fuel : Nat) : List String → Session → List (Stmt × Machine)
  | [], _ => []
  | source :: rest, s =>
    (match s.load source with
      | (.error _, _) => []
      | (.ok program, after) => (after.machine.relabel (.link after.locals)).executed fuel
          (program.map (Stmt.relabel (.link after.locals)))) ++ executed fuel rest (s.run fuel source)

theorem Machine.interpret_scope (fuel : Nat) (program : List Stmt) (m : Machine) :
    (m.interpret fuel program).2.scope = m.scope := by
  induction program generalizing m with
  | nil => rfl
  | cons s rest ih =>
    have back := perform_scope fuel (.stmt s) m
    unfold Machine.interpret
    cases done : perform fuel (.stmt s) m with
    | ok signal after =>
      rw [done] at back
      exact (ih after).trans back
    | error reason after =>
      rw [done] at back
      exact back

theorem Machine.executed_scope (fuel : Nat) (program : List Stmt) (m : Machine) :
    ∀ x ∈ m.executed fuel program, x.2.scope = m.scope := by
  induction program generalizing m with
  | nil => simp [executed]
  | cons s rest ih =>
    intro x member
    have back := perform_scope fuel (.stmt s) m
    unfold executed at member
    rcases List.mem_cons.mp member with rfl | later
    · rfl
    · cases done : perform fuel (.stmt s) m with
      | ok signal after =>
        rw [done] at back later
        exact (ih after x later).trans back
      | error reason after =>
        rw [done] at later
        cases later

theorem Session.finish_scope (s : Session) (ended : Option Stop × Machine) :
    (s.finish ended).machine.scope = ended.2.scope := by
  rcases ended with ⟨_ | (_ | _ | _), after⟩ <;> rfl

theorem Session.runLoaded_scope (fuel : Nat) (loaded : Except Rejection (List Stmt) × Session) :
    (runLoaded fuel loaded).machine.scope = loaded.2.machine.scope := by
  obtain ⟨verdict, s⟩ := loaded
  cases verdict with
  | error rejection => rfl
  | ok program =>
    have back := (s.machine.relabel (.link s.locals)).interpret_scope fuel (program.map (Stmt.relabel (.link s.locals)))
    exact (s.finish_scope _).trans back

theorem Session.run_scope (fuel : Nat) (source : String) (s : Session) :
    (s.run fuel source).machine.scope = s.machine.scope := by
  rw [run, runLoaded_scope, (s.load_loads source).machine]

theorem Session.executed_scope (fuel : Nat) (sources : List String) (s : Session) :
    ∀ x ∈ s.executed fuel sources, x.2.scope = s.machine.scope := by
  induction sources generalizing s with
  | nil => simp [executed]
  | cons source rest ih =>
    intro x member
    unfold executed at member
    rcases List.mem_append.mp member with now | later
    · have same := (s.load_loads source).machine
      rcases loaded : s.load source with ⟨rejection | program, after⟩
      · rw [loaded] at now
        cases now
      · rw [loaded] at now same
        rw [← same]
        exact Machine.executed_scope fuel _ (after.machine.relabel (.link after.locals)) x now
    · exact (ih (s.run fuel source) x later).trans (s.run_scope fuel source)

/-- Whichever way an activity ends, the machine is in the scope again in which the activity started. In a session,
every statement on the top level of a text is run in the global scope. -/
theorem scopes_restored (fuel : Nat) :
    (∀ a m, (perform fuel a m).machine.scope = m.scope) ∧
      ∀ clock sources, ∀ x ∈ (Session.start clock).executed fuel sources, x.2.scope = .globals :=
  ⟨perform_scope fuel, fun clock sources => (Session.start clock).executed_scope fuel sources⟩

/-- A function that fails in a scope of its own, called within a handler of another failure. -/
def raisingSource : String :=
  "fun f() \x7b \x7b return -nil; \x7d \x7d \x7b try \x7b f(); \x7d catch \x7b f(); \x7d \x7d"

set_option maxRecDepth 100000 in
theorem executed_raisingSource :
    ((Session.start {}).executed 30 [raisingSource, "var y = 1;"]).map
      (fun x => (x.1.declares?.map Name.text, x.2.heap.scopes.size)) =
        [(some "f", 1), (none, 1), (some "y", 8)] := by
  decide +kernel

/-- After the failure the next text declares its variable in the global scope. -/
theorem scopes_restored_failing :
    ∃ x ∈ (Session.start {}).executed 30 [raisingSource, "var y = 1;"],
      x.1.declares?.map Name.text = some "y" ∧ x.2.heap.scopes.size = 8 ∧ x.2.scope = .globals := by
  have last : (some "y", 8) ∈ ((Session.start {}).executed 30 [raisingSource, "var y = 1;"]).map
      (fun x => (x.1.declares?.map Name.text, x.2.heap.scopes.size)) := by
    rw [executed_raisingSource]
    decide
  obtain ⟨x, member, same⟩ := List.mem_map.mp last
  obtain ⟨named, size⟩ := Prod.mk.inj same
  exact ⟨x, member, named, size, (scopes_restored 30).2 {} _ x member⟩

end Treewalk
