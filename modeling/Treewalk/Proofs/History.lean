import Treewalk.Proofs.Program
import Treewalk.Proofs.Safety

/-!
Runs and what happens in them. A history lists the moments of a run at which an activity begins or has come
to an outcome, in their order, with the machine as it is at each of them. A machine is reached by running
statements of programs one after another, from whichever texts they are taken and whether or not the
statements before them have failed; in between its globals may be read.
-/

namespace Treewalk

open Scoping

inductive Event where
  | started (a : Activity) (m : Machine)
  | ended (a : Activity) (m : Machine) (outcome : Outcome a.Result)

namespace Event

def machine : Event → Machine
  | .started _ m => m
  | .ended _ _ outcome => outcome.machine

/-- An accessor of an instance property is called that has been taken from the class. -/
def CallsUnbound : Event → Prop
  | .started (.call f _ _ _) m => m.heap.Unbound f
  | _ => False

/-- A declaration of a name in a scope has been completed. -/
def Declares (scope : Ref .scope) (name : String) : Event → Prop
  | .ended (.stmt s) m (.ok _ _) => m.scope = scope ∧ s.declares?.map Name.text = some name
  | _ => False

end Event

def Plan.events (perform : (a : Activity) → Machine → Outcome a.Result)
    (history : Activity → Machine → List Event) : Plan α → List Event
  | done _ => []
  | ask a m next => history a m ++ (next (perform a m)).events perform history

def history : Nat → Activity → Machine → List Event
  | 0, a, m => [.started a m, .ended a m (perform 0 a m)]
  | fuel + 1, a, m =>
    .started a m :: (a.plan fuel m).events (perform fuel) (history fuel) ++
      [.ended a m (perform (fuel + 1) a m)]

def Machine.globalEvents (fuel : Nat) (name : String) (m : Machine) : List Event :=
  match m.heap.here? .globals name with
  | none => []
  | some cell => (Evaluator.readCell cell 0 m).events (perform fuel) (history fuel)

theorem Machine.global_machine {m : Machine} {name : String} {cell : Cell}
    (found : m.heap.here? .globals name = some cell) (fuel : Nat) :
    (m.global fuel name).2 = ((Evaluator.readCell cell 0 m).outcome (perform fuel)).machine := by
  unfold Machine.global
  rw [found]
  simp only
  split <;> simp_all [Outcome.machine]

/-- A run from one machine to another, with its history. Every statement that is run is one of a program and
among the allowed ones. -/
inductive Runs (allowed : Stmt → Prop) : Machine → List Event → Machine → Prop where
  | refl (m : Machine) : Runs allowed m [] m
  | stmt {m m' : Machine} {H : List Event} {s : Stmt} (before : Runs allowed m H m')
      (accepted : Accepted s) (may : allowed s) (fuel : Nat) :
      Runs allowed m (H ++ history fuel (.stmt s) m') (perform fuel (.stmt s) m').machine
  | value {m m' : Machine} {H : List Event} {e : Expr} (before : Runs allowed m H m')
      (accepted : Accepted (.expr e)) (may : allowed (.expr e)) (fuel : Nat) :
      Runs allowed m (H ++ history fuel (.expr e) m') (perform fuel (.expr e) m').machine
  | global {m m' : Machine} {H : List Event} (before : Runs allowed m H m') (name : String) (fuel : Nat) :
      Runs allowed m (H ++ m'.globalEvents fuel name) (m'.global fuel name).2
  /-- From outside only what is printed and the clock can change. -/
  | host {m m' n : Machine} {H : List Event} (before : Runs allowed m H m') (heap : n.heap = m'.heap)
      (scope : n.scope = m'.scope) : Runs allowed m H n

/-- A machine that is reached from the initial one by a run with this history. -/
def Reached (H : List Event) (m : Machine) : Prop :=
  ∃ echo clock, Runs (fun _ => True) (.initial echo clock) H m

/-- The machines at all moments of a run, the last included. -/
def moments (H : List Event) (m : Machine) : List Machine :=
  H.map Event.machine ++ [m]

theorem last_mem_moments (H : List Event) (m : Machine) : m ∈ moments H m :=
  List.mem_append_right _ List.mem_cons_self

theorem Runs.trans {allowed : Stmt → Prop} {m m' m'' : Machine} {H H' : List Event}
    (first : Runs allowed m H m') (second : Runs allowed m' H' m'') : Runs allowed m (H ++ H') m'' := by
  induction second with
  | refl => simpa using first
  | stmt _ accepted may fuel ih =>
    rw [← List.append_assoc]
    exact .stmt ih accepted may fuel
  | value _ accepted may fuel ih =>
    rw [← List.append_assoc]
    exact .value ih accepted may fuel
  | global _ name fuel ih =>
    rw [← List.append_assoc]
    exact .global ih name fuel
  | host _ heap scope ih => exact .host ih heap scope

theorem Runs.mono {allowed allowed' : Stmt → Prop} {m m' : Machine} {H : List Event} (run : Runs allowed m H m')
    (more : ∀ s, allowed s → allowed' s) : Runs allowed' m H m' := by
  induction run with
  | refl => exact .refl m
  | stmt _ accepted may fuel ih => exact .stmt ih accepted (more _ may) fuel
  | value _ accepted may fuel ih => exact .value ih accepted (more _ may) fuel
  | global _ name fuel ih => exact .global ih name fuel
  | host _ heap scope ih => exact .host ih heap scope

def Machine.events (fuel : Nat) : List Stmt → Machine → List Event
  | [], _ => []
  | s :: rest, m =>
    history fuel (.stmt s) m ++
      match perform fuel (.stmt s) m with
      | .ok _ after => events fuel rest after
      | .error _ _ => []

/-- Whatever a machine does with a program, it is a run. -/
theorem Runs.interpret {allowed : Stmt → Prop} {program : List Stmt} (accepted : ∀ s ∈ program, Accepted s)
    (may : ∀ s ∈ program, allowed s) (fuel : Nat) (m : Machine) :
    Runs allowed m (m.events fuel program) (m.interpret fuel program).2 := by
  induction program generalizing m with
  | nil => exact .refl m
  | cons s rest ih =>
    have first := Runs.stmt (.refl m) (accepted s (by simp)) (may s (by simp)) fuel
    unfold Machine.interpret Machine.events
    cases done : perform fuel (.stmt s) m with
    | ok signal after =>
      rw [done] at first
      exact first.trans (ih (fun s member => accepted s (by simp [member]))
        (fun s member => may s (by simp [member])) after)
    | error stop after =>
      rw [done] at first
      simpa [Outcome.machine] using first

def Session.loadedEvents (fuel : Nat) : Except Rejection (List Stmt) × Session → List Event
  | (.error _, _) => []
  | (.ok program, s) =>
    (s.machine.relabel (.link s.locals)).events fuel (program.map (Stmt.relabel (.link s.locals)))

def Session.events (fuel : Nat) (source : String) (s : Session) : List Event :=
  loadedEvents fuel (s.load source)

theorem Runs.finish {allowed : Stmt → Prop} {m : Machine} {H : List Event} {ended : Option Stop × Machine}
    (run : Runs allowed m H ended.2) (s : Session) : Runs allowed m H (s.finish ended).machine := by
  rcases ended with ⟨_ | (e | _ | _), after⟩
  · exact run
  · exact .host run rfl rfl
  · exact run
  · exact run

/-- What a session does with a program that it has accepted is a run, if it does not change the distances that the
functions of the machine have. -/
theorem Session.runLoaded_runs {allowed : Stmt → Prop} {s : Session} {numbered linked : List Stmt}
    (fixed : s.machine.relabel (.link s.locals) = s.machine)
    (links : numbered.map (Stmt.relabel (.link s.locals)) = linked) (accepted : ∀ x ∈ linked, Accepted x)
    (may : ∀ x ∈ linked, allowed x) (fuel : Nat) :
    Runs allowed s.machine (loadedEvents fuel (.ok numbered, s)) (runLoaded fuel (.ok numbered, s)).machine := by
  unfold runLoaded loadedEvents Session.interpret
  dsimp only
  rw [fixed, links]
  exact (Runs.interpret accepted may fuel s.machine).finish s

/-- The functions of the machine before a program runs are native. -/
theorem Machine.initial_relabel (f : Reference → Reference) (echo : Bool) (clock : Clock) :
    (initial echo clock).relabel f = initial echo clock := by
  simp [relabel, initial, Heap.relabel, initialHeap, nativeGlobals, Function.ofNative, Function.relabel]

theorem Reached.text (fuel : Nat) (source : String) :
    Reached ((Session.start {}).events fuel source) ((Session.start {}).run fuel source).machine := by
  refine ⟨true, {}, ?_⟩
  unfold Session.events Session.run
  have loads := (Session.start {}).load_loads source
  generalize loaded : load source = verdict at loads
  generalize (Session.start {}).load source = result at loads ⊢
  cases loads with
  | rejected rejection => exact .host (.refl _) rfl rfl
  | accepted numbered linked le between alike links =>
    refine Session.runLoaded_runs (s := { Session.start {} with locals := _, nextId := _ })
      (Machine.initial_relabel _ _ _) (links _ ?_) (Accepted.of_alike loaded alike) (fun _ _ => trivial) fuel
    exact Locals.Between.agree_new (n := 0) Locals.between_nil

end Treewalk
