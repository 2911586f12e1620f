import Treewalk.Proofs.MatchStmt
import Treewalk.Proofs.Trail

/-!
Machines at the moments of a run. The scopes of functions, classes and instances are in the heap at every
moment, and so are the scopes around them, which are older. This comes of running a machine beside itself.
-/

namespace Treewalk

open Tie

/-- Two machines with the same scopes, which may differ in what their error texts begin with. -/
def Tie.plain (before : String × String) : Tie where
  own _ := False
  dead _ := False
  focus := none
  before := before
  pace := .even
  dead_own _ impossible := impossible
  focus_own _ impossible := by cases impossible
  focus_alive _ impossible := by cases impossible

/-- All scopes of a machine are as they should be. -/
structure Machine.Settled (m : Machine) : Prop where
  guarded : (Tie.plain ("", "")).Guarded m.heap
  scope : m.scope.index < m.heap.scopes.size

variable {m : Machine} {h : Heap} {r : Ref .scope} {seat : Seat} {before : String × String}

theorem Tie.Guarded.replain {before' : String × String} (guarded : (plain before).Guarded h) :
    (plain before').Guarded h :=
  guarded.transfer (.refl h) guarded.older (fun _ impossible => impossible.elim)
    (fun _ _ impossible => impossible) rfl

theorem Machine.Settled.holds (settled : m.Settled) {err : String}
    (texts : ∃ text, m.err = before.1 ++ text ∧ err = before.2 ++ text) :
    (plain before).Holds m m.heap.scopes err :=
  ⟨texts, .refl _ rfl, settled.guarded.replain, settled.scope⟩

theorem Tie.Holds.scopes_eq {S : Array Scope} {err : String} (held : (plain before).Holds m S err) :
    S = m.heap.scopes := by
  have size : S.size = m.heap.scopes.size := held.alike.size
  refine Array.ext size fun i inside inside' => ?_
  have same : (m.heap.rescoped S).scope ⟨i⟩ = m.heap.scope ⟨i⟩ := held.alike.same ⟨i⟩ id
  have left : (m.heap.rescoped S).scope ⟨i⟩ = S[i] := by simp [Heap.scope, Heap.rescoped, inside]
  have right : m.heap.scope ⟨i⟩ = m.heap.scopes[i] := by simp [Heap.scope, inside']
  rw [← left, ← right, same]

theorem Tie.Holds.settled {S : Array Scope} {err : String} (held : (plain before).Holds m S err) : m.Settled :=
  ⟨held.guarded.replain, held.scope⟩

theorem Tie.Agree.settled {R : Heap → α → α → Prop} {outcome outcome' : Outcome α}
    (agree : (plain before).Agree h r R outcome outcome') : outcome.machine.Settled := by
  cases agree with
  | ok held => exact held.settled
  | error _ held => exact held.settled
  | first ahead => cases ahead
  | second ahead => cases ahead

/-- An activity that goes on in the same way on the machine beside. -/
def Tie.Meets (T : Tie) (m : Machine) : Activity → Prop
  | .expr e => ∃ seat e', T.Seated m.heap seat m.scope ∧ Paired seat (.expr e) (.expr e')
  | .stmt s => ∃ seat s', T.Seated m.heap seat m.scope ∧ Paired seat (.stmt s) (.stmt s')
  | .call f _ _ _ => T.Bears m.heap f
  | .text _ => True

theorem Tie.Ready.meets {T : Tie} {a : Activity} (ready : T.Ready m.heap a) : T.Meets m a := by
  cases a with
  | expr | stmt => exact ready.elim
  | call => exact ready
  | text => trivial

/-- What happens while a plan is carried out that matches another one. -/
theorem Plan.Matched.events_each {E : Event → Prop} {R : Heap → α → α → Prop} {plan plan' : Plan α}
    {act act' : (a : Activity) → Machine → Outcome a.Result} {history : Activity → Machine → List Event}
    (matched : Plan.Matched (.plain before) h r R plan plan') (synchronous : (Tie.plain before).Synchronous act act')
    (watched : ∀ a m S err, (Tie.plain before).Holds m S err → (Tie.plain before).Meets m a →
      ∀ e ∈ history a m, E e) :
    ∀ e ∈ plan.events act history, E e := by
  induction matched with
  | done => simp [Plan.events]
  | first ahead => cases ahead
  | second ahead => cases ahead
  | @expr _ x _ _ _ _ _ _ held _ seated paired _ ih =>
    intro e member
    rcases List.mem_append.mp member with now | later
    · exact watched (.expr x) _ _ _ held ⟨_, _, seated, paired⟩ e now
    · exact ih _ _ (synchronous.expr held seated paired) e later
  | @stmt _ x _ _ _ _ _ _ held _ seated paired _ ih =>
    intro e member
    rcases List.mem_append.mp member with now | later
    · exact watched (.stmt x) _ _ _ held ⟨_, _, seated, paired⟩ e now
    · exact ih _ _ (synchronous.stmt held seated paired) e later
  | ask held _ ready _ ih =>
    intro e member
    rcases List.mem_append.mp member with now | later
    · exact watched _ _ _ _ held ready.meets e now
    · exact ih _ _ (synchronous.other held ready) e later

/-- The plan of an activity beside the plan of the same activity on the other machine, or of one that is
paired with it. -/
theorem Tie.Meets.plan {T : Tie} {S : Array Scope} {err : String} {a : Activity} (meets : T.Meets m a)
    (held : T.Holds m S err) (fuel : Nat) :
    ∃ (R : Heap → a.Result → a.Result → Prop) (plan' : Plan a.Result),
      Plan.Matched T m.heap m.scope R (a.plan fuel m) plan' := by
  cases a with
  | expr e =>
    obtain ⟨seat, e', seated, paired⟩ := meets
    exact ⟨_, _, Evaluator.evalExpr_matches seated paired m S err held (.refl _) rfl⟩
  | stmt s =>
    obtain ⟨seat, s', seated, paired⟩ := meets
    exact ⟨_, _, Evaluator.evalStmt_matches (.refl T.pace fuel) seated paired m S err held (.refl _) rfl⟩
  | call f args generics line =>
    exact ⟨_, _, Evaluator.callFunction_matches meets args generics line m S err held (.refl _) rfl⟩
  | text value => exact ⟨_, _, Evaluator.textOf_matches value m S err held (.refl _) rfl⟩

/-- By induction on the fuel: what is true whenever an activity starts that goes on in the same way on the machine
beside, and whenever one ends on a settled machine, is true of all that happens. -/
theorem history_each {E : Event → Prop}
    (starts : ∀ a m S err, (plain before).Holds m S err → (plain before).Meets m a → E (.started a m))
    (ends : ∀ a m outcome, outcome.machine.Settled → E (.ended a m outcome)) (fuel : Nat) (a : Activity) (m : Machine)
    (S : Array Scope) (err : String) (held : (plain before).Holds m S err) (meets : (plain before).Meets m a) :
    ∀ e ∈ history fuel a m, E e := by
  induction fuel generalizing a m S err with
  | zero =>
    intro e member
    simp only [history, List.mem_cons, List.not_mem_nil, or_false] at member
    rcases member with rfl | rfl
    · exact starts a m S err held meets
    · exact ends a m _ held.settled
  | succ fuel ih =>
    obtain ⟨R, plan', matched⟩ := meets.plan held fuel
    have synchronous := (plain before).synchronous fuel
    intro e member
    simp only [history, List.cons_append, List.mem_cons, List.mem_append, List.not_mem_nil, or_false] at member
    rcases member with rfl | during | rfl
    · exact starts a m S err held meets
    · exact matched.events_each synchronous ih e during
    · exact ends a m _ (matched.outcome synchronous).settled

/-- The machine is settled whenever an activity starts or ends. -/
theorem history_settled (fuel : Nat) (a : Activity) (m : Machine) (S : Array Scope) (err : String)
    (held : (plain before).Holds m S err) (meets : (plain before).Meets m a) :
    ∀ e ∈ history fuel a m, e.machine.Settled :=
  history_each (E := fun e => e.machine.Settled) (fun _ _ _ _ held _ => held.settled) (fun _ _ _ settled => settled)
    fuel a m S err held meets

/-! Runs. -/

theorem initialHeap_guarded : (Tie.plain before).Guarded initialHeap := by
  have globals : (Tie.plain before).Clear initialHeap .globals :=
    .intro Nat.one_pos id fun p impossible => by cases impossible
  refine ⟨globals, rfl, fun r p around => ?_, fun _ impossible => impossible.elim, fun f body closure user => ?_,
    fun c => ?_, fun o s member => ?_⟩
  · have inside := Heap.lt_of_enclosing (by rw [around]; rfl)
    obtain ⟨i⟩ := r
    obtain rfl : i = 0 := Nat.lt_one_iff.mp inside
    cases around
  · by_cases inside : f.index < initialHeap.functions.size
    · obtain ⟨native, found, -⟩ := World.initial_native inside
      rw [found] at user
      cases user
    · simp [Heap.function, Array.getElem?_eq_none (Nat.le_of_not_lt inside)] at user
      cases user
  · obtain ⟨i⟩ := c
    match i with
    | 0 => exact globals
    | i + 1 => exact globals
  · cases member

/-- A machine that is settled and runs nothing. -/
structure Machine.Rests (m : Machine) : Prop where
  settled : m.Settled
  scope : m.scope = .globals

namespace Machine.Rests

variable (rests : m.Rests)

include rests

theorem seated : (plain before).Seated m.heap .free m.scope := by
  rw [rests.scope]
  exact .free rests.settled.guarded.replain.globals

theorem beside : (plain ("", "")).Holds m m.heap.scopes m.err :=
  rests.settled.holds ⟨m.err, by simp, by simp⟩

end Machine.Rests

theorem Tie.Agree.rests {R : Heap → α → α → Prop} {outcome outcome' : Outcome α}
    (agree : (plain before).Agree h .globals R outcome outcome') : outcome.machine.Rests := by
  refine ⟨agree.settled, ?_⟩
  cases agree with
  | ok _ _ scope => exact scope
  | error _ _ _ scope => exact scope
  | first ahead => cases ahead
  | second ahead => cases ahead

theorem Machine.Rests.global (rests : m.Rests) (fuel : Nat) (name : String) :
    (∀ e ∈ m.globalEvents fuel name, e.machine.Settled) ∧ (m.global fuel name).2.Rests := by
  unfold Machine.globalEvents
  cases found : m.heap.here? .globals name with
  | none =>
    rw [Machine.global, found]
    exact ⟨by simp, rests⟩
  | some cell =>
    have matched := Evaluator.readCell_matches cell 0 m _ _ rests.beside (.refl _) rfl
    have synchronous := (plain ("", "")).synchronous fuel
    rw [Machine.global_machine found]
    refine ⟨matched.events_each synchronous (history_settled fuel), ?_⟩
    rw [rests.scope] at matched
    exact (matched.outcome synchronous).rests

theorem Runs.settled {allowed : Stmt → Prop} {m m' : Machine} {H : List Event} (run : Runs allowed m H m')
    (rests : m.Rests) : (∀ e ∈ H, e.machine.Settled) ∧ m'.Rests := by
  have both {H H' : List Event} (first : ∀ e ∈ H, e.machine.Settled) (second : ∀ e ∈ H', e.machine.Settled) :
      ∀ e ∈ H ++ H', e.machine.Settled := fun e member =>
    (List.mem_append.mp member).elim (first e) (second e)
  induction run with
  | refl => exact ⟨by simp, rests⟩
  | @stmt m' H s _ _ _ fuel ih =>
    obtain ⟨earlier, there⟩ := ih
    have agree := ((plain ("", "")).synchronous fuel).stmt there.beside there.seated
      (Paired.freeStmt s)
    rw [there.scope] at agree
    refine ⟨both earlier (history_settled fuel _ _ _ _ there.beside ?_), agree.rests⟩
    exact ⟨.free, s, there.seated, Paired.freeStmt s⟩
  | @value m' H x _ _ _ fuel ih =>
    obtain ⟨earlier, there⟩ := ih
    have agree := ((plain ("", "")).synchronous fuel).expr there.beside there.seated
      (Paired.freeExpr x)
    rw [there.scope] at agree
    refine ⟨both earlier (history_settled fuel _ _ _ _ there.beside ?_), agree.rests⟩
    exact ⟨.free, x, there.seated, Paired.freeExpr x⟩
  | global _ name fuel ih =>
    obtain ⟨earlier, there⟩ := ih
    obtain ⟨during, after⟩ := there.global fuel name
    exact ⟨both earlier during, after⟩
  | host _ heap scope ih =>
    obtain ⟨earlier, there⟩ := ih
    refine ⟨earlier, ⟨?_, ?_⟩, scope.trans there.scope⟩
    · rw [heap]
      exact there.settled.guarded
    · rw [heap, scope]
      exact there.settled.scope

theorem Reached.settled {H : List Event} (reached : Reached H m) :
    (∀ n ∈ moments H m, n.Settled) ∧ m.Rests := by
  obtain ⟨echo, clock, run⟩ := reached
  obtain ⟨earlier, last⟩ := run.settled ⟨⟨initialHeap_guarded, Nat.one_pos⟩, rfl⟩
  refine ⟨fun n member => ?_, last⟩
  rcases List.mem_append.mp member with before | now
  · obtain ⟨e, among, rfl⟩ := List.mem_map.mp before
    exact earlier e among
  · obtain rfl : n = m := by simpa using now
    exact last.settled

end Treewalk
