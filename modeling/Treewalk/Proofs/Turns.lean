import Treewalk.Proofs.IterationScopes
import Treewalk.Proofs.LoopRefinement
import Treewalk.Proofs.ScopeRestored

/-!
The rounds of a loop one after another. A loop comes to a round if its condition holds, and comes to the next one if the
body has not left the loop. Its variable holds a value at the beginning of each round and in the copy of the round, so
that the value can be written back in the end. No two rounds have the same scope.
-/

namespace Treewalk

open Evaluator

/-! Variables that are no properties. -/

def Heap.HoldsPlain (h : Heap) (r : Ref .scope) (name : String) : Prop :=
  ∃ cell value, h.here? r name = some cell ∧ cell.content = .plain value

namespace Heap.HoldsPlain

variable {h h' : Heap} {r : Ref .scope} {name : String}

theorem inside (plain : h.HoldsPlain r name) : r.index < h.scopes.size := by
  obtain ⟨cell, value, found, -⟩ := plain
  exact Heap.lt_of_here? (by rw [found]; rfl)

theorem spares {events : List Event} (plain : h.HoldsPlain r name) (spares : h.Spares r name events h') :
    h'.HoldsPlain r name := by
  obtain ⟨cell, value, found, content⟩ := plain
  cases spares with
  | untouched _ same => exact ⟨cell, value, same.trans found, content⟩
  | assigned _ _ _ _ held => exact ⟨_, _, held, rfl⟩

end Heap.HoldsPlain

section

variable {fuel : Nat} {m n : Machine} {r : Ref .scope} {name : String}

/-- What an activity leaves of a variable of a scope in which it runs no statement. -/
theorem perform_holdsPlain {a : Activity} (plain : m.heap.HoldsPlain r name)
    (apart : ∀ s, a = .stmt s → r ≠ m.scope) :
    (perform fuel a m).machine.heap.HoldsPlain r name ∧
      m.heap.scopes.size ≤ (perform fuel a m).machine.heap.scopes.size := by
  have spares := history_spares r name fuel a m plain.inside apart
  exact ⟨plain.spares spares.heap, spares.size⟩

/-- What an activity leaves of a variable of a scope in which it runs plain statements only. -/
theorem perform_keepsPlain {a : Activity} (plain : m.heap.HoldsPlain r name)
    (keeps : ∀ e ∈ history fuel a m, e.PlainIn r) : (perform fuel a m).machine.heap.HoldsPlain r name := by
  have along : SparesAlong r name m.heap (history fuel a m) := history_along fuel _ a m (.refl _) keeps
  obtain ⟨-, spares⟩ := along.spares plain.inside
  rw [heapAfter_history] at spares
  exact plain.spares spares

/-- The variable of a round is a copy, in a scope right inside that of the loop. -/
theorem Machine.inRound_holdsPlain {x : Name} (plain : m.heap.HoldsPlain m.scope x.text) :
    (m.inRound [x]).heap.HoldsPlain (m.inRound [x]).scope x.text ∧ (m.inRound [x]).heap.HoldsPlain m.scope x.text := by
  have inside := plain.inside
  obtain ⟨cell, value, found, content⟩ := plain
  constructor
  · refine ⟨cell, value, ?_, content⟩
    rw [Machine.inRound, Machine.copying, Heap.here?_addScope, if_pos rfl]
    simp [Heap.copies, found]
  · refine ⟨cell, value, ?_, content⟩
    rw [Machine.inRound, Machine.copying, Heap.here?_addScope, if_neg (Nat.ne_of_lt inside)]
    exact found

/-- A round that ends normally writes its copy back. -/
theorem iteration_holdsPlain {x : Name} {body : Stmt} {signal : Signal} (plain : m.heap.HoldsPlain m.scope x.text)
    (keeps : ∀ e ∈ history fuel (.stmt body) (m.inRound [x]), e.PlainIn (m.inRound [x]).scope)
    (done : (iteration body [x] m).outcome (perform fuel) = .ok signal n) :
    n.scope = m.scope ∧ n.heap.HoldsPlain m.scope x.text ∧ m.heap.scopes.size < n.heap.scopes.size := by
  obtain ⟨copy, home⟩ := Machine.inRound_holdsPlain plain
  have apart : m.scope ≠ (m.inRound [x]).scope := fun same => Nat.ne_of_lt plain.inside (congrArg Ref.index same)
  rw [iteration_eq] at done
  obtain ⟨_, middle, ran, rest⟩ := Run.outcome_bind_ok done
  obtain ⟨_, last, copied, ended⟩ := Run.outcome_bind_ok rest
  cases ended
  rw [block, stmts_one, Run.outcome_inScope] at ran
  have home' : (perform fuel (.stmt body) (m.inRound [x])).machine.heap.HoldsPlain m.scope x.text ∧
      (m.inRound [x]).heap.scopes.size ≤ (perform fuel (.stmt body) (m.inRound [x])).machine.heap.scopes.size :=
    perform_holdsPlain home fun _ _ => apart
  obtain ⟨cell, value, found, content⟩ := perform_keepsPlain copy keeps
  change (perform fuel (.stmt body) (m.inRound [x])).back m.scope = _ at ran
  cases performed : perform fuel (.stmt body) (m.inRound [x]) with
  | error reason after =>
    rw [performed] at ran
    cases ran
  | ok signal after =>
    rw [performed] at ran home' found
    cases ran
    have written : copyNames (m.inRound [x]).scope m.scope [x] { after with scope := m.scope } =
        .done (.ok () { after with scope := m.scope, heap := after.heap.define m.scope x.text cell }) :=
      copyNames_one found
    rw [show (⟨m.heap.scopes.size⟩ : Ref .scope) = (m.inRound [x]).scope from rfl, written] at copied
    cases copied
    refine ⟨rfl, ⟨cell, value, ?_, content⟩, ?_⟩
    · exact (Heap.here?_define ..).trans (if_pos ⟨rfl, rfl, home'.1.inside⟩)
    · have grown : (m.inRound [x]).heap.scopes.size = m.heap.scopes.size + 1 := by
        simp [Machine.inRound, Machine.copying, Heap.addScope]
      have size : (m.inRound [x]).heap.scopes.size ≤ after.heap.scopes.size := home'.2
      simp only [Heap.define, Array.size_modify]
      omega

end

/-! The rounds of a loop. -/

section

variable {act : (a : Activity) → Machine → Outcome a.Result} {condition : Expr} {body : Stmt} {increment : Option Expr}
  {names : List Name}

/-- A loop that may take so many rounds comes to one of them: the condition holds, and the scope of the round is about
to be opened. -/
inductive Turn (act : (a : Activity) → Machine → Outcome a.Result) (condition : Expr) (body : Stmt)
    (increment : Option Expr) (names : List Name) : Nat → Machine → Machine → Prop where
  | first {fuel : Nat} {m n : Machine} {value : Value} (holds : act (.expr condition) m = .ok value n)
      (truthy : value.isTruthy = true) : Turn act condition body increment names (fuel + 1) m n
  | next {fuel : Nat} {m m₁ m₂ m₃ n : Machine} {value : Value} {signal : Signal} {result : Option Value}
      (holds : act (.expr condition) m = .ok value m₁) (truthy : value.isTruthy = true)
      (done : (iteration body names m₁).outcome act = .ok signal m₂)
      (goesOn : signal = .normal ∨ signal = .continuing) (increased : (option increment m₂).outcome act = .ok result m₃)
      (later : Turn act condition body increment names fuel m₃ n) :
      Turn act condition body increment names (fuel + 1) m n

theorem Run.Restores.ends {c : Run α} (restores : c.Restores) (back : ∀ a m, (act a m).machine.scope = m.scope)
    {m n : Machine} {a : α} (done : (c m).outcome act = .ok a n) : n.scope = m.scope := by
  have scope := (restores m).outcome back
  rwa [done] at scope

theorem iteration_restores (body : Stmt) (names : List Name) : (iteration body names).Restores :=
  restores_compositional.iteration restores_pervasive.define restores_pervasive.block body names

/-- What a loop asks for: its condition and its increment, and the body once for each round. -/
theorem asked_whileLoop (back : ∀ a m, (act a m).machine.scope = m.scope) {fuel : Nat} {m : Machine}
    {x : Activity × Machine} (asked : x ∈ (whileLoop condition (iteration body names) increment fuel m).asked act) :
    (∃ e, x.1 = .expr e ∧ x.2.scope = m.scope) ∨
      ∃ n, x = (.stmt body, n.inRound names) ∧ Turn act condition body increment names fuel m n := by
  induction fuel generalizing m with
  | zero => cases asked
  | succ fuel ih =>
    rw [whileLoop_succ] at asked
    rcases Run.mem_asked_bind asked with first | ⟨value, m₁, holds, asked⟩
    · cases List.mem_singleton.mp first
      exact .inl ⟨condition, rfl, rfl⟩
    have same₁ : m₁.scope = m.scope := Run.Restores.ends (restores_compositional.eval condition) back holds
    by_cases truthy : value.isTruthy = true
    case neg =>
      rw [if_neg truthy] at asked
      cases asked
    rw [if_pos truthy] at asked
    rcases Run.mem_asked_bind asked with this | ⟨signal, m₂, done, later⟩
    · rw [asked_iteration] at this
      exact .inr ⟨m₁, List.mem_singleton.mp this, .first holds truthy⟩
    have same₂ : m₂.scope = m₁.scope := (iteration_restores body names).ends back done
    obtain ⟨goesOn, ⟨e, rfl⟩ | ⟨result, m₃, increased, again⟩⟩ := mem_asked_resume later
    · exact .inl ⟨e, rfl, same₂.trans same₁⟩
    · have same₃ : m₃.scope = m₂.scope := Run.Restores.ends (restores_compositional.option increment) back increased
      rcases ih again with ⟨e, expr, scope⟩ | ⟨n, round, turn⟩
      · exact .inl ⟨e, expr, scope.trans (same₃.trans (same₂.trans same₁))⟩
      · exact .inr ⟨n, round, .next holds truthy done goesOn increased turn⟩

theorem Turn.asked {fuel : Nat} {m n : Machine} (turn : Turn act condition body increment names fuel m n) :
    (.stmt body, n.inRound names) ∈ (whileLoop condition (iteration body names) increment fuel m).asked act := by
  induction turn with
  | first holds truthy =>
    rw [whileLoop_succ]
    refine Run.asked_of_bind holds ?_
    rw [if_pos truthy, Run.asked_bind, asked_iteration]
    exact List.mem_append_left _ List.mem_cons_self
  | next holds truthy done goesOn increased _ ih =>
    rw [whileLoop_succ]
    refine Run.asked_of_bind holds ?_
    rw [if_pos truthy]
    refine Run.asked_of_bind done ?_
    rw [resume_goesOn goesOn]
    exact Run.asked_of_bind increased ih

end

/-! What the rounds of a loop over one variable have in common. -/

section

variable {fuel turns : Nat} {m m₁ m₂ m₃ n n' : Machine} {condition : Expr} {body : Stmt} {increment : Option Expr}
  {x : Name}

theorem Run.SparesIn.holdsPlain {c : Run α} {r : Ref .scope} {name : String} {a : α}
    (spares : c.SparesIn (perform fuel) (history fuel) r name fun _ => True) (plain : m.heap.HoldsPlain r name)
    (done : (c m).outcome (perform fuel) = .ok a n) :
    n.scope = m.scope ∧ n.heap.HoldsPlain r name ∧ m.heap.scopes.size ≤ n.heap.scopes.size := by
  obtain ⟨heap, size, scope⟩ := spares m plain.inside trivial
  rw [done] at heap size scope
  exact ⟨scope, plain.spares heap, size⟩

/-- The body runs only plain statements in the scope of its round. -/
def RunsPlain (fuel : Nat) (body : Stmt) (x : Name) (m : Machine) : Prop :=
  ∀ e ∈ history fuel (.stmt body) (m.inRound [x]), e.PlainIn (m.inRound [x]).scope

theorem condition_holdsPlain {value : Value} (plain : m.heap.HoldsPlain m.scope x.text)
    (holds : perform fuel (.expr condition) m = .ok value m₁) :
    m₁.scope = m.scope ∧ m₁.heap.HoldsPlain m₁.scope x.text ∧ m.heap.scopes.size ≤ m₁.heap.scopes.size := by
  have comp := sparesIn_compositional (history_spares m.scope x.text fuel) fun _ => True
  obtain ⟨scope, still, size⟩ := (comp.eval condition).holdsPlain plain holds
  exact ⟨scope, scope ▸ still, size⟩

theorem round_holdsPlain {signal : Signal} {result : Option Value} (plain : m₁.heap.HoldsPlain m₁.scope x.text)
    (keeps : RunsPlain fuel body x m₁) (done : (iteration body [x] m₁).outcome (perform fuel) = .ok signal m₂)
    (increased : (option increment m₂).outcome (perform fuel) = .ok result m₃) :
    m₃.scope = m₁.scope ∧ m₃.heap.HoldsPlain m₃.scope x.text ∧ m₁.heap.scopes.size < m₃.heap.scopes.size := by
  obtain ⟨scope₂, plain₂, size₂⟩ := iteration_holdsPlain plain keeps done
  have comp := sparesIn_compositional (history_spares m₁.scope x.text fuel) fun _ => True
  obtain ⟨scope₃, plain₃, size₃⟩ := (comp.option increment).holdsPlain plain₂ increased
  have scope := scope₃.trans scope₂
  exact ⟨scope, scope ▸ plain₃, Nat.lt_of_lt_of_le size₂ size₃⟩

/-- When a round begins, the variable holds a value in the scope of the loop. -/
theorem Turn.holdsPlain (turn : Turn (perform fuel) condition body increment [x] turns m n)
    (plain : m.heap.HoldsPlain m.scope x.text)
    (keeps : ∀ n, Turn (perform fuel) condition body increment [x] turns m n → RunsPlain fuel body x n) :
    n.scope = m.scope ∧ n.heap.HoldsPlain n.scope x.text ∧ m.heap.scopes.size ≤ n.heap.scopes.size := by
  induction turn with
  | first holds truthy => exact condition_holdsPlain plain holds
  | next holds truthy done goesOn increased _ ih =>
    obtain ⟨scope₁, plain₁, size₁⟩ := condition_holdsPlain plain holds
    obtain ⟨scope₃, plain₃, size₃⟩ := round_holdsPlain plain₁ (keeps _ (.first holds truthy)) done increased
    obtain ⟨scope, still, size⟩ := ih plain₃ fun n later => keeps n (.next holds truthy done goesOn increased later)
    exact ⟨scope.trans (scope₃.trans scope₁), still, by omega⟩

theorem Turn.first_size {value : Value} {signal : Signal} {result : Option Value}
    (holds : perform fuel (.expr condition) m = .ok value m₁) (truthy : value.isTruthy = true)
    (done : (iteration body [x] m₁).outcome (perform fuel) = .ok signal m₂)
    (goesOn : signal = .normal ∨ signal = .continuing)
    (increased : (option increment m₂).outcome (perform fuel) = .ok result m₃)
    (later : Turn (perform fuel) condition body increment [x] turns m₃ n) (plain : m.heap.HoldsPlain m.scope x.text)
    (keeps : ∀ n, Turn (perform fuel) condition body increment [x] (turns + 1) m n → RunsPlain fuel body x n) :
    m₁.heap.scopes.size < n.heap.scopes.size := by
  obtain ⟨-, plain₁, -⟩ := condition_holdsPlain plain holds
  obtain ⟨-, plain₃, size₃⟩ := round_holdsPlain plain₁ (keeps _ (.first holds truthy)) done increased
  obtain ⟨-, -, size⟩ := later.holdsPlain plain₃ fun n later => keeps n (.next holds truthy done goesOn increased later)
  exact Nat.lt_of_lt_of_le size₃ size

/-- Two rounds of a loop do not begin on heaps of the same size. -/
theorem Turn.eq_of_size (turn : Turn (perform fuel) condition body increment [x] turns m n)
    (other : Turn (perform fuel) condition body increment [x] turns m n') (plain : m.heap.HoldsPlain m.scope x.text)
    (keeps : ∀ n, Turn (perform fuel) condition body increment [x] turns m n → RunsPlain fuel body x n)
    (same : n.heap.scopes.size = n'.heap.scopes.size) : n = n' := by
  induction turn with
  | first holds truthy =>
    cases other with
    | first holds' =>
      rw [holds] at holds'
      cases holds'
      rfl
    | next holds' truthy' done goesOn increased later =>
      have grown := Turn.first_size holds' truthy' done goesOn increased later plain keeps
      rw [holds] at holds'
      cases holds'
      exact absurd same (Nat.ne_of_lt grown)
  | next holds truthy done goesOn increased later ih =>
    cases other with
    | first holds' =>
      have grown := Turn.first_size holds truthy done goesOn increased later plain keeps
      rw [holds] at holds'
      cases holds'
      exact absurd same (Nat.ne_of_gt grown)
    | next holds' truthy' done' goesOn' increased' later' =>
      obtain ⟨-, plain₁, -⟩ := condition_holdsPlain plain holds
      obtain ⟨-, plain₃, -⟩ := round_holdsPlain plain₁ (keeps _ (.first holds truthy)) done increased
      rw [holds] at holds'
      cases holds'
      rw [done] at done'
      cases done'
      rw [increased] at increased'
      cases increased'
      exact ih later' plain₃ (fun n later => keeps n (.next holds truthy done goesOn increased later)) same

end

/-! Rounds in a run. -/

namespace ForLoop

/-- A round of a loop as it is performed: the block of the loop asks for the loop itself, and this for its body, in the
scope of the round. -/
structure Round (f : ForLoop) (block loop round : Task) : Prop where
  isBlock : block.activity = .stmt f.copying
  asksLoop : block.Asks loop
  isLoop : loop.activity = .stmt (.whileLoop f.condition f.body f.increment [f.decl.name])
  asksBody : loop.Asks round
  isBody : round.activity = .stmt f.body

variable {f : ForLoop} {block loop round : Task}

/-- The block asks for the declaration of the variable, and once that has been made, for the loop. -/
theorem asked_block {act : (a : Activity) → Machine → Outcome a.Result} {fuel : Nat} {m : Machine}
    {x : Activity × Machine} (asked : x ∈ ((Activity.stmt f.copying).plan fuel m).asked act) :
    x.1 = .stmt (.var f.decl) ∨ x.1 = .stmt (.whileLoop f.condition f.body f.increment [f.decl.name]) ∧
      act (.stmt (.var f.decl)) m.entering = .ok .normal x.2 := by
  have inner : ((Activity.stmt f.copying).plan fuel m).asked act =
      (stmts [.var f.decl, .whileLoop f.condition f.body f.increment [f.decl.name]] m.entering).asked act :=
    Run.asked_inScope _ _ _
  rw [inner] at asked
  rcases Run.mem_asked_bind asked with first | ⟨signal, after, done, later⟩
  · exact .inl (congrArg Prod.fst (List.mem_singleton.mp first))
  · cases signal with
    | normal =>
      change x ∈ (stmts [_] after).asked act at later
      rw [stmts_one] at later
      cases List.mem_singleton.mp later
      exact .inr ⟨rfl, done⟩
    | _ => cases later

theorem plan_loop (f : ForLoop) (fuel : Nat) (m : Machine) :
    (Activity.stmt (.whileLoop f.condition f.body f.increment [f.decl.name])).plan fuel m =
      whileLoop f.condition (iteration f.body [f.decl.name]) f.increment fuel m :=
  rfl

namespace Round

theorem declared (isRound : f.Round block loop round)
    (inside : loop.machine.scope.index < loop.machine.heap.scopes.size) :
    loop.machine.heap.HoldsPlain loop.machine.scope f.decl.name.text := by
  obtain ⟨fuel, a, m⟩ := block
  obtain ⟨fuel', b, n⟩ := loop
  obtain ⟨isBlock, ⟨-, asked⟩, isLoop, -, -⟩ := isRound
  cases isBlock
  cases isLoop
  obtain declaration | ⟨-, declared⟩ := asked_block asked
  · cases declaration
  · obtain ⟨-, cell, value, found, content⟩ := perform_var_bound declared inside
    exact ⟨cell, value, found, content⟩

theorem turn (isRound : f.Round block loop round) : loop.fuel = round.fuel + 1 ∧
    ∃ n, round.machine = n.inRound [f.decl.name] ∧
      Turn (perform round.fuel) f.condition f.body f.increment [f.decl.name] round.fuel loop.machine n := by
  obtain ⟨fuel, a, m⟩ := loop
  obtain ⟨turns, b, n⟩ := round
  obtain ⟨-, -, isLoop, ⟨same, asked⟩, isBody⟩ := isRound
  cases isLoop
  cases isBody
  refine ⟨same, ?_⟩
  rw [f.plan_loop] at asked
  rcases asked_whileLoop (perform_scope turns) asked with ⟨e, other, -⟩ | ⟨n, begins, turn⟩
  · cases other
  · cases begins
    exact ⟨n, rfl, turn⟩

theorem of_turn (isRound : f.Round block loop round) {n : Machine}
    (turn : Turn (perform round.fuel) f.condition f.body f.increment [f.decl.name] round.fuel loop.machine n) :
    f.Round block loop ⟨round.fuel, .stmt f.body, n.inRound [f.decl.name]⟩ := by
  obtain ⟨fuel, a, m⟩ := loop
  obtain ⟨isBlock, asksLoop, isLoop, ⟨same, -⟩, -⟩ := isRound
  cases isLoop
  refine ⟨isBlock, asksLoop, rfl, ⟨same, ?_⟩, rfl⟩
  rw [f.plan_loop]
  exact turn.asked

end Round

end ForLoop

end Treewalk
