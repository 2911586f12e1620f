import Treewalk.Proofs.Rounds

/-!
A loop that copies its variable for each time round does what the loop does that shares it. The two are run
from the same machine, and come to the same end with machines that differ in the scopes of the loop at most.
The second loop has its body in a block, for which it needs more fuel.
-/

namespace Treewalk

open Tie Scoping

variable {home r : Ref .scope} {name : String} {past : Ref .scope → Prop} {pace : Pace} {m n : Machine}
  {S : Array Scope} {err : String} {act act' : (a : Activity) → Machine → Outcome a.Result} {fuel fuel' : Nat}

namespace Pace.Fuels

theorem first_of_le (less : fuel ≤ fuel') : Pace.first.Fuels fuel fuel' := by
  induction fuel generalizing fuel' with
  | zero => exact .first rfl
  | succ fuel ih =>
    obtain ⟨fuel', rfl⟩ := Nat.exists_eq_succ_of_ne_zero (Nat.ne_of_gt (Nat.zero_lt_of_lt less))
    exact .more (ih (Nat.le_of_succ_le_succ less))

theorem second_of_le (less : fuel' ≤ fuel) : Pace.second.Fuels fuel fuel' := by
  induction fuel' generalizing fuel with
  | zero => exact .second rfl
  | succ fuel' ih =>
    obtain ⟨fuel, rfl⟩ := Nat.exists_eq_succ_of_ne_zero (Nat.ne_of_gt (Nat.zero_lt_of_lt less))
    exact .more (ih (Nat.le_of_succ_le_succ less))

theorem less (fuels : pace.Fuels (fuel + 1) (fuel' + 1)) : pace.Fuels fuel fuel' := by
  cases fuels with
  | more less => exact less

end Pace.Fuels

/-! The scope of the loop. -/

theorem Machine.Settled.clear (settled : m.Settled) (inside : r.index < m.heap.scopes.size) :
    (plain ("", "")).Clear m.heap r := by
  induction found : r.index using Nat.strongRecOn generalizing r with
  | ind index ih =>
    refine .intro inside id fun p around => ?_
    have older := settled.guarded.older r p around
    exact ih p.index (found ▸ older) (Nat.lt_trans older inside) rfl

def Machine.entering (m : Machine) : Machine :=
  { m with heap := (m.heap.child m.scope).2, scope := ⟨m.heap.scopes.size⟩ }

namespace Machine.Settled

variable (settled : m.Settled) (pace : Pace)

include settled

theorem entering_holds :
    (Tie.between ⟨m.heap.scopes.size⟩ (fun _ => False) pace).Holds m.entering m.entering.heap.scopes m.err where
  err := ⟨m.err, (String.empty_append).symm, (String.empty_append).symm⟩
  alike := .refl _ rfl
  guarded := by
    have grown := settled.guarded.addScope (s := ⟨some m.scope, .empty⟩) fun p member => by
      cases member
      exact settled.scope
    refine settled.guarded.transfer (.addScope _ _) grown.older (fun r mine => ?_) (fun r old mine => ?_) rfl
    · rcases mine with rfl | impossible
      · simp [Machine.entering, Heap.child, Heap.addScope]
      · exact impossible.elim
    · rcases mine with rfl | impossible
      · exact absurd old (Nat.lt_irrefl _)
      · exact impossible.elim
  scope := by simp [Machine.entering, Heap.child, Heap.addScope]

theorem entering_seated :
    (Tie.between ⟨m.heap.scopes.size⟩ (fun _ => False) pace).Seated m.entering.heap (.inside none)
      ⟨m.heap.scopes.size⟩ := by
  have later := Heap.Extends.addScope m.heap ⟨some m.scope, .empty⟩
  refine .home (p := m.scope) rfl (settled.entering_holds pace).scope (fun dead => dead.1) ?_ ?_
  · rw [Machine.entering, Heap.child, Heap.scope_addScope, if_pos rfl]
  · refine (settled.clear settled.scope).transfer later fun r old mine => ?_
    rcases mine with rfl | impossible
    · exact absurd old (Nat.lt_irrefl _)
    · exact impossible.elim

end Machine.Settled

/-! The declaration of the variable. -/

theorem Evaluator.defineChecked_done {x : Name} {cell : Cell} {after : Machine}
    (done : (defineChecked x cell m).outcome act = .ok () after) :
    after = { m with heap := m.heap.define m.scope x.text cell } := by
  obtain ⟨global, m₁, first, done⟩ := Run.outcome_bind_ok done
  cases first
  obtain ⟨_, m₂, second, done⟩ := Run.outcome_bind_ok done
  cases done
  unfold Run.demand at second
  split at second <;> cases second
  rfl

theorem Evaluator.defineChecked_here {x : Name} {cell : Cell} {after : Machine}
    (done : (defineChecked x cell m).outcome act = .ok () after)
    (inside : after.scope.index < after.heap.scopes.size) : after.heap.here? after.scope x.text = some cell := by
  cases defineChecked_done done
  have size : (m.heap.define m.scope x.text cell).scopes.size = m.heap.scopes.size := by simp [Heap.define]
  rw [Heap.here?_define, if_pos ⟨rfl, rfl, size ▸ inside⟩]

theorem perform_var_bound {decl : VarDecl} {signal : Signal} {after : Machine}
    (done : perform fuel (.stmt (.var decl)) m = .ok signal after)
    (inside : after.scope.index < after.heap.scopes.size) :
    signal = .normal ∧ ∃ cell value, after.heap.here? after.scope decl.name.text = some cell ∧
      cell.content = .plain value := by
  cases fuel with
  | zero => cases done
  | succ fuel =>
    obtain ⟨_, m₁, declared, last⟩ := Run.outcome_bind_ok done
    cases last
    obtain ⟨scope, m₂, -, declared⟩ := Run.outcome_bind_ok declared
    obtain ⟨⟨value, type⟩, m₃, -, defined⟩ := Run.outcome_bind_ok declared
    exact ⟨rfl, _, value, Evaluator.defineChecked_here defined inside, rfl⟩

/-! The loop as a whole. -/

def Outcome.back (scope : Ref .scope) : Outcome α → Outcome α
  | .ok a after => .ok a { after with scope := scope }
  | .error reason after => .error reason { after with scope := scope }

theorem Run.outcome_inScope (body : Run α) (m : Machine) :
    (Run.inScope r body m).outcome act = ((body { m with scope := r }).outcome act).back m.scope := by
  refine (Plan.outcome_andThen _ _).trans ?_
  cases (body { m with scope := r }).outcome act <;> rfl

theorem perform_block (body : List Stmt) (m : Machine) :
    perform (fuel + 1) (.stmt (.block body)) m =
      ((Evaluator.stmts body m.entering).outcome (perform fuel)).back m.scope :=
  Run.outcome_inScope (r := ⟨m.heap.scopes.size⟩) (Evaluator.stmts body) { m with heap := (m.heap.child m.scope).2 }

theorem Run.outcome_exec (s : Stmt) (m : Machine) : (Run.exec s m).outcome act = act (.stmt s) m :=
  rfl

namespace ForLoop

variable {f : ForLoop} {body : Stmt}

theorem whileLoop_ends (paired : f.PairedWith body) (between : Between home f.decl.name.text past pace m S err)
    (outside : pace.Fuels fuel fuel') (inside : pace.Fuels fuel (fuel' - 1)) :
    Ends home f.decl.name.text pace
      (perform fuel (.stmt (.whileLoop f.condition f.body f.increment [f.decl.name])) m)
      (perform fuel' (.stmt (.whileLoop f.condition (.block [body]) f.increment [])) (m.beside S err)) := by
  cases outside with
  | first ahead => exact .first ahead
  | second ahead => exact .second ahead
  | out => exact .error _ between.sameOutside
  | @more fuel fuel' less =>
    cases fuel' with
    | succ fuel' => exact between.loop paired less inside.less less
    | zero =>
      cases less with
      | first ahead => exact .first ahead
      | second ahead => exact .second ahead
      | out => exact .error _ between.sameOutside

theorem stmts_ends (paired : f.PairedWith body) (settled : m.Settled) (outside : pace.Fuels fuel fuel')
    (inside : pace.Fuels fuel (fuel' - 1)) :
    Ends ⟨m.heap.scopes.size⟩ f.decl.name.text pace
      ((Evaluator.stmts [.var f.decl, .whileLoop f.condition f.body f.increment [f.decl.name]]
        m.entering).outcome (perform fuel))
      ((Evaluator.stmts [.var f.decl, .whileLoop f.condition (.block [body]) f.increment []]
        m.entering).outcome (perform fuel')) := by
  have held := settled.entering_holds pace
  have seated := settled.entering_seated pace
  have declaring : (Tie.between ⟨m.heap.scopes.size⟩ (fun _ => False) pace).Agree m.entering.heap
      ⟨m.heap.scopes.size⟩ Same (perform fuel (.stmt (.var f.decl)) m.entering)
      (perform fuel' (.stmt (.var f.decl)) m.entering) := by
    obtain ⟨⟨name, modifiers, declared, initializer⟩, condition, increment, inner⟩ := f
    exact (perform_synchronous outside).stmt held seated (.var trivial paired.initializer)
  have own (r : Ref .scope) (mine : r = ⟨m.heap.scopes.size⟩ ∨ False) : r = ⟨m.heap.scopes.size⟩ :=
    mine.resolve_right id
  unfold Evaluator.stmts
  rw [Run.outcome_bind, Run.outcome_bind, Run.outcome_exec, Run.outcome_exec]
  generalize declared : perform fuel (.stmt (.var f.decl)) m.entering = first at declaring
  generalize perform fuel' (.stmt (.var f.decl)) _ = second at declaring
  cases declaring with
  | ok held' later scope same =>
    cases same
    obtain ⟨rfl, cell, value, found, -⟩ := perform_var_bound declared held'.scope
    rw [scope] at found
    have bound := Option.isSome_of_eq_some found
    have between : Between ⟨m.heap.scopes.size⟩ f.decl.name.text (fun _ => False) pace _ _ _ :=
      ⟨held', scope, seated.mono later, bound, fun _ impossible => impossible.elim⟩
    refine .bind (whileLoop_ends paired between outside inside) fun _ _ _ _ signal between' => ?_
    cases signal <;> exact .ok _ between'
  | error reason held' => exact .error reason (held'.sameOutside rfl fun r mine => .inl (own r mine))
  | first ahead => exact .first ahead
  | second ahead => exact .second ahead

end ForLoop

def Outcome.Finished (outcome : Outcome α) : Prop :=
  ∀ m, outcome ≠ .error .outOfFuel m

theorem Machine.SameOutside.out (same : m.SameOutside home n) : n.out = m.out := by
  rw [same.others]
  rfl

/-- The same end on two machines, which differ in a loop at most. -/
inductive Outcome.SameOutside (home : Ref .scope) : Outcome α → Outcome α → Prop where
  | ok {m n : Machine} (a : α) (same : m.SameOutside home n) : SameOutside home (.ok a m) (.ok a n)
  | error {m n : Machine} (reason : Stop) (same : m.SameOutside home n) :
      SameOutside home (.error reason m) (.error reason n)

theorem Ends.sameOutside {outcome outcome' : Outcome α} (ends : Ends home name pace outcome outcome')
    (scope : Ref .scope) (first : pace = .first → (outcome.back scope).Finished)
    (second : pace = .second → (outcome'.back scope).Finished) :
    Outcome.SameOutside home (outcome.back scope) (outcome'.back scope) := by
  cases ends with
  | ok a between => exact .ok a (between.sameOutside.inScope scope)
  | error reason same => exact .error reason (same.inScope scope)
  | first ahead => exact absurd rfl (first ahead _)
  | second ahead => exact absurd rfl (second ahead _)

namespace ForLoop

variable {f : ForLoop} {body : Stmt}

/-- If the loop that copies comes to an end, so does the one that shares. -/
theorem copying_finished (paired : f.PairedWith body) (settled : m.Settled) (less : fuel < fuel')
    (finished : (perform fuel (.stmt f.copying) m).Finished) :
    Outcome.SameOutside ⟨m.heap.scopes.size⟩ (perform fuel (.stmt f.copying) m)
      (perform fuel' (.stmt ({ f with body := body } : ForLoop).sharing) m) := by
  obtain ⟨fuel', rfl⟩ := Nat.exists_eq_succ_of_ne_zero (Nat.ne_of_gt (Nat.zero_lt_of_lt less))
  cases fuel with
  | zero => exact absurd rfl (finished m)
  | succ fuel =>
    rw [copying, perform_block] at finished
    rw [copying, sharing, perform_block, perform_block]
    have outside : Pace.first.Fuels fuel fuel' := .first_of_le (by omega)
    have inside : Pace.first.Fuels fuel (fuel' - 1) := .first_of_le (by omega)
    exact (stmts_ends paired settled outside inside).sameOutside m.scope (fun _ => finished) fun impossible => by cases impossible

/-- If the loop that shares comes to an end, so does the one that copies. -/
theorem sharing_finished (paired : f.PairedWith body) (settled : m.Settled) (less : fuel < fuel')
    (finished : (perform fuel (.stmt ({ f with body := body } : ForLoop).sharing) m).Finished) :
    Outcome.SameOutside ⟨m.heap.scopes.size⟩ (perform fuel' (.stmt f.copying) m)
      (perform fuel (.stmt ({ f with body := body } : ForLoop).sharing) m) := by
  obtain ⟨fuel', rfl⟩ := Nat.exists_eq_succ_of_ne_zero (Nat.ne_of_gt (Nat.zero_lt_of_lt less))
  cases fuel with
  | zero => exact absurd rfl (finished m)
  | succ fuel =>
    rw [sharing, perform_block] at finished
    rw [copying, sharing, perform_block, perform_block]
    have outside : Pace.second.Fuels fuel' fuel := .second_of_le (by omega)
    have inside : Pace.second.Fuels fuel' (fuel - 1) := .second_of_le (by omega)
    exact (stmts_ends paired settled outside inside).sameOutside m.scope (fun impossible => by cases impossible) fun _ => finished

def Written (f : ForLoop) : Prop :=
  ∃ source tokens program root p, scan source = .ok tokens ∧ parse tokens = .ok program ∧ root ∈ program ∧
    Within root p (.stmt f.copying)

theorem Written.formed (written : f.Written) : Formed (.stmt f.copying) := by
  obtain ⟨source, tokens, program, root, p, scanned, parsed, member, within⟩ := written
  exact (parse_formed (scan_genuine scanned) parsed root member).1.within within

end ForLoop

/-- A loop that declares a variable, and has no closures in it, does the same with copies of the variable and
without: wherever the one form resolves the other one does, and at every moment of a run both come to the same
signal or stop for the same reason, with machines that are the same outside of the loop. -/
theorem loop_copies_unnoticed {H : List Event} (reached : Reached H m) (moment : n ∈ moments H m) {f : ForLoop}
    (written : f.Written) (free : f.copying.closureFree = true) {c : Context} {s after : Scopes} {copying : Stmt}
    (resolved : resolveStmt c f.copying s = .ok copying after) :
    ∃ sharing, resolveStmt c f.sharing s = .ok sharing after ∧ ∀ fuel fuel', fuel < fuel' →
      ((perform fuel (.stmt copying) n).Finished →
        Outcome.SameOutside ⟨n.heap.scopes.size⟩ (perform fuel (.stmt copying) n)
          (perform fuel' (.stmt sharing) n)) ∧
      ((perform fuel (.stmt sharing) n).Finished →
        Outcome.SameOutside ⟨n.heap.scopes.size⟩ (perform fuel' (.stmt copying) n)
          (perform fuel (.stmt sharing) n)) := by
  obtain ⟨g, body, rfl, paired, shared⟩ := ForLoop.resolve_sharing written.formed free resolved
  have settled := reached.settled.1 n moment
  refine ⟨_, shared, fun fuel fuel' less => ⟨?_, ?_⟩⟩
  · exact g.copying_finished paired settled less
  · exact g.sharing_finished paired settled less

/-- A loop that prints its variable and ends in its second round. -/
def ringingSource : String :=
  "for (var x = \"ding\"; x; x = \"dong\") if (x == \"ding\") println(x); else break;"

def soleLoop? (source : String) : Option ForLoop :=
  match scan source with
  | .error _ => none
  | .ok tokens =>
    match parse tokens with
    | .ok [.block [.var decl, .whileLoop condition body increment [name]]] =>
      if name = decl.name then some ⟨decl, condition, increment, body⟩ else none
    | _ => none

theorem soleLoop?_written {source : String} {f : ForLoop} (found : soleLoop? source = some f) : f.Written := by
  unfold soleLoop? at found
  split at found
  · cases found
  · rename_i tokens scanned
    split at found
    · rename_i parsed
      split at found
      · rename_i same
        cases found
        cases same
        exact ⟨source, tokens, _, _, _, scanned, parsed, List.mem_singleton_self _, .root⟩
      · cases found
    · cases found

/-- What the loop of a text prints when it runs before anything else. There is no answer if it has closures in it,
does not resolve or does not end well. -/
def soleLoopPrints (source : String) (fuel : Nat) : Option String :=
  match soleLoop? source with
  | none => none
  | some f =>
    match f.copying.closureFree, resolveStmt {} f.copying ⟨[], none⟩ with
    | true, .ok copying _ =>
      match perform fuel (.stmt copying) (.initial true {}) with
      | .ok _ after => some after.out
      | .error .. => none
    | _, _ => none

theorem soleLoopPrints_run {source out : String} (printed : soleLoopPrints source fuel = some out) :
    ∃ f : ForLoop, f.Written ∧ f.copying.closureFree = true ∧
      ∃ copying after signal m, resolveStmt {} f.copying ⟨[], none⟩ = .ok copying after ∧
        perform fuel (.stmt copying) (.initial true {}) = .ok signal m ∧ m.out = out := by
  unfold soleLoopPrints at printed
  split at printed
  · cases printed
  · rename_i f found
    split at printed
    · rename_i free resolved
      split at printed
      · rename_i done
        cases printed
        exact ⟨f, soleLoop?_written found, free, _, _, _, _, resolved, done, rfl⟩
      · cases printed
    · cases printed

set_option maxRecDepth 100000 in
theorem ringing_prints : soleLoopPrints ringingSource 20 = some "ding\n" := by
  decide +kernel

/-- The loop prints the same when its variable is shared. -/
theorem loop_copies_unnoticed_ringing :
    ∃ (f : ForLoop) (sharing : Stmt) (after : Scopes) (signal : Signal) (m : Machine),
      f.Written ∧ f.copying.closureFree = true ∧ resolveStmt {} f.sharing ⟨[], none⟩ = .ok sharing after ∧
        perform 21 (.stmt sharing) (.initial true {}) = .ok signal m ∧ m.out = "ding\n" := by
  obtain ⟨f, written, free, copying, after, signal, m, resolved, done, out⟩ := soleLoopPrints_run ringing_prints
  have reached : Reached [] (.initial true {}) := ⟨true, {}, .refl _⟩
  obtain ⟨sharing, shared, both⟩ :=
    loop_copies_unnoticed reached (last_mem_moments [] (.initial true {})) written free resolved
  have finished : (perform 20 (.stmt copying) (.initial true {})).Finished := by
    intro n impossible
    rw [done] at impossible
    cases impossible
  have same := (both 20 21 (by decide)).1 finished
  rw [done] at same
  generalize ended : perform 21 (.stmt sharing) (.initial true {}) = outcome at same
  cases same with
  | ok _ same => exact ⟨f, sharing, after, signal, _, written, free, shared, ended, same.out.trans out⟩

end Treewalk
