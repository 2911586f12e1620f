import Treewalk.Proofs.CellReads
import Treewalk.Proofs.ClassMembers
import Treewalk.Proofs.Turns

/-!
Closures made in the rounds of a loop. Each round has its variable in a scope of its own, which the other rounds and
the condition and the increment of the loop never reach. So what is made in a round keeps the value that the variable
had at the end of the round, until code of the round itself assigns to it.
-/

namespace Treewalk

open Evaluator

theorem Evaluator.readVariable_plain {m : Machine} {ref : Reference} {r : Ref .scope} {cell : Cell} {value : Value}
    (target : m.scopeOf? ref = some r) (inner : r ≠ .globals) (found : m.heap.here? r ref.name.text = some cell)
    (content : cell.content = .plain value) : readVariable ref m = .done (.ok value m) := by
  unfold Machine.scopeOf? at target
  have read : variableCell ref m = .ok cell := by
    unfold variableCell
    cases located : ref.depth with
    | none =>
      rw [located] at target
      exact absurd (Option.some.inj target).symm inner
    | some depth =>
      rw [located] at target
      dsimp only at target ⊢
      rw [Heap.lookupAt, target, Option.bind_some, found]
  rw [readVariable_found read, readCell_plain content]
  rfl

namespace Task

variable {t : Task}

def Evaluates : Task → Task → Prop :=
  Relation.ReflTransGen fun t part => t.Asks part ∧ (∃ e, t.activity = .expr e) ∧ ∃ e, part.activity = .expr e

theorem Evaluates.scope {part : Task} (evaluates : t.Evaluates part) : part.machine.scope = t.machine.scope := by
  induction evaluates with
  | refl => rfl
  | tail _ asks ih =>
    obtain ⟨asks, ⟨e, isExpr⟩, e', isPart⟩ := asks
    exact (asks.scope isExpr (by rw [isPart]; trivial)).trans ih

end Task

namespace Performs

variable {allowed : Stmt → Prop} {m m' : Machine} {H : List Event} {t : Task}

theorem evaluates {part : Task} (performs : Performs allowed m H m' t) (evaluates : t.Evaluates part) :
    Performs allowed m H m' part := by
  induction evaluates with
  | refl => exact performs
  | tail _ asks ih => exact ih.asks asks.1

theorem moment (performs : Performs allowed m H m' t) : t.machine ∈ moments H m' :=
  List.mem_append_left _ (List.mem_map_of_mem performs.started_mem)

end Performs

/-! What is made inside a scope. -/

section

variable {m : Machine} {s : Ref .scope} {decl : FunctionDecl} {body : List Stmt}

theorem Function.made_closesOver {h : Heap} (has : decl.body = some body) (inside : m.Inside s)
    (later : m.heap.Extends h) (made : h.functions = m.heap.functions.push (.ofDecl decl m.scope false)) :
    (h.function ⟨m.heap.functions.size⟩).ClosesOver h s ∧ h.Confines s ⟨m.heap.functions.size⟩ := by
  obtain ⟨distance, found⟩ := inside
  have same : h.function ⟨m.heap.functions.size⟩ = .ofDecl decl m.scope false := by simp [Heap.function, made]
  have closes : (h.function ⟨m.heap.functions.size⟩).ClosesOver h s :=
    ⟨body, m.scope, distance, by rw [same, Function.ofDecl, has], later.ancestor? found⟩
  exact ⟨closes, by simp [made], closes.confined⟩

theorem perform_lambda (has : decl.body = some body) (inside : m.Inside s) (fuel : Nat) :
    ∃ f after, perform (fuel + 1) (.expr (.lambda decl)) m = .ok (.function f) after ∧
      (after.heap.function f).ClosesOver after.heap s ∧ after.heap.Confines s f :=
  ⟨_, _, rfl, Function.made_closesOver has inside (.of_scopes rfl) rfl⟩

theorem perform_function (has : decl.body = some body) (inside : m.Inside s)
    (here : m.scope.index < m.heap.scopes.size) {fuel : Nat} {signal : Signal} {after : Machine}
    (done : perform fuel (.stmt (.function decl)) m = .ok signal after) :
    ∃ f cell, after.heap.here? m.scope decl.name.text = some cell ∧ cell.content = .plain (.function f) ∧
      (after.heap.function f).ClosesOver after.heap s ∧ after.heap.Confines s f := by
  have grows := perform_extends fuel (.stmt (.function decl)) m
  have back := perform_scope fuel (.stmt (.function decl)) m
  rw [done] at grows back
  have there : after.scope.index < after.heap.scopes.size := back ▸ Nat.lt_of_lt_of_le here grows.scopes
  cases fuel with
  | zero => cases done
  | succ fuel =>
    obtain ⟨_, m₁, declared, last⟩ := Run.outcome_bind_ok done
    cases last
    obtain ⟨scope, m₂, first, declared⟩ := Run.outcome_bind_ok declared
    cases first
    obtain ⟨f, m₃, made, defined⟩ := Run.outcome_bind_ok declared
    cases made
    have found := defineChecked_here defined there
    rw [show after.scope = m.scope from back] at found
    refine ⟨_, _, found, rfl, Function.made_closesOver has inside grows ?_⟩
    rw [defineChecked_done defined]
    rfl

end

namespace ForLoop.Round

variable {echo : Bool} {clock : Clock} {H : List Event} {m : Machine} {f : ForLoop} {block loop round other : Task}

section

variable (isRound : f.Round block loop round)

include isRound

theorem known {view : View} (performs : Performs view.allowed (.initial echo clock) H m block)
    (bound : view.strict → ∀ e ∈ H, ¬e.CallsUnbound) :
    ∃ w, Trail view .any .initial H w ∧ Arrived view w m ∧
      w.siteOf? round.machine.scope = some (.iteration [f.decl.name] f.body) :=
  (performs.asks isRound.asksLoop).trail
    (Task.loop_reveals isRound.isLoop (by simp) isRound.asksBody isRound.isBody) ⟨World.initial_sound _, rfl, rfl⟩ bound

variable (performs : Performs (fun _ => True) (.initial echo clock) H m block)

include performs

theorem performs_loop : Performs (fun _ => True) (.initial echo clock) H m loop :=
  performs.asks isRound.asksLoop

theorem performs_round : Performs (fun _ => True) (.initial echo clock) H m round :=
  (isRound.performs_loop performs).asks isRound.asksBody

theorem trail : ∃ w, Trail .lax .any .initial H w ∧ Arrived .lax w m ∧
    w.siteOf? round.machine.scope = some (.iteration [f.decl.name] f.body) :=
  have lax : Performs View.lax.allowed (.initial echo clock) H m block := performs
  isRound.known lax fun impossible => impossible.elim

/-- Binding keeps what closes over the scope of a round inside it: the scope that an instance may bring for its class
lies where that of the class does, and the scope of a round is none of a class. -/
theorem binds {n : Machine} (moment : n ∈ moments H m) {g : Function} {receiver : Value}
    (confined : g.Confined n.heap round.machine.scope) : ∃ bound after,
      Evaluator.bind g receiver n = .done (.ok bound after) ∧ bound.Confined after.heap round.machine.scope := by
  obtain ⟨w, trail, arrived, known⟩ := isRound.trail performs
  obtain ⟨v, sound, heap, -, leads⟩ := trail.at_moment arrived.sound arrived.heap moment
  have stays (closure : Ref .scope) (within : n.heap.Nested closure round.machine.scope) :
      n.heap.Nested (n.heap.scopeWithin receiver closure) round.machine.scope := by
    cases receiver with
    | object o =>
      unfold Heap.scopeWithin Heap.scopeFor?
      dsimp only
      split
      · rename_i own
        cases brings : (n.heap.object o).templateScope with
        | none => exact within
        | some r =>
          rw [← heap] at own brings
          obtain ⟨-, -, beside, decl, -, site⟩ := (sound.objects o (Heap.lt_of_templateScope brings)).scope r brings
          rw [own] at beside site
          obtain ⟨distance, found⟩ := within
          cases distance with
          | zero =>
            cases found
            cases (leads.sites _ _ site).symm.trans known
          | succ distance =>
            refine ⟨distance + 1, ?_⟩
            rw [Option.getD_some, Heap.ancestor?, ← heap, beside, heap]
            exact found
      · exact within
    | _ => exact within
  obtain ⟨bound, after, done, -, closes⟩ := bind_confined _ confined stays
  exact ⟨bound, after, done, closes⟩

theorem plainIn : ∀ e ∈ H, e.PlainIn round.machine.scope := by
  obtain ⟨w, trail, -, known⟩ := isRound.trail performs
  exact trail.plainIn known

theorem runsPlain {n : Machine}
    (turn : Turn (perform round.fuel) f.condition f.body f.increment [f.decl.name] round.fuel loop.machine n) :
    RunsPlain round.fuel f.body f.decl.name n := by
  intro e member
  have later := isRound.of_turn turn
  exact later.plainIn performs e ((later.performs_round performs).happens.subset member)

theorem begins : ∃ n, round.machine = n.inRound [f.decl.name] ∧ n.scope = loop.machine.scope ∧
    n.heap.HoldsPlain n.scope f.decl.name.text ∧
      Turn (perform round.fuel) f.condition f.body f.increment [f.decl.name] round.fuel loop.machine n := by
  obtain ⟨-, n, begins, turn⟩ := isRound.turn
  have inside := (performs.reached.settled.1 _ (isRound.performs_loop performs).moment).scope
  obtain ⟨scope, plain, -⟩ := turn.holdsPlain (isRound.declared inside) fun n => isRound.runsPlain performs
  exact ⟨n, begins, scope, plain, turn⟩

/-- The scope of a round is right inside that of the loop, whenever it is there. -/
theorem around {e : Event} (member : e ∈ H) (inside : round.machine.scope.index < e.machine.heap.scopes.size) :
    (e.machine.heap.scope round.machine.scope).enclosing = some loop.machine.scope := by
  obtain ⟨n, begins, scope, -, -⟩ := isRound.begins performs
  obtain ⟨w, trail, -, -⟩ := isRound.trail performs
  obtain ⟨v, seen, -, later⟩ := trail.seen member
  obtain ⟨v', seen', -, later'⟩ := trail.seen (isRound.performs_round performs).started_mem
  have heap : v.heap = e.machine.heap := seen.heap
  have heap' : v'.heap = round.machine.heap := seen'.heap
  have opened : (round.machine.heap.scope round.machine.scope).enclosing = some loop.machine.scope := by
    rw [begins, ← scope]
    exact congrArg Scope.enclosing ((Heap.scope_addScope ..).trans (if_pos rfl))
  have there : round.machine.scope.index < round.machine.heap.scopes.size :=
    Heap.lt_of_enclosing (by rw [opened]; rfl)
  rw [← heap, ← later.grows.enclosing _ (by rwa [heap]), later'.grows.enclosing _ (by rwa [heap']), heap', opened]

/-- Only code inside the scope of a round assigns to variables there. -/
theorem assigned {e : Event} {name : String} {value : Value} (assigns : e.Assigns round.machine.scope name value) :
    e.machine.Inside round.machine.scope := by
  obtain ⟨w, trail, -, known⟩ := isRound.trail performs
  have inner := trail.round_inner known
  unfold Event.Assigns at assigns
  split at assigns
  · rename_i ref _ _ _ result after
    obtain ⟨-, target, -⟩ := assigns
    unfold Machine.scopeOf? at target
    cases located : ref.depth with
    | some depth =>
      rw [located] at target
      exact ⟨depth, target⟩
    | none =>
      rw [located] at target
      exact absurd (Option.some.inj target).symm inner
  · exact assigns.elim

theorem outside {e : Event} (member : e ∈ H) (same : e.machine.scope = loop.machine.scope) :
    ¬e.machine.Inside round.machine.scope := by
  rintro ⟨distance, found⟩
  have moment : e.machine ∈ moments H m := List.mem_append_left _ (List.mem_map_of_mem member)
  have converges := performs.reached.scopes_converge _ moment
  have here := (performs.reached.settled.1 _ moment).scope
  have before := converges.ancestor_le here found
  have inside := Nat.lt_of_le_of_lt before here
  have older := converges.older _ _ inside (isRound.around performs member inside)
  rw [same] at before
  omega

theorem eq_of_scope (isOther : f.Round block loop other) (same : other.machine.scope = round.machine.scope) :
    other = round := by
  obtain ⟨n, begins, -, -, turn⟩ := isRound.begins performs
  obtain ⟨n', begins', -, -, turn'⟩ := isOther.begins performs
  have fuel : other.fuel = round.fuel := Nat.succ.inj (isOther.turn.1.symm.trans isRound.turn.1)
  have inside := (performs.reached.settled.1 _ (isRound.performs_loop performs).moment).scope
  rw [begins, begins'] at same
  rw [fuel] at turn'
  have size : n'.heap.scopes.size = n.heap.scopes.size := congrArg Ref.index same
  have body := isRound.isBody
  have body' := isOther.isBody
  have machine : n' = n := turn'.eq_of_size turn (isRound.declared inside) (fun n => isRound.runsPlain performs) size
  obtain ⟨turns, a, start⟩ := round
  obtain ⟨turns', a', start'⟩ := other
  simp only at fuel body body' begins begins'
  rw [fuel, body, body', begins, begins', machine]

/-- No code is inside two rounds. -/
theorem apart (isOther : f.Round block loop other) (different : other ≠ round) {e : Event} (member : e ∈ H)
    (inside : e.machine.Inside other.machine.scope) : ¬e.machine.Inside round.machine.scope := by
  rintro ⟨far, found⟩
  obtain ⟨near, found'⟩ := inside
  have moment : e.machine ∈ moments H m := List.mem_append_left _ (List.mem_map_of_mem member)
  have converges := performs.reached.scopes_converge _ moment
  have here := (performs.reached.settled.1 _ moment).scope
  -- If one of the scopes were around the other, it would also be around that of the loop, and thus older.
  have never {first second : Task} (isFirst : f.Round block loop first) (isSecond : f.Round block loop second)
      {near far : Nat} (found : e.machine.heap.ancestor? near e.machine.scope = some first.machine.scope)
      (further : e.machine.heap.ancestor? far e.machine.scope = some second.machine.scope) : ¬near < far := by
    intro nearer
    obtain ⟨rest, rfl⟩ := Nat.exists_eq_add_of_lt nearer
    have firstInside := Nat.lt_of_le_of_lt (converges.ancestor_le here found) here
    have secondInside := Nat.lt_of_le_of_lt (converges.ancestor_le here further) here
    have around := isFirst.around performs member firstInside
    have around' := isSecond.around performs member secondInside
    rw [Nat.add_assoc, Heap.ancestor?_add, found] at further
    have beyond : e.machine.heap.ancestor? rest loop.machine.scope = some second.machine.scope := by
      rw [← further, Option.bind_some, Heap.ancestor?, around]
      rfl
    have loopInside := Nat.lt_trans (converges.older _ _ firstInside around) firstInside
    have before := converges.ancestor_le loopInside beyond
    have older := converges.older _ _ secondInside around'
    omega
  have close := never isOther isRound found' found
  have close' := never isRound isOther found found'
  obtain rfl : near = far := by omega
  exact different (isRound.eq_of_scope performs isOther (Option.some.inj (found'.symm.trans found)))

/-- When the body of a round has ended, its variable holds a value, and goes on to hold it until something is
assigned to it. -/
theorem holds {before after : List Event} (split : H = before ++ round.history ++ after) :
    ∃ cell value, round.outcome.machine.heap.here? round.machine.scope f.decl.name.text = some cell ∧
      cell.content = .plain value ∧ ∀ between e later, after = between ++ e :: later →
        (∀ e' ∈ between ++ [e], ∀ other, ¬e'.Assigns round.machine.scope f.decl.name.text other) →
          e.machine.heap.here? round.machine.scope f.decl.name.text = some cell := by
  obtain ⟨n, begins, -, plain, turn⟩ := isRound.begins performs
  have keeps := isRound.runsPlain performs turn
  have isBody := isRound.isBody
  have plainIn := isRound.plainIn performs
  obtain ⟨turns, a, start⟩ := round
  cases isBody
  cases begins
  have ended : (perform turns (.stmt f.body) (n.inRound [f.decl.name])).machine.heap.HoldsPlain
      (n.inRound [f.decl.name]).scope f.decl.name.text :=
    perform_keepsPlain (Machine.inRound_holdsPlain plain).1 keeps
  have inside := ended.inside
  obtain ⟨cell, value, found, content⟩ := ended
  refine ⟨cell, value, found, content, fun between e later last unassigned => ?_⟩
  have along : SparesAlong _ f.decl.name.text _ H := performs.runs.along plainIn
  rw [split, last, show between ++ e :: later = (between ++ [e]) ++ later by simp] at along
  have rest := (sparesAlong_append.mp along).2
  rw [heapAfter_append, Task.history, heapAfter_history] at rest
  have spares := ((sparesAlong_append.mp rest).1.spares inside).2
  rw [heapAfter_append] at spares
  cases spares with
  | untouched _ same => exact same.trans found
  | assigned split assigns =>
    exact absurd assigns (unassigned _ (split ▸ List.mem_append_right _ List.mem_cons_self) _)

end

end ForLoop.Round

/-- What code does and makes inside a scope of a run stays inside it: the calls of what is confined to the scope, the
functions that are made there, and the methods and accessors of what is declared there, but for methods that interfaces
supply. -/
structure Ref.Encloses (s : Ref .scope) (H : List Event) (m : Machine) : Prop where
  code : ∀ t part : Task, t.Asks part → t.activity.IsCode → part.activity.IsCode → t.machine.Inside s →
    part.machine.Inside s
  calls : ∀ (t part : Task) f args generics line, t.Asks part → t.activity = .call f args generics line →
    part.activity.IsCode → f.Confined t.machine.heap s → part.machine.Inside s
  lambdas : ∀ decl body start, .started (.expr (.lambda decl)) start ∈ H → decl.body = some body → start.Inside s →
    ∀ fuel, ∃ f after, perform (fuel + 1) (.expr (.lambda decl)) start = .ok (.function f) after ∧
      (after.heap.function f).ClosesOver after.heap s ∧ after.heap.Confines s f
  functions : ∀ decl body start, .started (.stmt (.function decl)) start ∈ H → decl.body = some body →
    start.Inside s → ∀ fuel signal after, perform fuel (.stmt (.function decl)) start = .ok signal after →
      ∃ f cell, after.heap.here? start.scope decl.name.text = some cell ∧ cell.content = .plain (.function f) ∧
        (after.heap.function f).ClosesOver after.heap s ∧ after.heap.Confines s f
  properties : ∀ decl start, .started (.stmt (.property decl)) start ∈ H → start.Inside s →
    ∀ fuel signal after, perform fuel (.stmt (.property decl)) start = .ok signal after →
      ∃ cell, after.heap.here? start.scope decl.name.text = some cell ∧ (∃ p, cell.content = .computed p) ∧
        cell.Confined after.heap s
  classes : ∀ decl start, .started (.stmt (.classDecl decl)) start ∈ H → start.Inside s →
    ∀ fuel signal after, perform fuel (.stmt (.classDecl decl)) start = .ok signal after →
      ∃ c, after.heap.here? start.scope decl.name.text = some (.ofValue (.cls c)) ∧
        (∀ x ∈ (after.heap.cls c).methods.entries, after.heap.Confines s x.2 ∨ after.heap.Supplies x.2) ∧
          ∀ x ∈ (after.heap.cls c).fields.entries, x.2.Confined after.heap s
  interfaces : ∀ decl start, .started (.stmt (.interfaceDecl decl)) start ∈ H → start.Inside s →
    ∀ fuel signal after, perform fuel (.stmt (.interfaceDecl decl)) start = .ok signal after →
      ∃ i, after.heap.here? start.scope decl.name.text = some (.ofValue (.interface i)) ∧
        (∀ x ∈ (after.heap.interface i).methods.entries, after.heap.Confines s x.2) ∧
          ∀ x ∈ (after.heap.interface i).fields.entries, x.2.Confined after.heap s
  stays : (moments H m).Pairwise fun n later => (∀ f, n.heap.Confines s f → later.heap.Confines s f) ∧
    ∀ cell : Cell, cell.Confined n.heap s → cell.Confined later.heap s

theorem Reached.encloses {H : List Event} {m : Machine} (reached : Reached H m) (s : Ref .scope) :
    s.Encloses H m := by
  have here {a : Activity} {start : Machine} (started : .started a start ∈ H) :
      start.scope.index < start.heap.scopes.size :=
    (reached.settled.1 start (List.mem_append_left _ (List.mem_map_of_mem started))).scope
  refine ⟨fun _ _ asks isCode isPart inside => asks.inside isCode isPart inside,
    fun _ _ _ _ _ _ asks isCall isPart confined => asks.inside_call isCall isPart confined,
    fun _ _ _ _ has inside fuel => perform_lambda has inside fuel,
    fun _ _ _ started has inside _ _ _ done => perform_function has inside (here started) done,
    fun decl start started inside fuel signal after done => ?_, fun decl start started inside fuel signal after done => ?_,
    fun decl start started inside fuel signal after done => ?_, ?_⟩
  · obtain ⟨cell, found, computed, confined⟩ := perform_property_makes (here started) done
    have grown := perform_extends fuel (.stmt (.property decl)) start
    rw [done] at grown
    have within : start.heap.Nested start.scope s := inside
    exact ⟨cell, found, computed, confined.outer (within.later grown)⟩
  · obtain ⟨c, bound, -, scope, fulfils⟩ := perform_class_makes (here started) done
    have grown := perform_extends fuel (.stmt (.classDecl decl)) start
    rw [done] at grown
    have around : start.heap.Nested start.scope s := inside
    have within := scope.trans (around.later grown)
    exact ⟨c, bound, fun x member => (fulfils.methods x member).imp_left (·.outer within),
      fun x member => (fulfils.accessors x member).outer within⟩
  · obtain ⟨i, bound, methods, accessors⟩ := perform_interface_makes (here started) done
    have grown := perform_extends fuel (.stmt (.interfaceDecl decl)) start
    rw [done] at grown
    have around : start.heap.Nested start.scope s := inside
    have within := around.later grown
    exact ⟨i, bound, fun x member => (methods x member).outer within, fun x member => (accessors x member).outer within⟩
  · obtain ⟨w, trail, arrived⟩ := reached.trail
    refine trail.pairwise_moments arrived.sound arrived.heap fun v v' n n' _ heap heap' leads => ?_
    have shelves := Heap.Shelves.of_grows leads.grows
    rw [heap, heap'] at shelves
    exact ⟨fun f confined => confined.later shelves, fun cell confined => confined.later shelves⟩

/-- The code of a round runs inside the scope of the round and has the variable there for itself. What is made there
and bound to a receiver goes on closing over that scope, and runs inside it when it is called. The names that the code
reads and assigns to are found there, or further in. The condition and the increment do not run inside that scope, nor
does the code of other rounds, and whatever assigns to the variable does. So from the end of the body on, the variable
is read with the value that it has then, as long as nothing is assigned to it. -/
structure ForLoop.Captures (f : ForLoop) (H : List Event) (m : Machine) (block loop round : Task) : Prop where
  encloses : round.machine.scope.Encloses H m
  binds : ∀ n ∈ moments H m, ∀ (g : Function) receiver, g.Confined n.heap round.machine.scope →
    ∃ bound after, Evaluator.bind g receiver n = .done (.ok bound after) ∧
      bound.Confined after.heap round.machine.scope
  begins : round.machine.Inside round.machine.scope
  found : (∀ e ∈ H, ¬e.CallsUnbound) → ∀ e start, .started (.expr e) start ∈ H → ∀ ref, e.reference? = some ref →
    ref.name.text = f.decl.name.text → start.Inside round.machine.scope →
      ∃ r distance, start.scopeOf? ref = some r ∧ start.heap.ancestor? distance r = some round.machine.scope
  assigned : ∀ e ∈ H, ∀ value, e.Assigns round.machine.scope f.decl.name.text value →
    e.machine.Inside round.machine.scope
  header : ∀ part e, loop.Asks part → part.activity = .expr e → ∀ inner, part.Evaluates inner →
    ¬inner.machine.Inside round.machine.scope ∧
      ∀ value, ¬inner.ended.Assigns round.machine.scope f.decl.name.text value
  others : ∀ other, f.Round block loop other → other ≠ round → ∀ e ∈ H, e.machine.Inside other.machine.scope →
    ¬e.machine.Inside round.machine.scope
  happens : round.history <:+: H
  keeps : ∀ before after, H = before ++ round.history ++ after → ∃ cell value,
    round.outcome.machine.heap.here? round.machine.scope f.decl.name.text = some cell ∧ cell.content = .plain value ∧
      ∀ between ref start later, after = between ++ .started (.expr (.use ref)) start :: later →
        start.scopeOf? ref = some round.machine.scope → ref.name.text = f.decl.name.text →
          (∀ e ∈ between, ∀ other, ¬e.Assigns round.machine.scope f.decl.name.text other) →
            ∀ fuel, perform (fuel + 1) (.expr (.use ref)) start = .ok value start

namespace ForLoop.Round

variable {echo : Bool} {clock : Clock} {H : List Event} {m : Machine} {f : ForLoop} {block loop round : Task}

theorem asked_scope (isRound : f.Round block loop round) {part : Task} {e : Expr} (asks : loop.Asks part)
    (isExpr : part.activity = .expr e) : part.machine.scope = loop.machine.scope := by
  obtain ⟨-, -, isLoop, -, -⟩ := isRound
  obtain ⟨fuel, a, start⟩ := loop
  obtain ⟨turns, b, n⟩ := part
  cases isLoop
  cases isExpr
  obtain ⟨-, asked⟩ := asks
  rw [f.plan_loop] at asked
  rcases asked_whileLoop (perform_scope turns) asked with ⟨_, -, same⟩ | ⟨n, other, -⟩
  · exact same
  · cases other

theorem header (isRound : f.Round block loop round)
    (performs : Performs (fun _ => True) (.initial echo clock) H m block) {part inner : Task} {e : Expr}
    (asks : loop.Asks part) (isExpr : part.activity = .expr e) (evaluates : part.Evaluates inner) :
    ¬inner.machine.Inside round.machine.scope ∧
      ∀ value, ¬inner.ended.Assigns round.machine.scope f.decl.name.text value := by
  have here := evaluates.scope.trans (isRound.asked_scope asks isExpr)
  have performed := ((isRound.performs_loop performs).asks asks).evaluates evaluates
  have back : inner.ended.machine.scope = inner.machine.scope := perform_scope inner.fuel inner.activity inner.machine
  refine ⟨isRound.outside performs performed.started_mem here, fun value assigns => ?_⟩
  exact isRound.outside performs (performed.happens.subset inner.ended_mem) (back.trans here)
    (isRound.assigned performs assigns)

theorem found (isRound : f.Round block loop round)
    (performs : Performs (fun _ => True) (.initial echo clock) H m block) (bound : ∀ e ∈ H, ¬e.CallsUnbound) {e : Expr}
    {start : Machine} (started : .started (.expr e) start ∈ H) {ref : Reference} (named : e.reference? = some ref)
    (same : ref.name.text = f.decl.name.text) (inside : start.Inside round.machine.scope) :
    ∃ r distance, start.scopeOf? ref = some r ∧ start.heap.ancestor? distance r = some round.machine.scope := by
  obtain ⟨far, found⟩ := inside
  let strict : View := ⟨True, fun _ => True, False⟩
  have allowed : Performs strict.allowed (.initial echo clock) H m block := performs
  obtain ⟨w, trail, -, known⟩ := isRound.known allowed fun _ => bound
  exact trail.resolves known trivial started named ⟨f.decl.name, List.mem_singleton_self _, same.symm⟩ found

theorem keeps (isRound : f.Round block loop round)
    (performs : Performs (fun _ => True) (.initial echo clock) H m block) {before after : List Event}
    (split : H = before ++ round.history ++ after) : ∃ cell value,
    round.outcome.machine.heap.here? round.machine.scope f.decl.name.text = some cell ∧ cell.content = .plain value ∧
      ∀ between ref start later, after = between ++ .started (.expr (.use ref)) start :: later →
        start.scopeOf? ref = some round.machine.scope → ref.name.text = f.decl.name.text →
          (∀ e ∈ between, ∀ other, ¬e.Assigns round.machine.scope f.decl.name.text other) →
            ∀ fuel, perform (fuel + 1) (.expr (.use ref)) start = .ok value start := by
  obtain ⟨cell, value, found, content, still⟩ := isRound.holds performs split
  refine ⟨cell, value, found, content, fun between ref start later last target named unassigned fuel => ?_⟩
  obtain ⟨w, trail, -, known⟩ := isRound.trail performs
  have there := still between (.started (.expr (.use ref)) start) later last fun e member => by
    rcases List.mem_append.mp member with early | now
    · exact unassigned e early
    · obtain rfl := List.mem_singleton.mp now
      exact fun _ => id
  rw [← named] at there
  have read := readVariable_plain target (trail.round_inner known) there content
  exact congrArg (Plan.outcome (perform fuel)) read

end ForLoop.Round

/-- Closures capture the round in which they are made. -/
theorem closures_capture_rounds {echo : Bool} {clock : Clock} {H : List Event} {m : Machine} {f : ForLoop}
    {block loop round : Task} (performs : Performs (fun _ => True) (.initial echo clock) H m block)
    (isRound : f.Round block loop round) : f.Captures H m block loop round where
  encloses := performs.reached.encloses _
  binds _ moment _ _ confined := isRound.binds performs moment confined
  begins := ⟨0, rfl⟩
  found bound _ _ started _ named same inside := isRound.found performs bound started named same inside
  assigned _ _ _ assigns := isRound.assigned performs assigns
  header _ _ asks isExpr _ evaluates := isRound.header performs asks isExpr evaluates
  others _ isOther different _ member inside := isRound.apart performs isOther different member inside
  happens := (isRound.performs_round performs).happens
  keeps _ _ split := isRound.keeps performs split

/-! Rounds that are found by running a text. -/

def Activity.stmt? : Activity → Option Stmt
  | .stmt s => some s
  | _ => none

namespace Stmt

def forLoop? : Stmt → Option ForLoop
  | .block [.var decl, .whileLoop condition body increment [name]] =>
    if name = decl.name then some ⟨decl, condition, increment, body⟩ else none
  | _ => none

def isWhile : Stmt → Bool
  | .whileLoop .. => true
  | _ => false

theorem forLoop?_copying {s : Stmt} {f : ForLoop} (found : s.forLoop? = some f) : s = f.copying := by
  unfold forLoop? at found
  split at found
  · split at found
    · rename_i same
      cases found
      cases same
      rfl
    · cases found
  · cases found

end Stmt

/-- Whatever the block of a loop asks for and is a loop, is that loop, and the statements for which the loop asks are
rounds of it. -/
theorem ForLoop.round_of_asks {f : ForLoop} {block loop round : Task} (isBlock : block.activity = .stmt f.copying)
    (asksLoop : block.Asks loop) (isLoop : loop.activity.stmt?.any Stmt.isWhile = true) (asksBody : loop.Asks round)
    (isBody : round.activity.stmt?.isSome = true) : f.Round block loop round := by
  have own : loop.activity = .stmt (.whileLoop f.condition f.body f.increment [f.decl.name]) := by
    obtain ⟨fuel, a, m⟩ := block
    cases isBlock
    rcases asked_block asksLoop.2 with declaration | ⟨own, -⟩
    · rw [show loop.activity = .stmt (.var f.decl) from declaration] at isLoop
      cases isLoop
    · exact own
  refine ⟨isBlock, asksLoop, own, asksBody, ?_⟩
  obtain ⟨fuel, a, m⟩ := loop
  cases own
  obtain ⟨-, asked⟩ := asksBody
  rw [f.plan_loop] at asked
  rcases asked_whileLoop (perform_scope round.fuel) asked with ⟨e, isExpr, -⟩ | ⟨n, isRound, -⟩
  · rw [show round.activity = .expr e from isExpr] at isBody
    cases isBody
  · exact congrArg Prod.fst isRound

namespace Task

structure LoopRound where
  form : ForLoop
  block : Task
  loop : Task
  round : Task

def rounds (t : Task) : List LoopRound :=
  t.asked.flatMap fun block =>
    match block.activity.stmt?.bind Stmt.forLoop? with
    | none => []
    | some f => (block.asked.filter (·.activity.stmt?.any Stmt.isWhile)).flatMap fun loop =>
      (loop.asked.filter (·.activity.stmt?.isSome)).map fun round => ⟨f, block, loop, round⟩

theorem of_mem_rounds {t : Task} {x : LoopRound} (member : x ∈ t.rounds) :
    t.Asks x.block ∧ x.form.Round x.block x.loop x.round := by
  obtain ⟨block, asked, member⟩ := List.mem_flatMap.mp member
  have asksBlock := asks_of_mem asked
  cases found : block.activity.stmt?.bind Stmt.forLoop? with
  | none =>
    rw [found] at member
    cases member
  | some f =>
    rw [found] at member
    obtain ⟨loop, among, member⟩ := List.mem_flatMap.mp member
    obtain ⟨asksLoop, isLoop⟩ := List.mem_filter.mp among
    obtain ⟨round, among, rfl⟩ := List.mem_map.mp member
    obtain ⟨asksBody, isBody⟩ := List.mem_filter.mp among
    obtain ⟨s, isBlock, isFor⟩ := Option.bind_eq_some_iff.mp found
    have copying : block.activity = .stmt f.copying := by
      rw [← Stmt.forLoop?_copying isFor]
      cases shape : block.activity with
      | stmt s' =>
        rw [shape] at isBlock
        exact congrArg Activity.stmt (Option.some.inj isBlock)
      | _ =>
        rw [shape] at isBlock
        cases isBlock
    exact ⟨asksBlock, ForLoop.round_of_asks copying (asks_of_mem asksLoop) isLoop (asks_of_mem asksBody) isBody⟩

end Task

def Event.readsRound (x : Task.LoopRound) : Event → Bool
  | .started (.expr (.use ref)) start => ref.name.text == x.form.decl.name.text &&
      start.scopeOf? ref == some x.round.machine.scope && start.scope != x.round.machine.scope
  | _ => false

/-- A function is made in the first round and called after the loop. -/
def capturingSource : String :=
  "\x7b var g = nil; for (var i = \"\"; i != \"aa\"; i = i + \"a\") " ++
    "if (i == \"\") g = fun () \x7b return i; \x7d; g(); \x7d"

set_option maxRecDepth 100000 in
theorem closures_capture_rounds_capturing :
    ∃ (H : List Event) (m : Machine) (f : ForLoop) (block loop round : Task),
      Performs (fun _ => True) (.initial true {}) H m block ∧ f.Round block loop round ∧
        f.Captures H m block loop round ∧ ∃ ref start, .started (.expr (.use ref)) start ∈ H ∧
          ref.name.text = f.decl.name.text ∧ start.scopeOf? ref = some round.machine.scope ∧
            start.scope ≠ round.machine.scope := by
  have found : finds capturingSource 12 Task.rounds (fun whole x => whole.history.any (Event.readsRound x)) = true := by
    decide +kernel
  obtain ⟨whole, x, member, reads, run⟩ := finds_run found
  obtain ⟨asks, isRound⟩ := Task.of_mem_rounds member
  have performs := run x.block (.single asks)
  refine ⟨_, _, x.form, x.block, x.loop, x.round, performs, isRound, closures_capture_rounds performs isRound, ?_⟩
  obtain ⟨e, member, reads⟩ := List.any_eq_true.mp reads
  unfold Event.readsRound at reads
  split at reads
  · rename_i ref start
    simp only [Bool.and_eq_true, beq_iff_eq, bne_iff_ne] at reads
    exact ⟨ref, start, member, reads.1.1, reads.1.2, reads.2⟩
  · cases reads

def Event.assignsTo (name : String) : Event → Bool
  | .ended (.expr (.assign ref _ _)) _ (.ok _ _) => ref.name.text == name
  | _ => false

theorem Event.assignsTo_of_assigns {e : Event} {r : Ref .scope} {name : String} {value : Value}
    (assigns : e.Assigns r name value) : e.assignsTo name = true := by
  unfold Event.Assigns at assigns
  split at assigns
  · exact beq_iff_eq.mpr assigns.2.2.1
  · exact assigns.elim

def FunctionDecl.returns? (name : String) (decl : FunctionDecl) : Bool :=
  match decl.body with
  | some [.returning _ (some (.use ref))] => ref.name.text == name
  | _ => false

def Task.LoopRound.texts? (x : Task.LoopRound) (m : Machine) (fuel : Nat) (g : Ref .function) :
    Option (String × String) :=
  match x.round.outcome.machine.heap.here? x.round.machine.scope x.form.decl.name.text,
    perform fuel (.call (m.heap.function g) [] [] 0) m with
  | some { content := .plain (.str text), .. }, .ok (.str result) _ => some (text, result)
  | _, _ => none

theorem Task.LoopRound.texts?_some {x : Task.LoopRound} {m : Machine} {fuel : Nat} {g : Ref .function}
    {text result : String} (found : x.texts? m fuel g = some (text, result)) :
    (∃ cell, x.round.outcome.machine.heap.here? x.round.machine.scope x.form.decl.name.text = some cell ∧
      cell.content = .plain (.str text)) ∧
        ∃ last, perform fuel (.call (m.heap.function g) [] [] 0) m = .ok (.str result) last := by
  unfold texts? at found
  split at found
  · rename_i held called
    cases found
    exact ⟨⟨_, held, rfl⟩, _, called⟩
  · cases found

/-- While the body of a round runs, a function is made that returns the variable of the loop. Only the loop itself
assigns to variables of that name, and yet the function does not return what the round had in its variable. -/
def Event.escapes (whole : Task) (x : Task.LoopRound) (fuel : Nat) : Event → Bool
  | .ended (.expr (.lambda decl)) _ (.ok (.function g) _) =>
    let m := whole.outcome.machine
    decl.returns? x.form.decl.name.text &&
      ((whole.history ++ history fuel (.call (m.heap.function g) [] [] 0) m).all fun e =>
        !e.assignsTo x.form.decl.name.text || e.machine.scope == x.loop.machine.scope) &&
      (x.texts? m fuel g).any fun (text, result) => text != result
  | _ => false

/-- A function made by the condition is called in the first round and makes another one. -/
def escapingSource : String :=
  "\x7b var mk = nil; var g = nil; " ++
    "for (var i = \"\"; (mk = fun () \x7b return fun () \x7b return i; \x7d; \x7d) != nil and i != \"aa\"; " ++
    "i = i + \"a\") if (i == \"\") g = mk(); \x7d"

set_option maxRecDepth 100000 in
/-- The function that is made in the round reads the variable of the loop, which is changed after the round has
ended. -/
theorem closures_of_header_escape :
    ∃ (H : List Event) (m : Machine) (f : ForLoop) (block loop round : Task),
      Performs (fun _ => True) (.initial true {}) H m block ∧ f.Round block loop round ∧
        ∃ decl n g made, .ended (.expr (.lambda decl)) n (.ok (.function g) made) ∈ round.history ∧
          decl.returns? f.decl.name.text = true ∧
            (∀ e ∈ H ++ history 12 (.call (m.heap.function g) [] [] 0) m, ∀ r value,
              e.Assigns r f.decl.name.text value → e.machine.scope = loop.machine.scope) ∧
                ∃ cell value result last,
                  round.outcome.machine.heap.here? round.machine.scope f.decl.name.text = some cell ∧
                    cell.content = .plain value ∧
                      perform 12 (.call (m.heap.function g) [] [] 0) m = .ok result last ∧ result ≠ value := by
  have found : finds escapingSource 12 Task.rounds
      (fun whole x => x.round.history.any (Event.escapes whole x 12)) = true := by
    decide +kernel
  obtain ⟨whole, x, member, escapes, run⟩ := finds_run found
  obtain ⟨asks, isRound⟩ := Task.of_mem_rounds member
  refine ⟨_, _, x.form, x.block, x.loop, x.round, run x.block (.single asks), isRound, ?_⟩
  obtain ⟨e, member, escapes⟩ := List.any_eq_true.mp escapes
  unfold Event.escapes at escapes
  split at escapes
  · rename_i decl n g made
    simp only [Bool.and_eq_true, List.all_eq_true, Bool.or_eq_true, Bool.not_eq_true', beq_iff_eq] at escapes
    obtain ⟨⟨returns, only⟩, differ⟩ := escapes
    obtain ⟨⟨text, result⟩, found, differ⟩ := (Option.any_eq_true ..).mp differ
    obtain ⟨⟨cell, held, content⟩, last, called⟩ := Task.LoopRound.texts?_some found
    refine ⟨decl, n, g, made, member, returns, fun e member r value assigns => ?_, cell, _, _, last, held, content,
      called, ?_⟩
    · exact (only e member).resolve_left fun other => by simp [Event.assignsTo_of_assigns assigns] at other
    · rintro same
      exact bne_iff_ne.mp differ (Value.str.inj same).symm
  · cases escapes

end Treewalk
