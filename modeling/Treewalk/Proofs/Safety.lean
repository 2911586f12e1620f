import Treewalk.Proofs.World

/-!
Safety of plans. A plan is safe if it keeps the world sound as far as it works by itself, asks only for
activities that are ready to be performed, and goes on safely with whatever such an activity may yield.
The rules of this module take a computation apart in the order in which it is written.
-/

namespace Treewalk

open Scoping

def Outcome.machine : Outcome α → Machine
  | .ok _ m | .error _ m => m

theorem Plan.outcome_andThen {perform : (a : Activity) → Machine → Outcome a.Result} (plan : Plan α)
    (f : Outcome α → Plan β) :
    (plan.andThen f).outcome perform = (f (plan.outcome perform)).outcome perform := by
  induction plan with
  | done outcome => rfl
  | ask a m next ih => exact ih (perform a m)

theorem Run.outcome_bind {act : (a : Activity) → Machine → Outcome a.Result} (c : Run α) (f : α → Run β)
    (m : Machine) : ((c >>= f) m).outcome act =
      match (c m).outcome act with
      | .ok a after => (f a after).outcome act
      | .error reason after => .error reason after := by
  refine (Plan.outcome_andThen _ _).trans ?_
  cases (c m).outcome act <;> rfl

theorem Run.outcome_bind_ok {act : (a : Activity) → Machine → Outcome a.Result} {c : Run α} {f : α → Run β} {b : β}
    {m after : Machine}
    (done : ((c >>= f) m).outcome act = .ok b after) :
    ∃ a middle, (c m).outcome act = .ok a middle ∧ (f a middle).outcome act = .ok b after := by
  rw [Run.outcome_bind] at done
  cases first : (c m).outcome act with
  | ok a middle =>
    rw [first] at done
    exact ⟨a, middle, rfl, done⟩
  | error reason middle =>
    rw [first] at done
    cases done

theorem Run.demand_ok {act : (a : Activity) → Machine → Outcome a.Result} {holds : Bool} {line : Line} {fault : Fault}
    {m after : Machine} (done : (Run.demand holds line fault m).outcome act = .ok () after) :
    holds = true ∧ after = m := by
  cases holds with
  | true =>
    cases done
    exact ⟨rfl, rfl⟩
  | false => cases done

theorem Run.heap_bind (f : Heap → Run β) (m : Machine) : (Run.heap >>= f) m = f m.heap m :=
  rfl

theorem Run.reading_bind (g : Heap → α) (f : α → Run β) (m : Machine) :
    (Run.reading g >>= f) m = f (g m.heap) m :=
  rfl

/-- The accessor of a property of instances, taken from the class and so without a receiver. -/
def Heap.Unbound (h : Heap) (f : Function) : Prop :=
  ∃ c name cell p, (name, cell) ∈ (h.cls c).fields.entries ∧ cell.modifiers.static = false ∧
    cell.content = .computed p ∧
      (f = h.function (h.property p).getter ∨ ∃ setter ∈ (h.property p).setter, f = h.function setter)

/-- A function that can be called. The accessors of instance properties can, though nothing has bound
`this` for them. -/
def World.Callable (view : View) (w : World) (f : Function) : Prop :=
  w.Closed view f ∨ w.heap.Unbound f

namespace Activity

def declares? : Activity → Option String
  | .stmt s => s.declares?.map Name.text
  | _ => none

def permit (a : Activity) (m : Machine) : Permit :=
  { since := m.heap.scopes.size, target := a.declares?.map fun name => (m.scope, name) }

def Ready (view : View) (w : World) (m : Machine) : Activity → Prop
  | .expr e => ∃ p, At view p (.expr e) ∧ (view.strict → w.Stands p.levels m.scope)
  | .stmt s => ∃ p, At view p (.stmt s) ∧ w.Placed view p.levels m.scope
  | .call f args generics _ => w.Callable view f ∧ (∀ value ∈ args, w.Known view value) ∧
      ∀ value ∈ generics, w.Known view value
  | .text value => w.Known view value

end Activity

def Signal.Known (view : View) (w : World) : Signal → Prop
  | .returning value | .expecting value => w.Known view value
  | _ => True

theorem Signal.Known.mono {view : View} {k : Permit} {w w' : World} (leads : w.Leads k w')
    {signal : Signal} (known : signal.Known view w) : signal.Known view w' := by
  cases signal with
  | returning value | expecting value => exact World.Known.mono leads known
  | _ => trivial

/-- What a call yields: a constructor, what it is bound to. -/
structure World.Yielded (view : View) (w : World) (f : Function) (value : Value) : Prop where
  known : w.Known view value
  receiver : f.constructs = true → ∀ body closure receiver, f.body = .user body closure →
    w.heap.here? closure "this" = some (.ofValue receiver) → value = receiver

def Activity.Good (view : View) (scope : Ref .scope) : (a : Activity) → World → a.Result → Prop
  | .expr _, w, value => w.Known view value
  | .call f _ _ _, w, value => w.Yielded view f value
  | .stmt s, w, signal => signal.Known view w ∧
      ∀ name ∈ s.declares?, (w.heap.here? scope name.text).isSome = true
  | .text _, _, _ => True

/-- An outcome in a sound world, with the machine back in its scope. -/
structure Lands (view : View) (k : Permit) (scope : Ref .scope) (Q : World → α → Prop)
    (w w' : World) (outcome : Outcome α) : Prop where
  leads : w.Leads k w'
  sound : w'.Sound view
  heap : w'.heap = outcome.machine.heap
  scope : outcome.machine.scope = scope
  result : ∀ a m, outcome = .ok a m → Q w' a

inductive Plan.Safe (view : View) (k : Permit) (scope : Ref .scope) (Q : World → α → Prop) :
    World → Plan α → Prop where
  | done {w w' : World} {outcome : Outcome α} (lands : Lands view k scope Q w w' outcome) :
      Safe view k scope Q w (.done outcome)
  | ask {w w' : World} {a : Activity} {m : Machine} {next : Outcome a.Result → Plan α}
      (leads : w.Leads k w') (sound : w'.Sound view) (heap : w'.heap = m.heap)
      (ready : a.Ready view w' m) (within : (a.permit m).Within k)
      (resume : ∀ w'' outcome, Lands view (a.permit m) m.scope (a.Good view m.scope) w' w'' outcome →
        Safe view k scope Q w'' (next outcome)) :
      Safe view k scope Q w (.ask a m next)

/-- A computation that changes neither the heap nor the scope. -/
def Run.Quiet (c : Run α) : Prop :=
  ∀ m, ∃ a m', c m = .done (.ok a m') ∧ m'.heap = m.heap ∧ m'.scope = m.scope

/-- A computation that needs no other activity and does not stop short. -/
def Run.Smooth (c : Run α) : Prop :=
  ∀ m, ∃ a m', c m = .done (.ok a m')

namespace Run.Smooth

theorem pure (a : α) : (Pure.pure a : Run α).Smooth :=
  fun m => ⟨a, m, rfl⟩

theorem reading (f : Heap → α) : (Run.reading f).Smooth :=
  fun _ => ⟨_, _, rfl⟩

theorem allocate (f : Heap → α × Heap) : (Run.allocate f).Smooth :=
  fun _ => ⟨_, _, rfl⟩

theorem update (f : Heap → Heap) : (Run.update f).Smooth :=
  fun _ => ⟨_, _, rfl⟩

theorem bind {c : Run α} {f : α → Run β} (first : c.Smooth) (next : ∀ a, (f a).Smooth) :
    (c >>= f).Smooth := by
  intro m
  obtain ⟨a, m', done⟩ := first m
  obtain ⟨b, m'', rest⟩ := next a m'
  refine ⟨b, m'', ?_⟩
  change (c m).andThen _ = _
  rw [done]
  exact rest

end Run.Smooth

theorem Run.warn_quiet (line : Line) (notice : Notice) : (Run.warn line notice).Quiet :=
  fun _ => ⟨_, _, rfl, rfl, rfl⟩

theorem Run.printOut_quiet (text : String) : (Run.printOut text).Quiet :=
  fun _ => ⟨_, _, rfl, rfl, rfl⟩

theorem Run.printErr_quiet (text : String) : (Run.printErr text).Quiet :=
  fun _ => ⟨_, _, rfl, rfl, rfl⟩

theorem Run.readClock_quiet : Run.readClock.Quiet :=
  fun _ => ⟨_, _, rfl, rfl, rfl⟩

/-- A sound world at a machine, where a permit is in force. -/
structure Stage (view : View) (k : Permit) (w : World) (m : Machine) : Prop where
  sound : w.Sound view
  heap : w.heap = m.heap
  since : k.since ≤ m.heap.scopes.size

/-- The permit to declare names in new scopes only. -/
def Machine.calm (m : Machine) : Permit :=
  { since := m.heap.scopes.size }

variable {view : View} {k k' : Permit} {w w' start : World} {m : Machine} {scope : Ref .scope}
  {α β γ : Type} {P : World → α → Prop} {Q : World → β → Prop}

namespace Stage

theorem calm_within (stage : Stage view k w m) : m.calm.Within k :=
  ⟨fun r name allows => .inl (allows.elim (Nat.le_trans stage.since) fun target => by cases target),
    fun _ => rfl⟩

theorem calm (stage : Stage view k w m) : Stage view m.calm w m :=
  ⟨stage.sound, stage.heap, Nat.le_refl _⟩

theorem inScope (stage : Stage view k w m) (r : Ref .scope) : Stage view k w { m with scope := r } :=
  ⟨stage.sound, stage.heap, stage.since⟩

theorem step (stage : Stage view k w m) {m' : Machine} (leads : w.Leads k' w') (sound : w'.Sound view)
    (heap : w'.heap = m'.heap) : Stage view k w' m' :=
  ⟨sound, heap, by
    rw [← heap]
    refine Nat.le_trans stage.since ?_
    rw [← stage.heap]
    exact leads.size⟩

end Stage

namespace Plan.Safe

theorem after {plan : Plan α} (leads : w.Leads k w') (safe : Safe view k scope P w' plan) :
    Safe view k scope P w plan := by
  cases safe with
  | done lands =>
    exact .done ⟨leads.trans lands.leads, lands.sound, lands.heap, lands.scope, lands.result⟩
  | ask later sound heap ready within resume =>
    exact .ask (leads.trans later) sound heap ready within resume

/-- One plan after another. What comes first may have a narrower permit and another scope. -/
theorem andThen {plan : Plan α} {f : Outcome α → Plan β} {inner : Ref .scope}
    (safe : Safe view k' inner P w plan) (within : k'.Within k) (leads : start.Leads k' w)
    (next : ∀ w' outcome, Lands view k' inner P start w' outcome → Safe view k scope Q w' (f outcome)) :
    Safe view k scope Q w (plan.andThen f) := by
  induction safe with
  | done lands =>
    refine (next _ _ ⟨leads.trans lands.leads, lands.sound, lands.heap, lands.scope,
      lands.result⟩).after (lands.leads.mono within)
  | ask later sound heap ready narrow resume ih =>
    refine .ask (later.mono within) sound heap ready
      (narrow.trans within) ?_
    intro w'' outcome lands
    exact ih w'' outcome lands ((leads.trans later).trans (lands.leads.mono narrow))

theorem pure {a : α} (stage : Stage view k w m) (holds : P w a) :
    Safe view k m.scope P w ((Pure.pure a : Run α) m) :=
  .done ⟨.refl k w, stage.sound, stage.heap, rfl, fun _ _ same => by cases same; exact holds⟩

theorem stop (stage : Stage view k w m) (reason : Stop) :
    Safe view k m.scope P w ((Run.stop reason : Run α) m) :=
  .done ⟨.refl k w, stage.sound, stage.heap, rfl, fun _ _ same => by cases same⟩

theorem raise (stage : Stage view k w m) (line : Line) (fault : Fault) :
    Safe view k m.scope P w ((Run.raise line fault : Run α) m) :=
  stop stage _

theorem bindWith {c : Run α} {f : α → Run β} (stage : Stage view k w m) (within : k'.Within k)
    (first : Safe view k' m.scope P w (c m))
    (next : ∀ w' m' a, Stage view k w' m' → w.Leads k' w' → m'.scope = m.scope → P w' a →
      Safe view k m'.scope Q w' (f a m')) : Safe view k m.scope Q w ((c >>= f) m) := by
  refine andThen first within (.refl _ w) ?_
  intro w' outcome lands
  cases outcome with
  | ok a m' =>
    have same : m'.scope = m.scope := lands.scope
    rw [← same]
    exact next w' m' a (stage.step lands.leads lands.sound lands.heap) lands.leads same
      (lands.result a m' rfl)
  | error reason m' =>
    exact .done ⟨.refl k w', lands.sound, lands.heap, lands.scope, fun _ _ same => by cases same⟩

/-- The usual case: the first part declares nothing where names are bound already. -/
theorem bind {c : Run α} {f : α → Run β} (stage : Stage view k w m)
    (first : Safe view m.calm m.scope P w (c m))
    (next : ∀ w' m' a, Stage view k w' m' → w.Leads m.calm w' → m'.scope = m.scope → P w' a →
      Safe view k m'.scope Q w' (f a m')) : Safe view k m.scope Q w ((c >>= f) m) :=
  bindWith stage stage.calm_within first next

theorem weakenLater {plan : Plan α} {P' : World → α → Prop} (safe : Safe view k scope P w plan)
    (leads : start.Leads k w) (weaker : ∀ w' a, start.Leads k w' → P w' a → P' w' a) :
    Safe view k scope P' w plan := by
  induction safe with
  | done lands =>
    exact .done ⟨lands.leads, lands.sound, lands.heap, lands.scope,
      fun a m same => weaker _ a (leads.trans lands.leads) (lands.result a m same)⟩
  | ask later sound heap ready narrow resume ih =>
    refine .ask later sound heap ready narrow fun w'' outcome lands => ?_
    exact ih w'' outcome lands ((leads.trans later).trans (lands.leads.mono narrow))

theorem weaken {plan : Plan α} {P' : World → α → Prop} (safe : Safe view k scope P w plan)
    (weaker : ∀ w a, P w a → P' w a) : Safe view k scope P' w plan :=
  safe.weakenLater (.refl k w) fun w' a _ => weaker w' a

theorem asked {a : Activity} (stage : Stage view k w m) (ready : a.Ready view w m)
    (within : (a.permit m).Within k) :
    Safe view k m.scope (a.Good view m.scope) w (Run.ask a m) :=
  .ask (.refl k w) stage.sound stage.heap ready within fun w'' _ lands =>
    .done ⟨.refl k w'', lands.sound, lands.heap, lands.scope, lands.result⟩

theorem eval {e : Expr} {p : Place} (stage : Stage view k w m) (stands : At view p (.expr e))
    (around : view.strict → w.Stands p.levels m.scope) :
    Safe view k m.scope (fun w value => w.Known view value) w (Run.eval e m) :=
  asked (a := .expr e) stage ⟨p, stands, around⟩ stage.calm_within

theorem call {f : Function} {args generics : List Value} (stage : Stage view k w m)
    (callable : w.Callable view f) (argsKnown : ∀ value ∈ args, w.Known view value)
    (genericsKnown : ∀ value ∈ generics, w.Known view value) (line : Line) :
    Safe view k m.scope (fun w value => w.Yielded view f value) w (Run.call f args generics line m) :=
  asked (a := .call f args generics line) stage ⟨callable, argsKnown, genericsKnown⟩ stage.calm_within

theorem spell {value : Value} (stage : Stage view k w m) (known : w.Known view value) :
    Safe view k m.scope (fun _ _ => True) w (Run.spell value m) :=
  asked (a := .text value) stage known stage.calm_within

theorem orRaise {result : Except Fault α} {f : α → Run β} (stage : Stage view k w m) (line : Line)
    (next : ∀ a, result = .ok a → Safe view k m.scope Q w (f a m)) :
    Safe view k m.scope Q w ((Run.orRaise line result >>= f) m) := by
  cases result with
  | ok a => exact next a rfl
  | error fault => exact raise stage line fault

theorem raised {result : Except Fault α} (stage : Stage view k w m) (line : Line)
    (holds : ∀ a, result = .ok a → P w a) :
    Safe view k m.scope P w (Run.orRaise line result m) := by
  cases result with
  | ok a => exact pure stage (holds a rfl)
  | error fault => exact raise stage line fault

theorem map {c : Run α} {f : α → β} (safe : Safe view k scope (fun w a => Q w (f a)) w (c m)) :
    Safe view k scope Q w ((f <$> c) m) := by
  refine andThen safe (.refl k) (.refl k w) ?_
  intro w' outcome lands
  cases outcome with
  | ok a m' =>
    exact .done ⟨.refl k w', lands.sound, lands.heap, lands.scope,
      fun _ _ same => by cases same; exact lands.result a m' rfl⟩
  | error reason m' =>
    exact .done ⟨.refl k w', lands.sound, lands.heap, lands.scope, fun _ _ same => by cases same⟩

theorem mapM {x : Option α} {f : α → Run β} {Q : World → Option β → Prop} (stage : Stage view k w m)
    (none : x = none → Q w none)
    (some : ∀ a ∈ x, Safe view k m.scope (fun w' b => Q w' (some b)) w (f a m)) :
    Safe view k m.scope Q w (x.mapM f m) := by
  cases x with
  | none => exact pure stage (none rfl)
  | some a => exact map (some a rfl)

theorem demand {holds : Bool} {f : Unit → Run β} (stage : Stage view k w m) (line : Line)
    (fault : Fault) (next : holds = true → Safe view k m.scope Q w (f () m)) :
    Safe view k m.scope Q w ((Run.demand holds line fault >>= f) m) := by
  cases holds with
  | true => exact next rfl
  | false => exact raise stage line fault

theorem ite {c : Prop} [Decidable c] {yes no : Run α} (holds : c → Safe view k scope P w (yes m))
    (fails : ¬c → Safe view k scope P w (no m)) :
    Safe view k scope P w ((if c then yes else no) m) := by
  by_cases decided : c
  · rw [if_pos decided]
    exact holds decided
  · rw [if_neg decided]
    exact fails decided

theorem get {f : Machine → Run β} (next : Safe view k scope Q w (f m m)) :
    Safe view k scope Q w ((MonadState.get >>= f) m) :=
  next

theorem heap {f : Heap → Run β} (next : Safe view k scope Q w (f m.heap m)) :
    Safe view k scope Q w ((Run.heap >>= f) m) :=
  next

theorem reading {g : Heap → α} {f : α → Run β} (next : Safe view k scope Q w (f (g m.heap) m)) :
    Safe view k scope Q w ((Run.reading g >>= f) m) :=
  next

theorem currentScope {f : Ref .scope → Run β} (next : Safe view k scope Q w (f m.scope m)) :
    Safe view k scope Q w ((Run.currentScope >>= f) m) :=
  next

theorem inGlobalScope {f : Bool → Run β} (next : Safe view k scope Q w (f (m.heap.isGlobal m.scope) m)) :
    Safe view k scope Q w ((Run.inGlobalScope >>= f) m) :=
  next

theorem quietly {c : Run α} {f : α → Run β} (stage : Stage view k w m) (quiet : c.Quiet)
    (next : ∀ m' a, m'.heap = m.heap → m'.scope = m.scope → Stage view k w m' →
      Safe view k m'.scope Q w (f a m')) : Safe view k m.scope Q w ((c >>= f) m) := by
  obtain ⟨a, m', done, heap, scope⟩ := quiet m
  have same : (c >>= f) m = f a m' := by
    change (c m).andThen _ = _
    rw [done]
    rfl
  rw [same, ← scope]
  exact next m' a heap scope ⟨stage.sound, stage.heap.trans heap.symm, heap.symm ▸ stage.since⟩

theorem quiet {c : Run α} (stage : Stage view k w m) (quiet : c.Quiet) :
    Safe view k m.scope (fun w' _ => w' = w) w (c m) := by
  obtain ⟨a, m', done, heap, scope⟩ := quiet m
  rw [done]
  exact .done ⟨.refl k w, stage.sound, stage.heap.trans heap.symm, scope, fun _ _ _ => rfl⟩

theorem allocate {g : Heap → α × Heap} {f : α → Run β} (stage : Stage view k w m)
    (leads : w.Leads k w') (sound : w'.Sound view) (heap : w'.heap = (g m.heap).2)
    (next : Stage view k w' { m with heap := (g m.heap).2 } →
      Safe view k m.scope Q w' (f (g m.heap).1 { m with heap := (g m.heap).2 })) :
    Safe view k m.scope Q w ((Run.allocate g >>= f) m) :=
  .after leads (next (stage.step leads sound heap))

theorem update {g : Heap → Heap} {f : Unit → Run β} (stage : Stage view k w m)
    (leads : w.Leads k w') (sound : w'.Sound view) (heap : w'.heap = g m.heap)
    (next : Stage view k w' { m with heap := g m.heap } →
      Safe view k m.scope Q w' (f () { m with heap := g m.heap })) :
    Safe view k m.scope Q w ((Run.update g >>= f) m) :=
  .after leads (next (stage.step leads sound heap))

theorem allocated {g : Heap → α × Heap} (leads : w.Leads k w')
    (sound : w'.Sound view) (heap : w'.heap = (g m.heap).2) (holds : P w' (g m.heap).1) :
    Safe view k m.scope P w (Run.allocate g m) :=
  .done ⟨leads, sound, heap, rfl, fun _ _ same => by cases same; exact holds⟩

theorem updated {g : Heap → Heap} {P : World → Unit → Prop} (leads : w.Leads k w')
    (sound : w'.Sound view) (heap : w'.heap = g m.heap) (holds : P w' ()) :
    Safe view k m.scope P w (Run.update g m) :=
  .done ⟨leads, sound, heap, rfl, fun _ _ same => by cases same; exact holds⟩

theorem addFunction {g : Function} {f : Ref .function → Run β} (stage : Stage view k w m)
    (rooted : g.Rooted view) (next : Stage view k (w.set (m.heap.addFunction g).2) { m with heap := (m.heap.addFunction g).2 } →
      Safe view k m.scope Q (w.set (m.heap.addFunction g).2)
        (f ⟨m.heap.functions.size⟩ { m with heap := (m.heap.addFunction g).2 })) :
    Safe view k m.scope Q w ((Run.allocate (·.addFunction g) >>= f) m) := by
  refine allocate stage (show w.Leads k (w.set (m.heap.addFunction g).2) from ?_) ?_ rfl next
  · rw [← stage.heap]
    exact .set (.addFunction _ _ g) rfl
  · rw [← stage.heap]
    exact stage.sound.addFunction rooted

/-- A computation that needs no other activity may leave classes unfinished between its steps, if they are
finished in the end. -/
theorem finish {plan : Plan α} (smooth : ∃ a m', plan = .done (.ok a m'))
    (steps : Safe view k.making scope P w plan) {P' : World → α → Prop}
    (finished : ∀ w' a, w'.Sound view → w.heap.Grows k.Allows w'.heap → P w' a → w.Upkeep w' ∧ P' w' a) :
    Safe view k scope P' w plan := by
  obtain ⟨a, m', rfl⟩ := smooth
  cases steps with
  | done lands =>
    obtain ⟨upkeep, holds⟩ := finished _ a lands.sound lands.leads.grows (lands.result a m' rfl)
    have leads : w.Leads k _ := ⟨lands.leads.sites, lands.leads.grows, fun _ => upkeep⟩
    refine .done ⟨leads, lands.sound, lands.heap, lands.scope, ?_⟩
    intro _ _ same
    cases same
    exact holds

theorem inScope {body : Run α} {r : Ref .scope}
    (inner : Safe view k r P w (body { m with scope := r })) :
    Safe view k m.scope P w (Run.inScope r body m) := by
  refine andThen inner (.refl k) (.refl k w) ?_
  intro w' outcome lands
  cases outcome with
  | ok a after =>
    exact .done ⟨.refl k w', lands.sound, lands.heap, rfl,
      fun b _ same => by cases same; exact lands.result a after rfl⟩
  | error reason after =>
    exact .done ⟨.refl k w', lands.sound, lands.heap, rfl, fun _ _ same => by cases same⟩

theorem catching {body : Run α} {handler : RuntimeError → Run α} (stage : Stage view k w m)
    (inner : Safe view m.calm m.scope P w (body m))
    (next : ∀ e w' m', Stage view k w' m' → w.Leads m.calm w' → m'.scope = m.scope →
      Safe view k m'.scope P w' (handler e m')) :
    Safe view k m.scope P w (Run.catching body handler m) := by
  refine andThen inner stage.calm_within (.refl _ w) ?_
  intro w' outcome lands
  cases outcome with
  | ok a after => exact .done ⟨.refl k w', lands.sound, lands.heap, lands.scope, lands.result⟩
  | error reason after =>
    cases reason with
    | fault e =>
      have same : after.scope = m.scope := lands.scope
      rw [← same]
      exact next e w' after (stage.step lands.leads lands.sound lands.heap) lands.leads same
    | crash | outOfFuel => exact .done ⟨.refl k w', lands.sound, lands.heap, lands.scope, lands.result⟩

end Plan.Safe

end Treewalk
