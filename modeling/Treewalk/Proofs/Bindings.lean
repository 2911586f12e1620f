import Treewalk.Proofs.Composition
import Treewalk.Proofs.Trail

/-!
What becomes of a binding while something else goes on. An activity leaves the bindings of the scopes that are
there already as they are, apart from assignments to them; only a statement also binds names in the scope in
which it runs. So a declaration that fails before it binds its name leaves behind what was bound before. The
declaration of a class binds its name early, to nil, and when it fails after that, the name stays bound to
nil.
-/

namespace Treewalk

/-- The scope of the variable that a reference denotes. -/
def Machine.scopeOf? (m : Machine) (ref : Reference) : Option (Ref .scope) :=
  match ref.depth with
  | some depth => m.heap.ancestor? depth m.scope
  | none => some .globals

def Event.Assigns (r : Ref .scope) (name : String) (value : Value) : Event → Prop
  | .ended (.expr (.assign ref _ _)) _ (.ok result after) => result = value ∧ after.scopeOf? ref = some r ∧
      ref.name.text = name ∧ ∃ cell, after.heap.here? r name = some cell ∧ cell.content = .plain value
  | _ => False

variable {r : Ref .scope} {name : String}

theorem Event.Assigns.held {e : Event} {value : Value} (assigns : e.Assigns r name value) :
    ∃ cell, e.machine.heap.here? r name = some cell ∧ cell.content = .plain value := by
  unfold Event.Assigns at assigns
  split at assigns
  · exact assigns.2.2.2
  · exact assigns.elim

/-- A name is bound as before, or holds what was assigned to it last. -/
inductive Heap.Spares (r : Ref .scope) (name : String) (events : List Event) (h later : Heap) : Prop where
  | untouched (none : ∀ e ∈ events, ∀ value, ¬e.Assigns r name value)
      (same : later.here? r name = h.here? r name)
  | assigned {before after : List Event} {e : Event} {cell : Cell} {value : Value}
      (split : events = before ++ e :: after) (last : e.Assigns r name value)
      (none : ∀ e ∈ after, ∀ value, ¬e.Assigns r name value) (found : h.here? r name = some cell)
      (held : later.here? r name = some { cell with content := .plain value })

namespace Heap.Spares

variable {events more : List Event} {h h' h'' : Heap}

theorem of_same (same : h'.here? r name = h.here? r name) : h.Spares r name [] h' :=
  .untouched (by simp) same

theorem trans (first : h.Spares r name events h') (second : h'.Spares r name more h'') :
    h.Spares r name (events ++ more) h'' := by
  cases second with
  | untouched none same =>
    cases first with
    | untouched none' same' =>
      refine .untouched (fun e member => ?_) (same.trans same')
      exact (List.mem_append.mp member).elim (none' e) (none e)
    | assigned split last none' found held =>
      refine .assigned (by rw [split, List.append_assoc]; rfl) last (fun e member => ?_) found (same.trans held)
      exact (List.mem_append.mp member).elim (none' e) (none e)
  | @assigned before after e cell value split last none found held =>
    have whole : events ++ more = (events ++ before) ++ e :: after := by rw [split, List.append_assoc]
    cases first with
    | untouched _ same' => exact .assigned whole last none (by rw [← same', found]) held
    | assigned _ _ _ found' held' =>
      rw [held'] at found
      cases found
      exact .assigned whole last none found' held

theorem rules (spares : h.Spares r name events h') {cell : Cell} (found : h'.here? r name = some cell) :
    ∃ old, h.here? r name = some old ∧ cell = { old with content := cell.content } := by
  cases spares with
  | untouched _ same => exact ⟨cell, by rw [← same, found], rfl⟩
  | assigned _ _ _ there held =>
    rw [found] at held
    cases held
    exact ⟨_, there, rfl⟩

theorem record (spares : h.Spares r name events h') (e : Event) (same : e.machine.heap = h') :
    h.Spares r name (events ++ [e]) h' := by
  by_cases assigns : ∃ value, e.Assigns r name value
  · obtain ⟨value, assigns⟩ := assigns
    obtain ⟨cell, found, content⟩ := assigns.held
    rw [same] at found
    obtain ⟨old, there, rules⟩ := spares.rules found
    rw [content] at rules
    exact .assigned rfl assigns (by simp) there (by rw [found, rules])
  · refine spares.trans (.untouched (fun x member value held => ?_) rfl)
    obtain rfl := List.mem_singleton.mp member
    exact assigns ⟨value, held⟩

theorem started (spares : h.Spares r name events h') (a : Activity) (m : Machine) :
    h.Spares r name (.started a m :: events) h' := by
  have begun : h.Spares r name [.started a m] h := .untouched (by simp [Event.Assigns]) rfl
  exact begun.trans spares

end Heap.Spares

theorem Plan.events_andThen {perform : (a : Activity) → Machine → Outcome a.Result}
    {history : Activity → Machine → List Event} (plan : Plan α) (f : Outcome α → Plan β) :
    (plan.andThen f).events perform history =
      plan.events perform history ++ (f (plan.outcome perform)).events perform history := by
  induction plan with
  | done outcome => rfl
  | ask a m next ih =>
    change history a m ++ ((next (perform a m)).andThen f).events perform history = _
    rw [ih, ← List.append_assoc]
    rfl

theorem Run.events_bind {perform : (a : Activity) → Machine → Outcome a.Result}
    {history : Activity → Machine → List Event} (c : Run α) (f : α → Run β) (m : Machine) :
    ((c >>= f) m).events perform history = (c m).events perform history ++
      match (c m).outcome perform with
      | .ok a after => (f a after).events perform history
      | .error _ _ => [] := by
  refine (Plan.events_andThen (c m) _).trans ?_
  cases (c m).outcome perform <;> rfl

/-- What fails before its last step fails by itself. -/
theorem Run.fails_of_normal {perform : (a : Activity) → Machine → Outcome a.Result}
    {history : Activity → Machine → List Event} {c : Run Unit} {m after : Machine} {reason : Stop}
    (failed : ((c >>= fun _ => Pure.pure Signal.normal) m).outcome perform = .error reason after) :
    (c m).outcome perform = .error reason after ∧
      ((c >>= fun _ => Pure.pure Signal.normal) m).events perform history = (c m).events perform history := by
  rw [Run.outcome_bind] at failed
  rw [Run.events_bind]
  cases done : (c m).outcome perform with
  | ok _ last =>
    rw [done] at failed
    cases failed
  | error _ last =>
    rw [done] at failed
    cases failed
    exact ⟨rfl, List.append_nil _⟩

/-- A name has been bound to nil on the way, and is spared from then on. -/
def Resets (r : Ref .scope) (name : String) (events : List Event) (later : Heap) : Prop :=
  ∃ before after, ∃ h : Heap, events = before ++ after ∧ h.here? r name = some (Cell.ofValue .nil) ∧
    h.Spares r name after later

/-- What goes on from a machine to an outcome spares a name, and comes back to the scope. -/
structure Spares (r : Ref .scope) (name : String) (m : Machine) (events : List Event) (outcome : Outcome α) :
    Prop where
  heap : m.heap.Spares r name events outcome.machine.heap
  size : m.heap.scopes.size ≤ outcome.machine.heap.scopes.size
  scope : outcome.machine.scope = m.scope

section

variable (perform : (a : Activity) → Machine → Outcome a.Result) (history : Activity → Machine → List Event)
  (r : Ref .scope) (name : String)

/-- Activities spare a name of a scope that is there, statements only if they do not run in it. -/
def Sparing : Prop :=
  ∀ a m, r.index < m.heap.scopes.size → (∀ s, a = .stmt s → r ≠ m.scope) →
    Spares r name m (history a m) (perform a m)

def Plan.Spared (m : Machine) (plan : Plan α) : Prop :=
  Spares r name m (plan.events perform history) (plan.outcome perform)

def Run.SparesIn (free : Ref .scope → Prop) (c : Run α) : Prop :=
  ∀ m, r.index < m.heap.scopes.size → free m.scope → (c m).Spared perform history r name m

end

section

variable {perform : (a : Activity) → Machine → Outcome a.Result} {history : Activity → Machine → List Event}
  {free : Ref .scope → Prop} {m : Machine}

namespace Plan.Spared

theorem andThen {plan : Plan α} {f : Outcome α → Plan β} (first : plan.Spared perform history r name m)
    (next : Spares r name (plan.outcome perform).machine ((f (plan.outcome perform)).events perform history)
      ((f (plan.outcome perform)).outcome perform)) :
    (plan.andThen f).Spared perform history r name m := by
  unfold Spared
  rw [events_andThen, outcome_andThen]
  exact ⟨first.heap.trans next.heap, Nat.le_trans first.size next.size, next.scope.trans first.scope⟩

theorem done {outcome : Outcome α} (same : outcome.machine.heap.here? r name = m.heap.here? r name)
    (size : m.heap.scopes.size ≤ outcome.machine.heap.scopes.size) (scope : outcome.machine.scope = m.scope) :
    (Plan.done outcome).Spared perform history r name m :=
  ⟨.of_same same, size, scope⟩

end Plan.Spared

theorem sparesIn_compositional (each : Sparing perform history r name) (free : Ref .scope → Prop) :
    Compositional (Run.SparesIn perform history r name free) where
  pure _ _ _ _ := .done rfl (Nat.le_refl _) rfl
  bind {α β c f} first next m inside around := by
    refine (first m inside around).andThen ?_
    have before := first m inside around
    cases done : (c m).outcome perform with
    | ok a after =>
      have size : m.heap.scopes.size ≤ after.heap.scopes.size := by
        have grown := before.size
        rwa [done] at grown
      have scope : after.scope = m.scope := by
        have back := before.scope
        rwa [done] at back
      exact next a after (Nat.lt_of_lt_of_le inside size) (scope ▸ around)
    | error reason after => exact ⟨.of_same rfl, Nat.le_refl _, rfl⟩
  stop _ _ _ _ := .done rfl (Nat.le_refl _) rfl
  get _ _ _ := .done rfl (Nat.le_refl _) rfl
  quiet quiet m _ _ := by
    obtain ⟨a, m', done, heap, scope⟩ := quiet m
    rw [done]
    exact .done (by rw [Outcome.machine, heap]) (Nat.le_of_eq (by rw [Outcome.machine, heap])) scope
  ask {a} other m inside _ := by
    have spares := each a m inside fun s same => absurd same (other s)
    change Spares r name m (history a m ++ []) (perform a m)
    rwa [List.append_nil]
  addScope s m inside _ := by
    refine .done ?_ ?_ rfl
    · exact (m.heap.here?_addScope s r name).trans (if_neg (Nat.ne_of_lt inside))
    · change _ ≤ (m.heap.scopes.push s).size
      simp
  addFunction _ _ _ _ := .done rfl (Nat.le_refl _) rfl
  addArray _ _ _ _ := .done rfl (Nat.le_refl _) rfl
  addProperty _ _ _ _ := .done rfl (Nat.le_refl _) rfl
  addInterface _ _ _ _ := .done rfl (Nat.le_refl _) rfl
  addEnumeration _ _ _ _ := .done rfl (Nat.le_refl _) rfl
  setElement _ _ _ _ _ _ := .done rfl (Nat.le_refl _) rfl
  setCache _ _ _ _ _ := .done rfl (Nat.le_refl _) rfl

namespace Run.SparesIn

theorem currentScope {f : Ref .scope → Run α}
    (next : ∀ scope, free scope → (f scope).SparesIn perform history r name free) :
    (Run.currentScope >>= f).SparesIn perform history r name free :=
  fun m inside around => next m.scope around m inside around

theorem of_free {free' : Ref .scope → Prop} {c : Run α} (spares : c.SparesIn perform history r name free)
    (narrower : ∀ scope, free' scope → free scope) : c.SparesIn perform history r name free' :=
  fun m inside around => spares m inside (narrower m.scope around)

theorem define {target : Ref .scope} (apart : r ≠ target) (other : String) (cell : Cell) :
    (Run.update (·.define target other cell)).SparesIn perform history r name free := by
  intro m inside _
  refine .done ?_ ?_ rfl
  · exact (m.heap.here?_define target r other name cell).trans (if_neg fun hit => apart hit.1.symm)
  · change _ ≤ (m.heap.scopes.modify _ _).size
    simp

theorem inScope {c : Run α} {within : Ref .scope → Prop} (spares : c.SparesIn perform history r name within)
    {scope : Ref .scope} (there : within scope) : (Run.inScope scope c).SparesIn perform history r name free := by
  intro m inside _
  have inner := spares { m with scope := scope } inside there
  unfold Plan.Spared Run.inScope
  rw [Plan.events_andThen, Plan.outcome_andThen]
  have heap := inner.heap
  have size := inner.size
  cases done : (c { m with scope := scope }).outcome perform with
  | ok a after | error reason after =>
    rw [done] at heap size
    simp only [Run.leave, Plan.events, List.append_nil]
    exact ⟨heap, size, rfl⟩

theorem newScope {f : Ref .scope → Run α} (next : ∀ scope, r ≠ scope → (f scope).SparesIn perform history r name free)
    (s : Scope) : (Run.allocate (·.addScope s) >>= f).SparesIn perform history r name free := by
  intro m inside around
  have apart : r ≠ ⟨m.heap.scopes.size⟩ := fun same => Nat.lt_irrefl _ (same ▸ inside)
  have grown : (m.heap.addScope s).2.scopes.size = m.heap.scopes.size + 1 := by simp [Heap.addScope]
  have inner := next _ apart { m with heap := (m.heap.addScope s).2 } (by rw [grown]; exact Nat.lt_succ_of_lt inside) around
  refine .andThen (.done ?_ ?_ rfl) inner
  · exact (m.heap.here?_addScope s r name).trans (if_neg (Nat.ne_of_lt inside))
  · change _ ≤ (m.heap.addScope s).2.scopes.size
    omega

end Run.SparesIn

/-! Assignments. -/

theorem Heap.ancestor?_define (h : Heap) (target : Ref .scope) (other : String) (cell : Cell) (distance : Nat)
    (s : Ref .scope) : (h.define target other cell).ancestor? distance s = h.ancestor? distance s := by
  have enclosing (s : Ref .scope) : ((h.define target other cell).scope s).enclosing = (h.scope s).enclosing := by
    rw [scope_define]
    split <;> rfl
  induction distance generalizing s with
  | zero => rfl
  | succ distance ih =>
    unfold ancestor?
    rw [enclosing]
    exact congrArg _ (funext ih)

theorem Heap.outward_globals (h : Heap) : h.outward .globals = [.globals] := by
  change Ref.globals :: _ = _
  split <;> rfl

namespace Evaluator

theorem variableWrite_here {ref : Reference} {value : Value} {written : Heap.Assigned}
    (done : variableWrite ref value m = .ok written) :
    ∃ s, m.scopeOf? ref = some s ∧ m.heap.assignHere s ref.name.text value = .ok written := by
  unfold variableWrite at done
  unfold Machine.scopeOf?
  cases depth : ref.depth with
  | some distance =>
    rw [depth] at done
    simp only [Heap.assignAt] at done
    split at done
    · rename_i found
      exact ⟨_, found, done⟩
    · cases done
  | none =>
    refine ⟨.globals, rfl, ?_⟩
    rw [depth] at done
    simp only [Heap.assign, Heap.binder?] at done
    rw [Heap.outward_globals] at done
    split at done
    · rename_i found
      obtain rfl := List.mem_singleton.mp (List.mem_of_find?_eq_some found)
      exact done
    · cases done

theorem variableWrite_stored {ref : Reference} {value : Value} {target : Ref .scope} {written : Cell}
    (done : variableWrite ref value m = .ok (.stored target written)) :
    m.scopeOf? ref = some target ∧ ∃ cell, m.heap.here? target ref.name.text = some cell ∧
      written = { cell with content := .plain value } := by
  obtain ⟨s, located, here⟩ := variableWrite_here done
  obtain ⟨cell, found, ⟨stored, same, wrote⟩ | ⟨p, same, -⟩⟩ := assignHere_cases here
  · cases same
    exact ⟨located, cell, found, (Heap.writeCell_stored wrote).2.1⟩
  · cases same

end Evaluator

theorem Spares.trans {events more : List Event} {first : Outcome α} {outcome : Outcome β}
    (before : Spares r name m events first) (next : Spares r name first.machine more outcome) :
    Spares r name m (events ++ more) outcome :=
  ⟨before.heap.trans next.heap, Nat.le_trans before.size next.size, next.scope.trans before.scope⟩

theorem Spares.ended {events : List Event} {a : Activity} {outcome : Outcome a.Result} {n : Machine}
    (spares : Spares r name m events outcome) : Spares r name m (events ++ [.ended a n outcome]) outcome :=
  ⟨spares.heap.record _ rfl, spares.size, spares.scope⟩

theorem Evaluator.writeVariable_spares (each : Sparing perform history r name)
    (inside : r.index < m.heap.scopes.size) (ref : Reference) (site : AssignSite) (e : Option Expr) (value : Value)
    (n : Machine) :
    let plan := (writeVariable ref value >>= fun _ => Pure.pure value) m
    Spares r name m (plan.events perform history ++ [.ended (.expr (.assign ref site e)) n (plan.outcome perform)])
      (plan.outcome perform) := by
  have comp := sparesIn_compositional each fun _ => True
  intro plan
  cases written : variableWrite ref value m with
  | error fault =>
    have stops : plan = .done (.error (.fault ⟨fault, ref.name.line⟩) m) := by
      change ((Run.orRaise _ (variableWrite ref value m) >>= _) m).andThen _ = _
      rw [written]
      rfl
    rw [stops]
    exact .ended ⟨.of_same rfl, Nat.le_refl _, rfl⟩
  | ok assigned =>
    cases assigned with
    | computed p =>
      have sets : plan = (writeProperty p value ref.name.line >>= fun _ => Pure.pure value) m := by
        change ((Run.orRaise _ (variableWrite ref value m) >>= _) m).andThen _ = _
        rw [written]
        rfl
      rw [sets]
      exact .ended (comp.bind (comp.writeProperty p value _) (fun _ => comp.pure value) m inside trivial)
    | stored target cell =>
      have stores : plan = .done (.ok value { m with heap := m.heap.define target ref.name.text cell }) := by
        change ((Run.orRaise _ (variableWrite ref value m) >>= _) m).andThen _ = _
        rw [written]
        rfl
      obtain ⟨located, old, found, rfl⟩ := variableWrite_stored written
      have here := m.heap.here?_define target r ref.name.text name { old with content := .plain value }
      have size : m.heap.scopes.size ≤ (m.heap.define target ref.name.text
          { old with content := .plain value }).scopes.size := by simp [Heap.define]
      rw [stores]
      by_cases hit : target = r ∧ ref.name.text = name
      · obtain ⟨rfl, rfl⟩ := hit
        rw [if_pos ⟨rfl, rfl, Heap.lt_of_here? (by rw [found]; rfl)⟩] at here
        refine ⟨.assigned rfl ⟨rfl, ?_, rfl, _, here, rfl⟩ (by simp) found here, size, rfl⟩
        rw [← located]
        unfold Machine.scopeOf?
        cases ref.depth with
        | none => rfl
        | some distance => exact Heap.ancestor?_define m.heap _ _ _ distance m.scope
      · rw [if_neg fun both => hit ⟨both.1, both.2.1.symm⟩] at here
        exact .ended ⟨.of_same here, size, rfl⟩

theorem Evaluator.assign_spares (each : Sparing perform history r name) (inside : r.index < m.heap.scopes.size)
    {ref : Reference} {site : AssignSite} {value : Option Expr} {outcome : Outcome Value}
    (done : (assign ref site value m).outcome perform = outcome) (n : Machine) :
    Spares r name m ((assign ref site value m).events perform history ++
      [.ended (.expr (.assign ref site value)) n outcome]) outcome := by
  have comp := sparesIn_compositional each fun _ => True
  have first : (assignedValue ref site value m).Spared perform history r name m :=
    comp.bind (comp.option value) (fun operand => comp.newValue site (comp.readVariable ref) operand) m inside trivial
  unfold Plan.Spared at first
  rw [assign, Run.outcome_bind] at done
  rw [assign, Run.events_bind]
  cases valued : (assignedValue ref site value m).outcome perform with
  | error stop after =>
    rw [valued] at first done
    simp only [List.append_nil]
    subst done
    exact .ended ⟨first.heap, first.size, first.scope⟩
  | ok result after =>
    rw [valued] at first done
    have write := writeVariable_spares each (Nat.lt_of_lt_of_le inside first.size) ref site value result n
    subst done
    rw [List.append_assoc]
    exact first.trans write

/-! Expressions and calls. -/

namespace Run.SparesIn

theorem anywhere {c : Run α} (spares : c.SparesIn perform history r name fun _ => True) :
    c.SparesIn perform history r name free :=
  spares.of_free fun _ _ => trivial

theorem catching {body : Run α} {handler : RuntimeError → Run α} (inner : body.SparesIn perform history r name free)
    (handles : ∀ e, (handler e).SparesIn perform history r name free) :
    (Run.catching body handler).SparesIn perform history r name free := by
  intro m inside around
  have first := inner m inside around
  refine first.andThen ?_
  unfold Plan.Spared at first
  cases done : (body m).outcome perform with
  | ok a after => exact ⟨.of_same rfl, Nat.le_refl _, rfl⟩
  | error reason after =>
    cases reason with
    | crash | outOfFuel => exact ⟨.of_same rfl, Nat.le_refl _, rfl⟩
    | fault e =>
      rw [done] at first
      exact handles e after (Nat.lt_of_lt_of_le inside first.size) (first.scope ▸ around)

theorem exec (each : Sparing perform history r name) (s : Stmt) :
    (Run.exec s).SparesIn perform history r name (r ≠ ·) := by
  intro m inside apart
  have spares := each (.stmt s) m inside fun _ _ => apart
  change Spares r name m (history (.stmt s) m ++ []) (perform (.stmt s) m)
  rwa [List.append_nil]

theorem stmts (each : Sparing perform history r name) (body : List Stmt) :
    (Evaluator.stmts body).SparesIn perform history r name (r ≠ ·) :=
  (sparesIn_compositional each (r ≠ ·)).stmts fun s _ => exec each s

end Run.SparesIn

theorem Evaluator.evalExpr_spares (each : Sparing perform history r name) {e : Expr}
    (other : ∀ ref site value, e ≠ .assign ref site value) :
    (evalExpr e).SparesIn perform history r name fun _ => True := by
  have comp := sparesIn_compositional each fun _ => True
  refine comp.evalExpr (fun ref site value same => absurd same (other ref site value))
    (fun object name site value qualified _ => ?_) ?_
  · refine comp.setProperty (comp.setMember (fun o name cell m _ _ => ?_) fun c name cell m _ _ => ?_)
      object name site value qualified
    all_goals exact .done rfl (Nat.le_refl _) rfl
  · refine comp.construct (fun o m _ _ => ?_) fun o cells m _ _ => ?_
    all_goals exact .done rfl (Nat.le_refl _) rfl

theorem Evaluator.callFunction_spares (each : Sparing perform history r name) (f : Function)
    (args generics : List Value) (line : Line) :
    (callFunction f args generics line).SparesIn perform history r name fun _ => True := by
  refine (sparesIn_compositional each _).callFunction (fun body closure _ cells => ?_) args generics line
  exact .newScope (fun scope apart => .inScope (.stmts each body) apart) _

/-! Statements. -/

theorem Evaluator.iteration_spares (each : Sparing perform history r name) (body : Stmt) (names : List Name) :
    (iteration body names).SparesIn perform history r name (r ≠ ·) := by
  have comp := sparesIn_compositional each (r ≠ ·)
  refine .currentScope fun outer apart => comp.bind (comp.reading _) fun copies => ?_
  refine .newScope (fun scope fresh => comp.bind (.inScope (.stmts each [body]) fresh) fun signal => ?_) _
  exact comp.bind (comp.copyNames (fun _ => comp.reading _) (.define apart) names) fun _ => comp.pure signal

/-! Declarations. -/

/-- A computation in a scope spares the names of the other scopes, and those of the scope itself if it fails. -/
def Run.Settles (perform : (a : Activity) → Machine → Outcome a.Result) (history : Activity → Machine → List Event)
    (r : Ref .scope) (name : String) (scope : Ref .scope) (c : Run α) : Prop :=
  ∀ m, r.index < m.heap.scopes.size → m.scope = scope →
    (∀ a after, (c m).outcome perform = .ok a after → r ≠ scope) → (c m).Spared perform history r name m

namespace Run.Settles

variable {scope : Ref .scope}

theorem currentScope {f : Ref .scope → Run α} (next : (f scope).Settles perform history r name scope) :
    (Run.currentScope >>= f).Settles perform history r name scope := by
  rintro m inside rfl apart
  exact next m inside rfl apart

theorem after {c : Run α} {f : α → Run β} (first : c.SparesIn perform history r name fun _ => True)
    (next : ∀ a, (f a).Settles perform history r name scope) : (c >>= f).Settles perform history r name scope := by
  intro m inside around apart
  have before := first m inside trivial
  refine before.andThen ?_
  unfold Plan.Spared at before
  cases done : (c m).outcome perform with
  | error reason middle => exact ⟨.of_same rfl, Nat.le_refl _, rfl⟩
  | ok a middle =>
    rw [done] at before
    refine next a middle (Nat.lt_of_lt_of_le inside before.size) (before.scope.trans around) fun b last ended => ?_
    refine apart b last ?_
    rw [Run.outcome_bind, done]
    exact ended

theorem define (other : String) (cell : Cell) :
    (Run.update (·.define scope other cell)).Settles perform history r name scope := by
  rintro m inside rfl apart
  have spares : (Run.update (·.define m.scope other cell)).SparesIn perform history r name fun _ => True :=
    .define (apart () _ rfl) other cell
  exact spares m inside trivial

theorem normal {c : Run Unit} (settles : c.Settles perform history r name scope) :
    (c >>= fun _ => Pure.pure Signal.normal).Settles perform history r name scope := by
  intro m inside around apart
  refine Plan.Spared.andThen (settles m inside around fun a last done => ?_) ?_
  · refine apart .normal last ?_
    rw [Run.outcome_bind, done]
    rfl
  · cases (c m).outcome perform <;> exact ⟨.of_same rfl, Nat.le_refl _, rfl⟩

end Run.Settles

theorem Evaluator.defineChecked_settles (each : Sparing perform history r name) (other : Name) (cell : Cell)
    (scope : Ref .scope) : (defineChecked other cell).Settles perform history r name scope := by
  have comp := sparesIn_compositional each fun _ => True
  refine .after comp.inGlobalScope fun global => .after (comp.demand _ _ _) fun _ => ?_
  exact .currentScope (.define _ _)

/-- All declarations but those of classes bind their name last. -/
theorem Evaluator.declaration_settles (each : Sparing perform history r name) {s : Stmt}
    (declares : s.declares?.isSome = true) (other : ∀ decl, s ≠ .classDecl decl) (fuel : Nat) (scope : Ref .scope) :
    (evalStmt fuel s).Settles perform history r name scope := by
  have comp := sparesIn_compositional each fun _ => True
  cases s with
  | var decl =>
    refine .normal (.currentScope (.after (comp.initialValue decl scope) fun x => ?_))
    exact defineChecked_settles each _ _ scope
  | property decl =>
    refine .normal (.currentScope (.after (comp.resolvedPropertyCell decl scope) fun cell => ?_))
    exact defineChecked_settles each _ cell scope
  | function decl =>
    refine .normal (.currentScope (.after (comp.addFunction _) fun f => ?_))
    exact defineChecked_settles each _ _ scope
  | classDecl decl => exact absurd rfl (other decl)
  | interfaceDecl decl =>
    refine .normal (.currentScope (.after (comp.interfaceMethods scope _ _) fun methods => ?_))
    refine .after (comp.requiredCells scope _ _) fun fields => .after (comp.addInterface _) fun i => ?_
    exact .define _ _
  | enumDecl name elements =>
    exact .normal (.after (comp.addEnumeration _) fun e => .currentScope (.define _ _))
  | _ => cases declares

/-! Classes. -/

namespace Evaluator

def heritage (decl : ClassDecl) : Run (Ref .cls × List (Ref .interface)) := do
  let superclass ← evalSuperclass decl
  return (superclass, ← evalInterfaces decl.name decl.interfaces)

def makeClass (decl : ClassDecl) (outer : Ref .scope) (superclass : Ref .cls) (interfaces : List (Ref .interface)) :
    Run (Ref .cls) := do
  let scope ← Run.allocate
    (·.addScope { enclosing := some outer, names := classNames superclass decl.templates })
  addClass (← declaredClass decl superclass interfaces scope)

/-- A declaration of a class, once it is known what the class extends. -/
def placeClass (decl : ClassDecl) (superclass : Ref .cls) (interfaces : List (Ref .interface)) : Run Unit := do
  let outer ← Run.currentScope
  Run.update (·.define outer decl.name.text (Cell.ofValue .nil))
  let c ← makeClass decl outer superclass interfaces
  Run.update (·.define outer decl.name.text (Cell.ofValue (.cls c)))

theorem declareClass_eq (decl : ClassDecl) :
    declareClass decl = heritage decl >>= fun x => placeClass decl x.1 x.2 := by
  unfold heritage placeClass makeClass
  simp only [Run.bind_assoc]
  rfl

theorem heritage_compositional {K : {α : Type} → Run α → Prop} (comp : Compositional K) (decl : ClassDecl) :
    K (heritage decl) :=
  comp.bind (comp.evalSuperclass decl) fun superclass =>
    comp.bind (comp.evalInterfaces _ _) fun interfaces => comp.pure (superclass, interfaces)

theorem heritage_spares (each : Sparing perform history r name) (decl : ClassDecl) :
    (heritage decl).SparesIn perform history r name fun _ => True :=
  heritage_compositional (sparesIn_compositional each fun _ => True) decl

theorem makeClass_spares (each : Sparing perform history r name) (decl : ClassDecl) (outer : Ref .scope)
    (superclass : Ref .cls) (interfaces : List (Ref .interface)) :
    (makeClass decl outer superclass interfaces).SparesIn perform history r name fun _ => True := by
  have comp := sparesIn_compositional each fun _ => True
  refine comp.bind (comp.addScope _) fun scope => ?_
  have cells := comp.fieldCells (comp.typesIn scope) decl.fields .empty
  refine comp.declaredClassThen (.inScope cells trivial) superclass interfaces fun cls _ _ => ?_
  exact comp.addClass (fun m _ _ => .done rfl (Nat.le_refl _) rfl) fun _ _ m _ _ => .done rfl (Nat.le_refl _) rfl

theorem placeClass_apart (each : Sparing perform history r name) (decl : ClassDecl) (superclass : Ref .cls)
    (interfaces : List (Ref .interface)) :
    (placeClass decl superclass interfaces).SparesIn perform history r name (r ≠ ·) := by
  have comp := sparesIn_compositional each (r ≠ ·)
  refine .currentScope fun outer apart => comp.bind (.define apart _ _) fun _ => ?_
  exact comp.bind (makeClass_spares each decl outer superclass interfaces).anywhere fun c => .define apart _ _

theorem placeClass_fails {decl : ClassDecl} (each : Sparing perform history m.scope decl.name.text)
    (inside : m.scope.index < m.heap.scopes.size) {superclass : Ref .cls} {interfaces : List (Ref .interface)}
    {reason : Stop} {after : Machine}
    (failed : (placeClass decl superclass interfaces m).outcome perform = .error reason after) :
    (m.heap.define m.scope decl.name.text (Cell.ofValue .nil)).Spares m.scope decl.name.text
      ((placeClass decl superclass interfaces m).events perform history) after.heap := by
  let middle : Machine := { m with heap := m.heap.define m.scope decl.name.text (Cell.ofValue .nil) }
  let finish (c : Ref .cls) : Run Unit := Run.update (·.define m.scope decl.name.text (Cell.ofValue (.cls c)))
  have plan : placeClass decl superclass interfaces m =
    (makeClass decl m.scope superclass interfaces >>= finish) middle := rfl
  have spares := makeClass_spares each decl m.scope superclass interfaces middle (by simpa [middle, Heap.define]) trivial
  rw [plan, Run.outcome_bind] at failed
  rw [plan, Run.events_bind]
  unfold Plan.Spared at spares
  cases made : (makeClass decl m.scope superclass interfaces middle).outcome perform with
  | ok c last =>
    rw [made] at failed
    cases failed
  | error stop last =>
    rw [made] at failed spares
    cases failed
    rw [List.append_nil]
    exact spares.heap

/-- A class whose declaration fails leaves a placeholder behind if it is known what the class extends. -/
theorem declareClass_fails {decl : ClassDecl} (each : Sparing perform history m.scope decl.name.text)
    (inside : m.scope.index < m.heap.scopes.size) {reason : Stop} {after : Machine}
    (failed : (declareClass decl m).outcome perform = .error reason after) :
    match (heritage decl m).outcome perform with
    | .error _ _ => m.heap.Spares m.scope decl.name.text ((declareClass decl m).events perform history) after.heap
    | .ok _ _ => Resets m.scope decl.name.text ((declareClass decl m).events perform history) after.heap := by
  have spares := heritage_spares each decl m inside trivial
  rw [declareClass_eq, Run.outcome_bind] at failed
  rw [declareClass_eq, Run.events_bind]
  unfold Plan.Spared at spares
  cases found : (heritage decl m).outcome perform with
  | error stop last =>
    rw [found] at failed spares
    cases failed
    simp only [List.append_nil]
    exact spares.heap
  | ok x middle =>
    rw [found] at failed spares
    have scope : middle.scope = m.scope := spares.scope
    have there : middle.scope.index < middle.heap.scopes.size := by
      rw [scope]
      exact Nat.lt_of_lt_of_le inside spares.size
    rw [← scope] at each ⊢
    refine ⟨_, _, _, rfl, ?_, placeClass_fails each there failed⟩
    rw [Heap.here?_define, if_pos ⟨rfl, rfl, there⟩]

theorem evalStmt_spares (each : Sparing perform history r name) (s : Stmt) (fuel : Nat) :
    (evalStmt fuel s).SparesIn perform history r name (r ≠ ·) := by
  have comp := sparesIn_compositional each (r ≠ ·)
  cases declares : s.declares? with
  | none =>
    refine comp.evalStmt declares (.exec each) (fun names body => ?_)
      (fun body _ => iteration_spares each body _) (fun _ _ => .catching) fuel
    exact comp.bind comp.currentScope fun outer => .newScope (fun _ fresh => .inScope (.stmts each body) fresh) _
  | some name =>
    by_cases isClass : ∃ decl, s = .classDecl decl
    · obtain ⟨decl, rfl⟩ := isClass
      change (declareClass decl >>= _).SparesIn perform history r _ (r ≠ ·)
      rw [declareClass_eq]
      refine comp.bind (comp.bind (heritage_spares each decl).anywhere fun x => ?_) fun _ => comp.pure _
      exact placeClass_apart each decl x.1 x.2
    · intro m inside apart
      refine declaration_settles each (by rw [declares]; rfl) (fun decl same => isClass ⟨decl, same⟩) fuel m.scope
        m inside rfl fun _ _ _ => apart

end Evaluator

/-! Whole activities. -/

theorem Spares.started {events : List Event} {outcome : Outcome α} (a : Activity)
    (spares : Spares r name m events outcome) : Spares r name m (.started a m :: events) outcome :=
  ⟨spares.heap.started a m, spares.size, spares.scope⟩

theorem Activity.plan_spares (each : Sparing perform history r name) (a : Activity) (fuel : Nat)
    (inside : r.index < m.heap.scopes.size) (apart : ∀ s, a = .stmt s → r ≠ m.scope) :
    Spares r name m ((a.plan fuel m).events perform history ++ [.ended a m ((a.plan fuel m).outcome perform)])
      ((a.plan fuel m).outcome perform) := by
  have comp := sparesIn_compositional each fun _ => True
  cases a with
  | expr e =>
    by_cases assigns : ∃ ref site value, e = .assign ref site value
    · obtain ⟨ref, site, value, rfl⟩ := assigns
      exact Evaluator.assign_spares each inside rfl m
    · exact .ended (Evaluator.evalExpr_spares each (fun ref site value same => assigns ⟨ref, site, value, same⟩)
        m inside trivial)
  | stmt s => exact .ended (Evaluator.evalStmt_spares each s fuel m inside (apart s rfl))
  | call f args generics line => exact .ended (Evaluator.callFunction_spares each f args generics line m inside trivial)
  | text value => exact .ended (comp.textOf value m inside trivial)

end

theorem history_spares (r : Ref .scope) (name : String) (fuel : Nat) :
    Sparing (perform fuel) (history fuel) r name := by
  induction fuel with
  | zero =>
    intro a m _ _
    have none : Spares r name m [] (perform 0 a m) := ⟨.of_same rfl, Nat.le_refl _, rfl⟩
    exact none.ended.started a
  | succ fuel ih =>
    intro a m inside apart
    exact (a.plan_spares ih fuel inside apart).started a

/-! Failing declarations. -/

/-- A statement declares a class and has found out what the class extends. -/
def Stmt.Extends (fuel : Nat) (m : Machine) : Stmt → Prop
  | .classDecl decl => ∃ x after, (Evaluator.heritage decl m).outcome (perform fuel) = .ok x after
  | _ => False

theorem Reached.scope_inside {H : List Event} {m n : Machine} {s : Stmt} (reached : Reached H m)
    (started : .started (.stmt s) n ∈ H) : n.scope.index < n.heap.scopes.size := by
  obtain ⟨w, trail, -⟩ := reached.trail
  obtain ⟨v, seen, -, -⟩ := trail.seen started
  obtain ⟨p, -, placed⟩ := seen.good
  have heap : v.heap = n.heap := seen.heap
  rw [← heap]
  exact placed.begins.inside seen.sound

theorem classDecl_fails {n n' : Machine} (inside : n.scope.index < n.heap.scopes.size) {decl : ClassDecl} {fuel : Nat}
    {stop : Stop} (failed : perform (fuel + 1) (.stmt (.classDecl decl)) n = .error stop n') :
    match (Evaluator.heritage decl n).outcome (perform fuel) with
    | .error _ _ =>
      n.heap.Spares n.scope decl.name.text (history (fuel + 1) (.stmt (.classDecl decl)) n) n'.heap
    | .ok _ _ => Resets n.scope decl.name.text (history (fuel + 1) (.stmt (.classDecl decl)) n) n'.heap := by
  let last : Event := .ended (.stmt (.classDecl decl)) n (perform (fuel + 1) (.stmt (.classDecl decl)) n)
  have ended : last.machine.heap = n'.heap := by
    change (perform (fuel + 1) (.stmt (.classDecl decl)) n).machine.heap = _
    rw [failed]
    rfl
  obtain ⟨outcome, plan⟩ : (Evaluator.declareClass decl n).outcome (perform fuel) = .error stop n' ∧
      ((Evaluator.declareClass decl >>= fun _ => Pure.pure Signal.normal) n).events (perform fuel) (history fuel) =
        (Evaluator.declareClass decl n).events (perform fuel) (history fuel) := Run.fails_of_normal failed
  have events : history (fuel + 1) (.stmt (.classDecl decl)) n = .started (.stmt (.classDecl decl)) n ::
      (Evaluator.declareClass decl n).events (perform fuel) (history fuel) ++ [last] := by
    rw [← plan]
    rfl
  have fails := Evaluator.declareClass_fails (history_spares _ _ fuel) inside outcome
  rw [events]
  cases found : (Evaluator.heritage decl n).outcome (perform fuel) with
  | error reason after =>
    rw [found] at fails
    exact (fails.started _ _).record last ended
  | ok x after =>
    rw [found] at fails
    obtain ⟨before, rest, h, split, empty, spares⟩ := fails
    refine ⟨.started (.stmt (.classDecl decl)) n :: before, rest ++ [last], h, ?_, empty, spares.record last ended⟩
    simp [split]

/-- A declaration that fails leaves its name bound as it was, apart from assignments on the way. Only a class of
which it is known what it extends has bound its name to nil by then. -/
theorem failed_declarations {H : List Event} {m : Machine} (reached : Reached H m) {s : Stmt} {n : Machine}
    (started : .started (.stmt s) n ∈ H) {name : Name} (declares : s.declares? = some name) {fuel : Nat}
    {e : RuntimeError} {n' : Machine} (failed : perform (fuel + 1) (.stmt s) n = .error (.fault e) n') :
    (¬s.Extends fuel n → n.heap.Spares n.scope name.text (history (fuel + 1) (.stmt s) n) n'.heap) ∧
      (s.Extends fuel n → Resets n.scope name.text (history (fuel + 1) (.stmt s) n) n'.heap) := by
  have inside := reached.scope_inside started
  by_cases isClass : ∃ decl, s = .classDecl decl
  · obtain ⟨decl, rfl⟩ := isClass
    cases declares
    have fails := classDecl_fails inside failed
    cases found : (Evaluator.heritage decl n).outcome (perform fuel) with
    | error reason after =>
      rw [found] at fails
      refine ⟨fun _ => fails, fun ⟨x, middle, done⟩ => ?_⟩
      rw [found] at done
      cases done
    | ok x after =>
      rw [found] at fails
      exact ⟨fun closed => absurd ⟨x, after, found⟩ closed, fun _ => fails⟩
  · have settles := Evaluator.declaration_settles (history_spares n.scope name.text fuel) (by rw [declares]; rfl)
      (fun decl same => isClass ⟨decl, same⟩) fuel n.scope n inside rfl fun signal after done => by
        rw [show perform (fuel + 1) (.stmt s) n = _ from done] at failed
        cases failed
    refine ⟨fun _ => ?_, fun extends' => ?_⟩
    · have spares : Spares n.scope name.text n _ (perform (fuel + 1) (.stmt s) n) := settles.started (.stmt s)
      have whole : n.heap.Spares n.scope name.text (history (fuel + 1) (.stmt s) n)
          (perform (fuel + 1) (.stmt s) n).machine.heap := spares.ended.heap
      have last : (perform (fuel + 1) (.stmt s) n).machine = n' := by
        rw [failed]
        rfl
      rwa [last] at whole
    · cases s <;> first | exact extends'.elim | exact absurd ⟨_, rfl⟩ isClass

/-- A variable is about to be declared again that is there, and the declaration is going to fail. -/
def Event.redeclares (fuel : Nat) : Event → Bool
  | .started (.stmt (.var decl)) n => (n.heap.here? n.scope decl.name.text).isSome &&
      match perform fuel (.stmt (.var decl)) n with
      | .error (.fault _) _ => true
      | _ => false
  | _ => false

theorem Event.redeclares_cases {fuel : Nat} {e : Event} (redeclares : e.redeclares fuel = true) :
    ∃ decl n error n', e = .started (.stmt (.var decl)) n ∧
      (n.heap.here? n.scope decl.name.text).isSome = true ∧
        perform fuel (.stmt (.var decl)) n = .error (.fault error) n' := by
  unfold Event.redeclares at redeclares
  split at redeclares
  · obtain ⟨there, fails⟩ := Bool.and_eq_true_iff.mp redeclares
    split at fails
    · rename_i failed
      exact ⟨_, _, _, _, rfl, there, failed⟩
    · cases fails
  · cases redeclares

def redeclaringSource : String :=
  "var a = \"old\"; num a = (a = \"new\");"

set_option maxRecDepth 100000 in
theorem failed_declarations_redeclaring :
    ∃ H m decl n e n', Reached H m ∧ .started (.stmt (.var decl)) n ∈ H ∧
      (n.heap.here? n.scope decl.name.text).isSome = true ∧
        perform 20 (.stmt (.var decl)) n = .error (.fault e) n' ∧
          n.heap.Spares n.scope decl.name.text (history 20 (.stmt (.var decl)) n) n'.heap := by
  have reached := Reached.text 20 redeclaringSource
  have some : ((Session.start {}).events 20 redeclaringSource).any (Event.redeclares 20) = true := by decide +kernel
  obtain ⟨e, member, redeclares⟩ := List.any_eq_true.mp some
  obtain ⟨decl, n, error, n', rfl, there, failed⟩ := Event.redeclares_cases redeclares
  exact ⟨_, _, decl, n, error, n', reached, member, there, failed,
    (failed_declarations reached member rfl failed).1 id⟩

end Treewalk
