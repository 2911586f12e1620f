import Treewalk.Proofs.Bindings
import Treewalk.Proofs.ScopeRestored
import Treewalk.Proofs.Stretch

/-!
A variable from one event of a run to the next. Statements bind names in the scope in which they run, and all else
only assigns to what is bound already. So in a scope that runs only plain statements, which declare and copy
nothing, a variable changes exactly when an assignment to it comes to its end.
-/

namespace Treewalk

variable {r : Ref .scope} {name : String}

/-- A scope that is there stays there, and a variable of it as it is. -/
def Heap.Retains (r : Ref .scope) (name : String) (h later : Heap) : Prop :=
  r.index < h.scopes.size → r.index < later.scopes.size ∧ later.here? r name = h.here? r name

namespace Heap.Retains

variable {h h' h'' : Heap}

theorem refl (h : Heap) : h.Retains r name h :=
  fun inside => ⟨inside, rfl⟩

theorem trans (first : h.Retains r name h') (second : h'.Retains r name h'') : h.Retains r name h'' := by
  intro inside
  obtain ⟨there, same⟩ := first inside
  obtain ⟨later, still⟩ := second there
  exact ⟨later, still.trans same⟩

theorem of_scopes (same : h'.scopes = h.scopes) : h.Retains r name h' := by
  intro inside
  exact ⟨by rwa [same], by rw [here?, here?, scope, scope, same]⟩

theorem addScope (h : Heap) (s : Scope) : h.Retains r name (h.addScope s).2 := by
  intro inside
  refine ⟨?_, (h.here?_addScope s r name).trans (if_neg (Nat.ne_of_lt inside))⟩
  simp only [Heap.addScope, Array.size_push]
  omega

theorem define {target : Ref .scope} (apart : target ≠ r) (h : Heap) (other : String) (cell : Cell) :
    h.Retains r name (h.define target other cell) := by
  intro inside
  refine ⟨by simpa [Heap.define] using inside, ?_⟩
  exact (h.here?_define target r other name cell).trans (if_neg fun hit => apart hit.1)

end Heap.Retains

/-- From a heap to an event, a variable changes only if the event ends an assignment to it. -/
def Event.SparesFrom (r : Ref .scope) (name : String) (h : Heap) (e : Event) : Prop :=
  r.index < h.scopes.size → r.index < e.machine.heap.scopes.size ∧ h.Spares r name [e] e.machine.heap

theorem Heap.Retains.sparesFrom {h : Heap} {e : Event} (retains : h.Retains r name e.machine.heap) :
    e.SparesFrom r name h := by
  intro inside
  obtain ⟨there, same⟩ := retains inside
  exact ⟨there, (Heap.Spares.of_same same).record e rfl⟩

/-- The same from each event to the next. -/
def SparesAlong (r : Ref .scope) (name : String) : Heap → List Event → Prop
  | _, [] => True
  | h, e :: rest => e.SparesFrom r name h ∧ SparesAlong r name e.machine.heap rest

theorem sparesAlong_append {h : Heap} {before after : List Event} :
    SparesAlong r name h (before ++ after) ↔
      SparesAlong r name h before ∧ SparesAlong r name (heapAfter h before) after := by
  induction before generalizing h with
  | nil => exact ⟨fun later => ⟨trivial, later⟩, fun ⟨_, later⟩ => later⟩
  | cons e rest ih => exact (and_congr_right fun _ => ih).trans and_assoc.symm

theorem SparesAlong.spares {h : Heap} {events : List Event} (along : SparesAlong r name h events)
    (inside : r.index < h.scopes.size) :
    r.index < (heapAfter h events).scopes.size ∧ h.Spares r name events (heapAfter h events) := by
  induction events generalizing h with
  | nil => exact ⟨inside, .of_same rfl⟩
  | cons e rest ih =>
    obtain ⟨there, first⟩ := along.1 inside
    obtain ⟨last, further⟩ := ih along.2 there
    exact ⟨last, first.trans further⟩

/-- A plan leaves a variable alone between the activities that it asks for, as long as these come back to their
scope. -/
def Plan.Retaining (r : Ref .scope) (name : String) (Q : Heap → Outcome α → Prop) : Heap → Plan α → Prop
  | h, .done outcome => Q h outcome
  | h, .ask _ m next => h.Retains r name m.heap ∧
      ∀ outcome, outcome.machine.scope = m.scope → Retaining r name Q outcome.machine.heap (next outcome)

namespace Plan.Retaining

variable {h : Heap} {Q : Heap → Outcome α → Prop}

theorem andThen {P : Heap → Outcome β → Prop} {plan : Plan α} {f : Outcome α → Plan β}
    (first : plan.Retaining r name Q h) (next : ∀ h' outcome, Q h' outcome → (f outcome).Retaining r name P h') :
    (plan.andThen f).Retaining r name P h := by
  induction plan generalizing h with
  | done outcome => exact next h outcome first
  | ask a m rest ih => exact ⟨first.1, fun outcome back => ih outcome (first.2 outcome back)⟩

theorem weaken {Q' : Heap → Outcome α → Prop} {plan : Plan α} (retaining : plan.Retaining r name Q h)
    (weaker : ∀ h' outcome, Q h' outcome → Q' h' outcome) : plan.Retaining r name Q' h := by
  induction plan generalizing h with
  | done outcome => exact weaker h outcome retaining
  | ask a m rest ih => exact ⟨retaining.1, fun outcome back => ih outcome (retaining.2 outcome back)⟩

theorem along {perform : (a : Activity) → Machine → Outcome a.Result} {history : Activity → Machine → List Event}
    (back : ∀ a m, (perform a m).machine.scope = m.scope)
    (last : ∀ h a m, heapAfter h (history a m) = (perform a m).machine.heap) {P : Event → Prop}
    (each : ∀ h a m, h.Retains r name m.heap → (∀ e ∈ history a m, P e) → SparesAlong r name h (history a m))
    {plan : Plan α} (retaining : plan.Retaining r name Q h) (all : ∀ e ∈ plan.events perform history, P e) :
    SparesAlong r name h (plan.events perform history) ∧
      Q (heapAfter h (plan.events perform history)) (plan.outcome perform) := by
  induction plan generalizing h with
  | done outcome => exact ⟨trivial, retaining⟩
  | ask a m next ih =>
    have resumed := retaining.2 (perform a m) (back a m)
    rw [← last h a m] at resumed
    obtain ⟨rest, reached⟩ := ih (perform a m) resumed fun e member => all e (List.mem_append_right _ member)
    have first := each h a m retaining.1 fun e member => all e (List.mem_append_left _ member)
    rw [events, heapAfter_append]
    exact ⟨sparesAlong_append.mpr ⟨first, rest⟩, reached⟩

end Plan.Retaining

def Run.Retaining (r : Ref .scope) (name : String) (free : Ref .scope → Prop) (c : Run α) : Prop :=
  ∀ h m, free m.scope → h.Retains r name m.heap →
    (c m).Retaining r name (fun h' outcome => h'.Retains r name outcome.machine.heap ∧
      outcome.machine.scope = m.scope) h

variable {free : Ref .scope → Prop}

theorem retaining_compositional (r : Ref .scope) (name : String) (free : Ref .scope → Prop) :
    Compositional (Run.Retaining r name free) where
  pure _ _ _ _ begun := ⟨begun, rfl⟩
  bind first next h m around begun := by
    refine (first h m around begun).andThen fun h' outcome ⟨reached, back⟩ => ?_
    cases outcome with
    | ok a after =>
      have same : after.scope = m.scope := back
      rw [← same]
      exact next a h' after (same ▸ around) reached
    | error reason after => exact ⟨reached, back⟩
  stop _ _ _ _ begun := ⟨begun, rfl⟩
  get _ _ _ begun := ⟨begun, rfl⟩
  quiet quiet h m _ begun := by
    obtain ⟨a, m', done, heap, scope⟩ := quiet m
    rw [done]
    exact ⟨by rwa [Outcome.machine, heap], scope⟩
  ask _ _ _ _ begun := ⟨begun, fun _ back => ⟨.refl _, back⟩⟩
  addScope s _ m _ begun := ⟨begun.trans (.addScope m.heap s), rfl⟩
  addFunction _ _ _ _ begun := ⟨begun.trans (.of_scopes rfl), rfl⟩
  addArray _ _ _ _ begun := ⟨begun.trans (.of_scopes rfl), rfl⟩
  addProperty _ _ _ _ begun := ⟨begun.trans (.of_scopes rfl), rfl⟩
  addInterface _ _ _ _ begun := ⟨begun.trans (.of_scopes rfl), rfl⟩
  addEnumeration _ _ _ _ begun := ⟨begun.trans (.of_scopes rfl), rfl⟩
  setElement _ _ _ _ _ _ begun := ⟨begun.trans (.of_scopes rfl), rfl⟩
  setCache _ _ _ _ _ begun := ⟨begun.trans (.of_scopes rfl), rfl⟩

namespace Run.Retaining

theorem exec (s : Stmt) : (Run.exec s).Retaining r name free :=
  fun _ _ _ begun => ⟨begun, fun _ back => ⟨.refl _, back⟩⟩

theorem currentScope {f : Ref .scope → Run α} (next : ∀ scope, free scope → (f scope).Retaining r name free) :
    (Run.currentScope >>= f).Retaining r name free :=
  fun h m around begun => next m.scope around h m around begun

theorem update {f : Heap → Heap} (retains : ∀ h : Heap, h.Retains r name (f h)) :
    (Run.update f).Retaining r name free :=
  fun _ m _ begun => ⟨begun.trans (retains m.heap), rfl⟩

theorem define {target : Ref .scope} (apart : target ≠ r) (other : String) (cell : Cell) :
    (Run.update (·.define target other cell)).Retaining r name free :=
  .update fun h => .define apart h other cell

theorem inScope {c : Run α} {within : Ref .scope → Prop} (inner : c.Retaining r name within) {scope : Ref .scope}
    (there : within scope) : (Run.inScope scope c).Retaining r name free := by
  intro h m _ begun
  refine (inner h { m with scope := scope } there begun).andThen fun h' outcome ⟨reached, _⟩ => ?_
  cases outcome <;> exact ⟨reached, rfl⟩

theorem catching {body : Run α} {handler : RuntimeError → Run α} (inner : body.Retaining r name free)
    (handles : ∀ e, (handler e).Retaining r name free) : (Run.catching body handler).Retaining r name free := by
  intro h m around begun
  refine (inner h m around begun).andThen fun h' outcome ⟨reached, back⟩ => ?_
  match outcome with
  | .ok _ _ => exact ⟨reached, back⟩
  | .error .crash _ | .error .outOfFuel _ => exact ⟨reached, back⟩
  | .error (.fault e) after =>
    have same : after.scope = m.scope := back
    rw [← same]
    exact handles e h' after (same ▸ around) reached

theorem block (scope : Ref .scope) (body : List Stmt) : (Evaluator.block scope body).Retaining r name free :=
  .inScope ((retaining_compositional r name fun _ => True).stmts fun s _ => .exec s) trivial

end Run.Retaining

/-! Activities. -/

namespace Evaluator

theorem assign_retains (ref : Reference) (site : AssignSite) (value : Option Expr) (m : Machine) :
    (assign ref site value m).Retaining r name
      (fun h outcome => (Event.ended (.expr (.assign ref site value)) m outcome).SparesFrom r name h) m.heap := by
  have comp := retaining_compositional r name fun _ => True
  have first : (assignedValue ref site value).Retaining r name fun _ => True :=
    comp.bind (comp.option value) fun operand => comp.newValue site (comp.readVariable ref) operand
  refine (first m.heap m trivial (.refl _)).andThen fun h outcome ⟨reached, _⟩ => ?_
  cases outcome with
  | error reason after => exact reached.sparesFrom
  | ok result after =>
    change Plan.Retaining _ _ _ _ ((writeVariable ref result >>= fun _ => Pure.pure result) after)
    by_cases computed : ∃ p, variableWrite ref result after = .ok (.computed p)
    · obtain ⟨p, written⟩ := computed
      have sets : (writeVariable ref result >>= fun _ => Pure.pure result) after =
          (writeProperty p result ref.name.line >>= fun _ => Pure.pure result) after := by
        change ((Run.orRaise _ (variableWrite ref result after) >>= _) after).andThen _ = _
        rw [written]
        rfl
      rw [sets]
      have wrote := comp.bind (comp.writeProperty p result ref.name.line) fun _ => comp.pure result
      exact (wrote h after trivial reached).weaken fun h' outcome ⟨later, _⟩ => later.sparesFrom
    · -- What is left is done at once, and so spares the variable as a whole.
      obtain ⟨outcome, done⟩ : ∃ outcome,
          (writeVariable ref result >>= fun _ => Pure.pure result) after = .done outcome := by
        change ∃ outcome, ((Run.orRaise _ (variableWrite ref result after) >>= _) after).andThen _ = .done outcome
        cases written : variableWrite ref result after with
        | error fault => exact ⟨_, rfl⟩
        | ok assigned =>
          cases assigned with
          | computed p => exact absurd ⟨p, written⟩ computed
          | stored target cell => exact ⟨_, rfl⟩
      rw [done]
      intro inside
      obtain ⟨there, same⟩ : r.index < after.heap.scopes.size ∧ after.heap.here? r name = h.here? r name :=
        reached inside
      have spares := writeVariable_spares (history_spares r name 0) there ref site value result m
      simp only [done] at spares
      exact ⟨Nat.lt_of_lt_of_le there spares.size, (Heap.Spares.of_same same).trans spares.heap⟩

theorem declareClass_retains (decl : ClassDecl) (apart : ∀ scope, free scope → scope ≠ r) :
    (declareClass decl).Retaining r name free := by
  have comp := retaining_compositional r name free
  rw [declareClass_eq]
  refine comp.bind (heritage_compositional comp decl) fun x => .currentScope fun outer around => ?_
  refine comp.bind (.define (apart outer around) _ _) fun _ => comp.bind ?_ fun c => .define (apart outer around) _ _
  refine comp.bind (comp.addScope _) fun scope => ?_
  have fields : (fieldCells scope decl.fields .empty).Retaining r name fun _ => True :=
    (retaining_compositional r name _).fieldCells ((retaining_compositional r name _).typesIn scope) decl.fields .empty
  refine comp.declaredClassThen (.inScope fields trivial) x.1 x.2 fun cls _ _ => ?_
  exact comp.addClass (fun _ _ _ begun => ⟨begun.trans (.of_scopes rfl), rfl⟩) fun _ _ => .update fun _ => .of_scopes rfl

/-- Statements leave the variables alone of the scopes in which they do not run, and plain ones also those of
their own scope. -/
theorem evalStmt_retains (s : Stmt) (fuel : Nat) :
    (evalStmt fuel s).Retaining r name fun scope => scope = r → s.Plain := by
  have comp := retaining_compositional r name fun scope => scope = r → s.Plain
  have opens (names : NameMap Cell) (body : List Stmt) : (Run.currentScope >>= fun outer =>
      Run.allocate (·.addScope { enclosing := some outer, names := names }) >>= fun scope =>
        block scope body).Retaining r name fun scope => scope = r → s.Plain :=
    comp.bind comp.currentScope fun outer => comp.bind (comp.addScope _) fun scope => .block scope body
  cases declares : s.declares? with
  | none =>
    refine comp.evalStmt declares .exec opens (fun body some => ?_) (fun _ _ => .catching) fuel
    refine .currentScope fun outer around => comp.bind (comp.reading _) fun copies => ?_
    refine comp.bind (comp.addScope _) fun scope => comp.bind (.block scope [body]) fun signal => ?_
    refine comp.bind (comp.copyNames (fun _ => comp.reading _) (.define fun same => ?_) _) fun _ => comp.pure signal
    exact some (around same).2
  | some declared =>
    have apart (scope : Ref .scope) (around : scope = r → s.Plain) : scope ≠ r := fun same => by
      have none := (around same).1
      rw [declares] at none
      cases none
    refine comp.toBlind.evalDeclaration (by rw [declares]; rfl) (fun next => .currentScope fun scope around => ?_)
      (fun decl _ => declareClass_retains decl apart) fuel
    exact next scope (comp.typesIn scope) (.define (apart scope around))

end Evaluator

theorem Activity.retains (a : Activity) (fuel : Nat) (m : Machine)
    (plain : ∀ s, a = .stmt s → m.scope = r → s.Plain) :
    (a.plan fuel m).Retaining r name (fun h outcome => (Event.ended a m outcome).SparesFrom r name h) m.heap := by
  have still {c : Run a.Result} {free : Ref .scope → Prop} (retaining : c.Retaining r name free)
      (around : free m.scope) : (c m).Retaining r name
        (fun h outcome => (Event.ended a m outcome).SparesFrom r name h) m.heap :=
    (retaining m.heap m around (.refl _)).weaken fun h outcome ⟨reached, _⟩ => reached.sparesFrom
  have comp := retaining_compositional r name fun _ => True
  cases a with
  | expr e =>
    by_cases assigns : ∃ ref site value, e = .assign ref site value
    · obtain ⟨ref, site, value, rfl⟩ := assigns
      exact Evaluator.assign_retains ref site value m
    · refine still (comp.evalExpr (fun ref site value same => absurd ⟨ref, site, value, same⟩ assigns)
        (fun object field site value qualified _ => ?_) ?_) trivial
      · refine comp.setProperty (comp.setMember (fun _ _ _ => ?_) fun _ _ _ => ?_) object field site value qualified
        all_goals exact .update fun _ => .of_scopes rfl
      · exact comp.construct (fun _ _ _ _ begun => ⟨begun.trans (.of_scopes rfl), rfl⟩) fun _ _ =>
          .update fun _ => .of_scopes rfl
  | stmt s => exact still (Evaluator.evalStmt_retains s fuel) (plain s rfl)
  | call f args generics line =>
    refine still (comp.callFunction (fun body closure _ cells => ?_) args generics line) trivial
    exact comp.bind (comp.addScope _) fun scope => .block scope body
  | text value => exact still (comp.textOf value) trivial

/-! Runs. -/

def Event.PlainIn (r : Ref .scope) : Event → Prop
  | .started (.stmt s) m => m.scope = r → s.Plain
  | _ => True

/-- By induction on the fuel: what happens while an activity is performed changes the variables of a scope that
runs only plain statements by assignments only. -/
theorem history_along (fuel : Nat) (h : Heap) (a : Activity) (m : Machine) (begun : h.Retains r name m.heap)
    (plain : ∀ e ∈ history fuel a m, e.PlainIn r) : SparesAlong r name h (history fuel a m) := by
  have first : (Event.started a m).SparesFrom r name h := Heap.Retains.sparesFrom begun
  induction fuel generalizing h a m with
  | zero => exact ⟨first, Heap.Retains.sparesFrom (e := .ended a m (perform 0 a m)) (.refl _), trivial⟩
  | succ fuel ih =>
    have own : ∀ s, a = .stmt s → m.scope = r → s.Plain := by
      rintro s rfl
      exact plain (.started (.stmt s) m) (by simp [history])
    obtain ⟨inner, last⟩ := (a.retains fuel m own).along (perform_scope fuel)
      (fun h => heapAfter_history h fuel) (fun h a m begun all => ih h a m begun all (Heap.Retains.sparesFrom begun))
      fun e member => plain e (by simp [history, member])
    exact ⟨first, sparesAlong_append.mpr ⟨inner, last, trivial⟩⟩

theorem Runs.along {allowed : Stmt → Prop} {m m' : Machine} {H : List Event} (run : Runs allowed m H m')
    (plain : ∀ e ∈ H, e.PlainIn r) : SparesAlong r name m.heap H := by
  induction run with
  | refl => trivial
  | stmt before accepted may fuel ih | value before accepted may fuel ih =>
    refine sparesAlong_append.mpr ⟨ih fun e member => plain e (List.mem_append_left _ member), ?_⟩
    rw [before.heapAfter]
    exact history_along fuel _ _ _ (.refl _) fun e member => plain e (List.mem_append_right _ member)
  | @global m' H before other fuel ih =>
    refine sparesAlong_append.mpr ⟨ih fun e member => plain e (List.mem_append_left _ member), ?_⟩
    rw [before.heapAfter]
    unfold Machine.globalEvents at plain ⊢
    cases found : m'.heap.here? .globals other with
    | none => trivial
    | some cell =>
      rw [found] at plain
      have reads := (retaining_compositional r name fun _ => True).readCell cell 0 m'.heap m' trivial (.refl _)
      exact (reads.along (perform_scope fuel) (fun h => heapAfter_history h fuel) (history_along fuel)
        fun e member => plain e (List.mem_append_right _ member)).1
  | host before heap scope ih => exact ih plain

end Treewalk
