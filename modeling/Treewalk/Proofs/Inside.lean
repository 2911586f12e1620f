import Treewalk.Proofs.ScopeRestored
import Treewalk.Proofs.Shelves
import Treewalk.Proofs.Tasks

/-!
Code inside a scope. What an expression or a statement does by itself it does in its own scope or in new ones
within that, and a function runs its body in a new scope within its closure. So code that runs inside a scope stays
inside it, calls apart, and functions that close over the scope bring the run inside again.
-/

namespace Treewalk

/-- Code runs inside a scope if that is its own one or one around it. -/
def Machine.Inside (m : Machine) (s : Ref .scope) : Prop :=
  ∃ distance, m.heap.ancestor? distance m.scope = some s

/-- A function closes over a scope if that is its closure or one around it. -/
def Function.ClosesOver (f : Function) (h : Heap) (s : Ref .scope) : Prop :=
  ∃ body closure distance, f.body = .user body closure ∧ h.ancestor? distance closure = some s

/-- A scope is another one or lies inside it. -/
def Heap.Nested (h : Heap) (r s : Ref .scope) : Prop :=
  ∃ distance, h.ancestor? distance r = some s

/-- A function closes over a scope, unless it has no code at all. -/
def Function.Confined (f : Function) (h : Heap) (s : Ref .scope) : Prop :=
  ∀ body closure, f.body = .user body closure → h.Nested closure s

theorem Function.ClosesOver.confined {f : Function} {h : Heap} {s : Ref .scope} (closes : f.ClosesOver h s) :
    f.Confined h s := by
  obtain ⟨body, closure, distance, user, found⟩ := closes
  intro body' closure' user'
  cases user.symm.trans user'
  exact ⟨distance, found⟩

def Activity.IsCode : Activity → Prop
  | .expr _ | .stmt _ => True
  | .call .. | .text _ => False

namespace Heap

variable {h h' : Heap} {r s : Ref .scope} {distance : Nat}

theorem Extends.ancestor? (later : h.Extends h') (found : h.ancestor? distance r = some s) :
    h'.ancestor? distance r = some s := by
  induction distance generalizing r with
  | zero => exact found
  | succ distance ih =>
    obtain ⟨outer, around, further⟩ := Option.bind_eq_some_iff.mp found
    have inside := lt_of_enclosing (by rw [around]; rfl)
    rw [Heap.ancestor?, later.enclosing r inside, around]
    exact ih further

theorem ancestor?_addScope (found : h.ancestor? distance r = some s) (names : NameMap Cell) :
    (h.addScope { enclosing := some r, names := names }).2.ancestor? (distance + 1) ⟨h.scopes.size⟩ = some s := by
  rw [Heap.ancestor?, scope_addScope, if_pos rfl]
  exact (Extends.addScope h _).ancestor? found

/-- What is known of scopes, whatever happens to the heap. -/
structure Lasting (P : Heap → Ref .scope → Prop) : Prop where
  later {h h' : Heap} {r : Ref .scope} (further : h.Extends h') (known : P h r) : P h' r

/-- What is also known of all new scopes within these. -/
structure Inherited (P : Heap → Ref .scope → Prop) : Prop extends Lasting P where
  inner {h : Heap} {r : Ref .scope} (known : P h r) (names : NameMap Cell) :
    P (h.addScope { enclosing := some r, names := names }).2 ⟨h.scopes.size⟩

theorem lasting_same (s : Ref .scope) : Lasting fun _ r => r = s :=
  ⟨fun _ same => same⟩

def Beside (P : Heap → Ref .scope → Prop) (s : Ref .scope) (h : Heap) (r : Ref .scope) : Prop :=
  P h r ∧ P h s

theorem Beside.there {P : Heap → Ref .scope → Prop} (known : Beside P s h r) : Beside P s h s :=
  ⟨known.2, known.2⟩

theorem Inherited.beside {P : Heap → Ref .scope → Prop} (inherited : Inherited P) (s : Ref .scope) :
    Inherited (Beside P s) where
  later further known := ⟨inherited.later further known.1, inherited.later further known.2⟩
  inner known names := ⟨inherited.inner known.1 names, inherited.later (.addScope _ _) known.2⟩

theorem inherited_inside (s : Ref .scope) : Inherited fun h r => ∃ distance, h.ancestor? distance r = some s :=
  ⟨⟨fun further ⟨distance, found⟩ => ⟨distance, further.ancestor? found⟩⟩,
    fun ⟨distance, found⟩ names => ⟨distance + 1, ancestor?_addScope found names⟩⟩

end Heap

/-- A plan extends the scopes of a heap, and whatever code it asks for runs in a scope of which something is
known. -/
def Plan.Inward (P : Heap → Ref .scope → Prop) (r : Ref .scope) : Heap → Plan α → Prop
  | h, .done outcome => h.Extends outcome.machine.heap ∧ outcome.machine.scope = r
  | h, .ask a m next => h.Extends m.heap ∧ (a.IsCode → P m.heap m.scope) ∧
      ∀ outcome, m.heap.Extends outcome.machine.heap → outcome.machine.scope = m.scope →
        Inward P r outcome.machine.heap (next outcome)

/-- A computation that begins in a scope of which something is known asks for code in such scopes only. -/
def Run.Inward (P : Heap → Ref .scope → Prop) (c : Run α) : Prop :=
  ∀ m, P m.heap m.scope → (c m).Inward P m.scope m.heap

variable {P : Heap → Ref .scope → Prop} {h h' : Heap} {r r' : Ref .scope}
  {act : (a : Activity) → Machine → Outcome a.Result}

namespace Plan.Inward

variable {plan : Plan α}

theorem after (inward : plan.Inward P r h') (later : h.Extends h') : plan.Inward P r h := by
  cases plan with
  | done outcome => exact ⟨later.trans inward.1, inward.2⟩
  | ask a m next => exact ⟨later.trans inward.1, inward.2⟩

theorem weaken {Q : Heap → Ref .scope → Prop} (inward : plan.Inward P r h) (weaker : ∀ h r, P h r → Q h r) :
    plan.Inward Q r h := by
  induction plan generalizing h with
  | done outcome => exact inward
  | ask a m next ih =>
    refine ⟨inward.1, fun code => weaker _ _ (inward.2.1 code), fun outcome later back => ?_⟩
    exact ih outcome (inward.2.2 outcome later back)

theorem andThen {f : Outcome α → Plan β} (first : plan.Inward P r h)
    (next : ∀ outcome, h.Extends outcome.machine.heap → outcome.machine.scope = r →
      (f outcome).Inward P r' outcome.machine.heap) : (plan.andThen f).Inward P r' h := by
  induction plan generalizing h with
  | done outcome => exact (next outcome first.1 first.2).after first.1
  | ask a m rest ih =>
    refine ⟨first.1, first.2.1, fun outcome later back => ?_⟩
    exact ih outcome (first.2.2 outcome later back) fun last further => next last ((first.1.trans later).trans further)

theorem outcome (grows : ∀ a (m : Machine), m.heap.Extends (act a m).machine.heap)
    (back : ∀ a m, (act a m).machine.scope = m.scope) (inward : plan.Inward P r h) :
    h.Extends (plan.outcome act).machine.heap := by
  induction plan generalizing h with
  | done outcome => exact inward.1
  | ask a m next ih =>
    have rest := ih _ (inward.2.2 (act a m) (grows a m) (back a m))
    exact (inward.1.trans (grows a m)).trans rest

theorem asked (grows : ∀ a (m : Machine), m.heap.Extends (act a m).machine.heap)
    (back : ∀ a m, (act a m).machine.scope = m.scope) (inward : plan.Inward P r h) :
    ∀ x ∈ plan.asked act, x.1.IsCode → P x.2.heap x.2.scope := by
  induction plan generalizing h with
  | done outcome => exact fun x absent => by cases absent
  | ask a m next ih =>
    intro x member
    rcases List.mem_cons.mp member with rfl | later
    · exact inward.2.1
    · exact ih _ (inward.2.2 (act a m) (grows a m) (back a m)) x later

end Plan.Inward

namespace Run.Inward

variable {c : Run α}

theorem bind (lasting : Heap.Lasting P) {f : α → Run β} (first : c.Inward P) (next : ∀ a, (f a).Inward P) :
    (c >>= f).Inward P := by
  intro m known
  refine (first m known).andThen fun outcome later back => ?_
  cases outcome with
  | ok a after =>
    have same : after.scope = m.scope := back
    rw [← same] at known ⊢
    exact next a after (lasting.later later known)
  | error reason after => exact ⟨.refl _, back⟩

theorem allocate {f : Heap → α × Heap} (grows : ∀ h : Heap, h.Extends (f h).2) : (Run.allocate f).Inward P :=
  fun m _ => ⟨grows m.heap, rfl⟩

theorem update {f : Heap → Heap} (grows : ∀ h : Heap, h.Extends (f h)) : (Run.update f).Inward P :=
  fun m _ => ⟨grows m.heap, rfl⟩

theorem define (target : Ref .scope) (name : String) (cell : Cell) :
    (Run.update (·.define target name cell)).Inward P :=
  .update fun h => .define h target name cell

theorem exec (s : Stmt) : (Run.exec s).Inward P :=
  fun _ known => ⟨.refl _, fun _ => known, fun _ _ back => ⟨.refl _, back⟩⟩

theorem currentScope {f : Ref .scope → Run α} (next : ∀ outer, (f outer).Inward (Heap.Beside P outer)) :
    (Run.currentScope >>= f).Inward P :=
  fun m known => (next m.scope m ⟨known, known⟩).weaken fun _ _ known => known.1

theorem newScope (inherited : Heap.Inherited P) {f : Ref .scope → Run α} {outer : Ref .scope} (names : NameMap Cell)
    (around : ∀ h r, P h r → P h outer) (next : ∀ scope, (f scope).Inward (Heap.Beside P scope)) :
    (Run.allocate (·.addScope { enclosing := some outer, names := names }) >>= f).Inward P := by
  intro m known
  have grown := Heap.Extends.addScope m.heap { enclosing := some outer, names := names }
  have inner := inherited.inner (around _ _ known) names
  have later := next ⟨m.heap.scopes.size⟩ { m with heap := _ } ⟨inherited.later grown known, inner⟩
  exact (later.weaken fun _ _ known => known.1).after grown

theorem inScope (inner : c.Inward P) {scope : Ref .scope} (around : ∀ h r, P h r → P h scope) :
    (Run.inScope scope c).Inward P := by
  intro m known
  refine (inner { m with scope := scope } (around _ _ known)).andThen fun outcome later back => ?_
  cases outcome <;> exact ⟨.refl _, rfl⟩

theorem catching (lasting : Heap.Lasting P) {handler : RuntimeError → Run α} (inner : c.Inward P)
    (handles : ∀ e, (handler e).Inward P) : (Run.catching c handler).Inward P := by
  intro m known
  refine (inner m known).andThen fun outcome later back => ?_
  match outcome with
  | .ok _ _ => exact ⟨.refl _, back⟩
  | .error .crash _ | .error .outOfFuel _ => exact ⟨.refl _, back⟩
  | .error (.fault e) after =>
    have same : after.scope = m.scope := back
    rw [← same] at known ⊢
    exact handles e after (lasting.later later known)

end Run.Inward

theorem inward_compositional (lasting : Heap.Lasting P) : Compositional (Run.Inward P) where
  pure _ _ _ := ⟨.refl _, rfl⟩
  bind := .bind lasting
  stop _ _ _ := ⟨.refl _, rfl⟩
  get _ _ := ⟨.refl _, rfl⟩
  quiet quiet m _ := by
    obtain ⟨a, after, done, heap, scope⟩ := quiet m
    rw [done]
    refine ⟨?_, scope⟩
    rw [Outcome.machine, heap]
    exact .refl _
  ask _ _ known := ⟨.refl _, fun _ => known, fun _ _ back => ⟨.refl _, back⟩⟩
  addScope s := .allocate fun h => .addScope h s
  addFunction _ := .allocate fun _ => .of_scopes rfl
  addArray _ := .allocate fun _ => .of_scopes rfl
  addProperty _ := .allocate fun _ => .of_scopes rfl
  addInterface _ := .allocate fun _ => .of_scopes rfl
  addEnumeration _ := .allocate fun _ => .of_scopes rfl
  setElement _ _ _ := .update fun _ => .of_scopes rfl
  setCache _ _ := .update fun _ => .of_scopes rfl

/-! Activities. -/

namespace Evaluator

/-- Expressions open no scopes of their own. -/
theorem evalExpr_inward (lasting : Heap.Lasting P) (e : Expr) : (evalExpr e).Inward P := by
  have comp := inward_compositional lasting
  apply comp.evalExpr
  · intro ref site value _
    exact comp.assign (comp.writeVariable .define) ref site value
  · intro object name site value qualified _
    refine comp.setProperty (comp.setMember (fun _ _ _ => ?_) fun _ _ _ => ?_) object name site value qualified
    all_goals exact .update fun _ => .of_scopes rfl
  · exact comp.construct (fun _ => .allocate fun _ => .of_scopes rfl) fun _ _ => .update fun _ => .of_scopes rfl

variable (inherited : Heap.Inherited P)

include inherited

theorem block_inward {scope : Ref .scope} (around : ∀ h r, P h r → P h scope) (body : List Stmt) :
    (block scope body).Inward P :=
  .inScope ((inward_compositional inherited.toLasting).stmts fun s _ => .exec s) around

theorem iteration_inward (body : Stmt) (names : List Name) : (iteration body names).Inward P := by
  refine .currentScope fun outer => ?_
  have outside := inherited.beside outer
  have compOutside := inward_compositional outside.toLasting
  refine compOutside.bind (compOutside.reading _) fun copies => ?_
  refine .newScope outside _ (fun _ _ => .there) fun scope => ?_
  have comp := inward_compositional (outside.beside scope).toLasting
  refine comp.bind (block_inward (outside.beside scope) (fun _ _ => .there) [body]) fun signal => ?_
  exact comp.bind (comp.copyNames (fun _ => comp.reading _) (.define _) names) fun _ => comp.pure signal

theorem declareClass_inward (decl : ClassDecl) : (declareClass decl).Inward P := by
  have comp := inward_compositional inherited.toLasting
  rw [declareClass_eq]
  refine comp.bind (heritage_compositional comp decl) fun x => .currentScope fun outer => ?_
  have outside := inherited.beside outer
  have compOutside := inward_compositional outside.toLasting
  refine compOutside.bind (.define _ _ _) fun _ => compOutside.bind ?_ fun _ => .define _ _ _
  refine .newScope outside _ (fun _ _ => .there) fun scope => ?_
  have compClass := inward_compositional (outside.beside scope).toLasting
  have fields := compClass.fieldCells (compClass.typesIn scope) decl.fields .empty
  refine compClass.declaredClassThen (.inScope fields fun _ _ => .there) x.1 x.2 fun cls _ _ => ?_
  exact compClass.addClass (.allocate fun _ => .of_scopes rfl) fun _ _ => .update fun _ => .of_scopes rfl

theorem evalStmt_inward (fuel : Nat) (s : Stmt) : (evalStmt fuel s).Inward P := by
  have comp := inward_compositional inherited.toLasting
  cases declares : s.declares? with
  | some name =>
    exact comp.evalDeclaration (by rw [declares]; rfl) .define (fun decl _ => declareClass_inward inherited decl) fuel
  | none =>
    refine comp.evalStmt declares .exec (fun names body => .currentScope fun outer => ?_)
      (fun body _ => iteration_inward inherited body _) (fun _ _ => .catching inherited.toLasting) fuel
    have outside := inherited.beside outer
    refine .newScope outside _ (fun _ _ => .there) fun scope => ?_
    exact block_inward (outside.beside scope) (fun _ _ => .there) body

end Evaluator

/-- An activity leaves the scopes that are there within each other as they are. -/
theorem perform_extends (fuel : Nat) (a : Activity) (m : Machine) : m.heap.Extends (perform fuel a m).machine.heap :=
  (perform_shelves fuel a m).toExtends

/-! Calls. -/

namespace Evaluator

variable {f : Function} {args generics : List Value} {line : Line} {m : Machine} {x : Activity × Machine}

theorem asked_readCell (cell : Cell) (line : Line) (asked : x ∈ (readCell cell line m).asked act) : ¬x.1.IsCode := by
  cases content : cell.content with
  | plain value =>
    rw [readCell, content] at asked
    cases asked
  | computed p =>
    rw [readCell, content] at asked
    change x ∈ ((Run.call _ _ _ line >>= fun value => _) m).asked act at asked
    rcases Run.mem_asked_bind asked with getter | ⟨value, after, -, later⟩
    · cases List.mem_singleton.mp getter
      exact id
    · change x ∈ ((Run.orRaise line (after.heap.checkType _ _ value) >>= fun _ => _) after).asked act at later
      cases checked : after.heap.checkType (m.heap.property p).declared (m.heap.property p).name value <;>
        (rw [checked] at later; cases later)

theorem asked_demand (holds : Bool) (line : Line) (fault : Fault) (value : Value) (m : Machine) :
    ((Run.demand holds line fault >>= fun _ => Pure.pure value) m).asked act = [] := by
  cases holds <;> rfl

/-- What is done after the body of a function runs no code. -/
theorem asked_after_body (f : Function) (closure : Ref .scope) (line : Line) (signal : Signal)
    (asked : x ∈ ((if f.constructs then constructed closure line else resultOf f closure line signal) m).asked act) :
    ¬x.1.IsCode := by
  split at asked
  · unfold constructed at asked
    rw [Run.reading_bind] at asked
    cases found : m.heap.here? closure "this" with
    | none =>
      rw [found] at asked
      cases asked
    | some cell =>
      rw [found] at asked
      exact asked_readCell cell line asked
  · have none : (resultOf f closure line signal m).asked act = [] := by
      cases signal <;> exact asked_demand ..
    rw [none] at asked
    cases asked

theorem asked_callNative {native : Native} (asked : x ∈ (callNative native args m).asked act) : ¬x.1.IsCode := by
  have spelled (value : Value) (f : String → Run Value) (rest : ∀ text after, (f text after).asked act = [])
      (asked : x ∈ ((Run.spell value >>= f) m).asked act) : ¬x.1.IsCode := by
    rcases Run.mem_asked_bind asked with first | ⟨text, after, -, later⟩
    · cases List.mem_singleton.mp first
      exact id
    · rw [rest] at later
      cases later
  unfold callNative at asked
  split at asked
  · rcases Run.mem_asked_bind asked with first | ⟨shown, after, -, later⟩
    · cases first
    · cases shown <;> cases later
  · exact spelled _ _ (fun _ _ => rfl) asked
  · exact spelled _ _ (fun _ _ => rfl) asked
  · exact spelled _ _ (fun _ _ => rfl) asked
  all_goals cases asked

/-- The code of a call runs inside the closure of the function. -/
theorem asked_callFunction (grows : ∀ a (m : Machine), m.heap.Extends (act a m).machine.heap)
    (back : ∀ a m, (act a m).machine.scope = m.scope) {s : Ref .scope} (confined : f.Confined m.heap s)
    (asked : x ∈ (callFunction f args generics line m).asked act) (isCode : x.1.IsCode) : x.2.Inside s := by
  unfold callFunction at asked
  cases user : f.body with
  | native native receiver =>
    rw [user] at asked
    split at asked
    · cases asked
    · exact absurd isCode (asked_callNative asked)
  | missing =>
    rw [user] at asked
    split at asked
    · cases asked
    rcases Run.mem_asked_bind asked with first | ⟨outermost, after, -, later⟩
    · cases first
    · cases outermost <;> cases later
  | user body closure =>
    obtain ⟨distance, found⟩ := confined body closure user
    rw [user] at asked
    split at asked
    · cases asked
    dsimp only at asked
    split at asked
    · change x ∈ ((Run.orRaise line (m.heap.argumentCells _ closure f.params args _) >>= _) m).asked act at asked
      cases fits : m.heap.argumentCells f.name closure f.params args .empty with
      | error fault =>
        rw [fits] at asked
        cases asked
      | ok cells =>
        rw [fits] at asked
        let opened : Machine := { m with heap := (m.heap.addScope { enclosing := some closure, names := cells }).2 }
        change x ∈ ((block ⟨m.heap.scopes.size⟩ body >>= fun signal =>
          if f.constructs then constructed closure line else resultOf f closure line signal) opened).asked act at asked
        rcases Run.mem_asked_bind asked with inner | ⟨signal, after, -, later⟩
        · rw [block, Run.asked_inScope] at inner
          have inward : (stmts body).Inward _ :=
            (inward_compositional (Heap.inherited_inside s).toLasting).stmts fun b _ => .exec b
          exact (inward { opened with scope := ⟨m.heap.scopes.size⟩ }
            ⟨distance + 1, Heap.ancestor?_addScope found cells⟩).asked grows back x inner isCode
        · exact absurd isCode (asked_after_body f closure line signal later)
    · cases asked

end Evaluator

/-! Tasks. -/

namespace Task

variable {t part : Task} {s : Ref .scope}

/-- What code asks for inside a scope is inside again, if it is code. -/
theorem Asks.inside (asks : t.Asks part) (isCode : t.activity.IsCode) (isPart : part.activity.IsCode)
    (inside : t.machine.Inside s) : part.machine.Inside s := by
  obtain ⟨fuel, a, m⟩ := t
  obtain ⟨rfl, asked⟩ := asks
  have inherited := Heap.inherited_inside s
  have inward : (a.plan part.fuel).Inward fun h r => ∃ distance, h.ancestor? distance r = some s := by
    cases a with
    | expr e => exact Evaluator.evalExpr_inward inherited.toLasting e
    | stmt b => exact Evaluator.evalStmt_inward inherited part.fuel b
    | call | text => exact isCode.elim
  exact (inward m inside).asked (perform_extends part.fuel) (perform_scope part.fuel) _ asked isPart

/-- The expressions in an expression are evaluated in its scope. -/
theorem Asks.scope (asks : t.Asks part) {e : Expr} (isExpr : t.activity = .expr e) (isPart : part.activity.IsCode) :
    part.machine.scope = t.machine.scope := by
  obtain ⟨fuel, a, m⟩ := t
  cases isExpr
  obtain ⟨rfl, asked⟩ := asks
  have inward := Evaluator.evalExpr_inward (Heap.lasting_same m.scope) e m rfl
  exact inward.asked (perform_extends part.fuel) (perform_scope part.fuel) _ asked isPart

theorem Asks.inside_call (asks : t.Asks part) {f : Function} {args generics : List Value} {line : Line}
    (calls : t.activity = .call f args generics line) (isPart : part.activity.IsCode)
    (confined : f.Confined t.machine.heap s) : part.machine.Inside s := by
  obtain ⟨fuel, a, m⟩ := t
  obtain ⟨turns, b, n⟩ := part
  cases calls
  obtain ⟨rfl, asked⟩ := asks
  exact Evaluator.asked_callFunction (perform_extends turns) (perform_scope turns) confined asked isPart

end Task

end Treewalk
