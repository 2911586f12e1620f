import Treewalk.Proofs.Composition
import Treewalk.Proofs.Detour
import Treewalk.Proofs.ScopeDistance

/-!
Computations on a machine with a detour among its scopes, beside the machine without it. A computation goes
steadily if it does the same on both, asks for the same activities, and goes on with whatever they come to. All
of the evaluator does, as long as the references of an expression do not pass the beginning of the detour.
-/

namespace Treewalk

def Detour.machine (D : Detour) (m : Machine) : Machine :=
  { m with heap := D.straight m.heap }

def Detour.outcome (D : Detour) : Outcome α → Outcome α
  | .ok a m => .ok a (D.machine m)
  | .error reason m => .error reason (D.machine m)

/-- A plan on the machine with the detour, beside one on the machine without it. -/
inductive Plan.Beside (D : Detour) (h : Heap) (r : Ref .scope) : Plan α → Plan α → Prop where
  | done (outcome : Outcome α) (later : h.Extends outcome.machine.heap) (lies : D.Lies outcome.machine.heap)
      (scope : outcome.machine.scope = r) : Beside D h r (.done outcome) (.done (D.outcome outcome))
  | ask {a : Activity} {m : Machine} {next next' : Outcome a.Result → Plan α} (later : h.Extends m.heap)
      (lies : D.Lies m.heap) (deep : ∀ s, a = .stmt s → D.inner.index ≤ m.scope.index)
      (resume : ∀ outcome : Outcome a.Result, m.heap.Extends outcome.machine.heap →
        D.Lies outcome.machine.heap → outcome.machine.scope = m.scope →
          Beside D h r (next outcome) (next' (D.outcome outcome))) :
      Beside D h r (.ask a m next) (.ask a (D.machine m) next')

/-- From a heap on and in a scope, a computation does the same with the detour and without it. -/
def Detour.Steady (D : Detour) (h : Heap) (r : Ref .scope) (c : Run α) : Prop :=
  ∀ m, h.Extends m.heap → D.Lies m.heap → m.scope = r → (c m).Beside D m.heap r (c (D.machine m))

variable {D : Detour} {h h' : Heap} {r : Ref .scope} {α β : Type}

namespace Plan.Beside

theorem after {plan plan' : Plan α} (later : h.Extends h') (beside : plan.Beside D h' r plan') :
    plan.Beside D h r plan' := by
  induction beside with
  | done _ further lies scope => exact .done _ (later.trans further) lies scope
  | ask further lies deep _ ih => exact .ask (later.trans further) lies deep ih

theorem andThen {inner : Ref .scope} {plan plan' : Plan α} {f f' : Outcome α → Plan β}
    (beside : plan.Beside D h inner plan')
    (next : ∀ outcome, h.Extends outcome.machine.heap → D.Lies outcome.machine.heap → outcome.machine.scope = inner →
      (f outcome).Beside D h r (f' (D.outcome outcome))) : (plan.andThen f).Beside D h r (plan'.andThen f') := by
  induction beside with
  | done _ later lies scope => exact next _ later lies scope
  | ask later lies deep _ ih => exact .ask later lies deep ih

end Plan.Beside

namespace Detour.Steady

variable {c : Run α} {f : α → Run β}

theorem mono (steady : D.Steady h r c) (later : h.Extends h') : D.Steady h' r c :=
  fun m further lies scope => steady m (later.trans further) lies scope

theorem heap {f : Heap → Run β} (same : ∀ h', h.Extends h' → D.Lies h' → f (D.straight h') = f h')
    (next : ∀ h', h.Extends h' → D.Lies h' → D.Steady h' r (f h')) : D.Steady h r (Run.heap >>= f) := by
  intro m later lies scope
  change (f m.heap m).Beside D m.heap r (f (D.straight m.heap) (D.machine m))
  rw [same m.heap later lies]
  exact next m.heap later lies m (.refl _) lies scope

theorem reading {g : Heap → α} (same : ∀ h', D.Lies h' → g (D.straight h') = g h')
    (next : ∀ h', h.Extends h' → D.Lies h' → D.Steady h' r (f (g h'))) : D.Steady h r (Run.reading g >>= f) :=
  heap (f := fun h => f (g h)) (fun h' _ lies => by rw [same h' lies]) next

theorem get {f : Machine → Run β} (same : ∀ m, h.Extends m.heap → D.Lies m.heap → m.scope = r → f (D.machine m) = f m)
    (next : ∀ m, h.Extends m.heap → D.Lies m.heap → m.scope = r → D.Steady m.heap r (f m)) :
    D.Steady h r (MonadState.get >>= f) := by
  intro m later lies scope
  change (f m m).Beside D m.heap r (f (D.machine m) (D.machine m))
  rw [same m later lies scope]
  exact next m later lies scope m (.refl _) lies scope

theorem pure (a : α) : D.Steady h r (Pure.pure a : Run α) :=
  fun _ _ lies scope => .done _ (.refl _) lies scope

theorem stop (reason : Stop) : D.Steady h r (Run.stop reason : Run α) :=
  fun _ _ lies scope => .done _ (.refl _) lies scope

theorem bind (first : D.Steady h r c) (next : ∀ a, D.Steady h r (f a)) : D.Steady h r (c >>= f) := by
  intro m later lies scope
  refine (first m later lies scope).andThen fun outcome further lies' scope' => ?_
  cases outcome with
  | ok a m' => exact (next a m' (later.trans further) lies' scope').after further
  | error reason m' => exact .done _ further lies' scope'

theorem currentScope {f : Ref .scope → Run β} (next : D.Steady h r (f r)) :
    D.Steady h r (Run.currentScope >>= f) := by
  rintro m later lies rfl
  exact next m later lies rfl

theorem ask {a : Activity} (deep : ∀ s, a = .stmt s → D.inner.index ≤ r.index) : D.Steady h r (Run.ask a) := by
  rintro m later lies rfl
  exact .ask (.refl _) lies deep fun outcome further lies' scope => .done _ further lies' scope

theorem allocate {g : Heap → α × Heap}
    (same : ∀ h scopes, g (h.rescoped scopes) = ((g h).1, (g h).2.rescoped scopes))
    (scopes : ∀ h, (g h).2.scopes = h.scopes)
    (classes : ∀ h' c, h.Extends h' → ((g h').2.cls c).scope = (h'.cls c).scope ∨
      h'.Grounded ((g h').2.cls c).scope ∧ ((g h').2.cls c).scope ≠ D.inner) : D.Steady h r (Run.allocate g) := by
  intro m later lies scope
  have straight : g (D.straight m.heap) = ((g m.heap).1, D.straight (g m.heap).2) := by
    rw [straight, same, straight, scopes]
  change Plan.Beside D m.heap r (.done (.ok (g m.heap).1 { m with heap := (g m.heap).2 }))
    (.done (.ok (g (D.straight m.heap)).1 { m with heap := (g (D.straight m.heap)).2 }))
  rw [straight]
  refine .done (.ok _ _) ?_ ?_ scope
  · exact .of_scopes (scopes _)
  · exact lies.sameScopes (scopes _) fun c => classes m.heap c later

theorem update {g : Heap → Heap} (same : ∀ h scopes, g (h.rescoped scopes) = (g h).rescoped scopes)
    (scopes : ∀ h, (g h).scopes = h.scopes) (classes : ∀ h c, ((g h).cls c).scope = (h.cls c).scope) :
    D.Steady h r (Run.update g) :=
  allocate (g := fun h => ((), g h)) (fun h scopes => by rw [same]) scopes fun h c _ => .inl (classes h c)

theorem addScope {s : Scope} {f : Ref .scope → Run β} (around : ∀ p, s.enclosing = some p → h.Grounded p)
    (next : ∀ h' scope, h.Extends h' → h'.Grounded scope → D.inner.index < scope.index → D.Steady h' r (f scope)) :
    D.Steady h r (Run.allocate (·.addScope s) >>= f) := by
  intro m later lies scope
  have further := Heap.Extends.addScope m.heap s
  have there := next (m.heap.addScope s).2 ⟨m.heap.scopes.size⟩ (later.trans further)
    (.addScope fun p enclosing => (around p enclosing).mono later) lies.inside
  change ((f ⟨m.heap.scopes.size⟩) { m with heap := (m.heap.addScope s).2 }).Beside D m.heap r
    (f ((D.straight m.heap).addScope s).1 { m with heap := ((D.straight m.heap).addScope s).2 })
  rw [straight_addScope lies.inside]
  exact (there { m with heap := (m.heap.addScope s).2 } (.refl _) (lies.addScope s) scope).after further

theorem define {target : Ref .scope} {name : String} {cell : Cell}
    (allowed : ∀ h', h.Extends h' → D.inner.index ≤ target.index ∨ name ≠ "this" ∧ (h'.here? target name).isSome = true) :
    D.Steady h r (Run.update (·.define target name cell)) := by
  intro m later lies scope
  change Plan.Beside D m.heap r (.done (.ok () { m with heap := m.heap.define target name cell }))
    (.done (.ok () { m with heap := (D.straight m.heap).define target name cell }))
  rw [straight_define]
  exact .done (.ok _ _) (.define _ _ _ _) (lies.define (allowed m.heap later)) scope

theorem inScope {inner : Ref .scope} (body : D.Steady h inner c) : D.Steady h r (Run.inScope inner c) := by
  rintro m later lies rfl
  refine (body { m with scope := inner } later lies rfl).andThen fun outcome further lies' scope => ?_
  cases outcome with
  | ok a m' => exact .done (.ok a { m' with scope := m.scope }) further lies' rfl
  | error reason m' => exact .done (.error reason { m' with scope := m.scope }) further lies' rfl

theorem catching {handler : RuntimeError → Run α} (body : D.Steady h r c) (handles : ∀ e, D.Steady h r (handler e)) :
    D.Steady h r (Run.catching c handler) := by
  intro m later lies scope
  refine (body m later lies scope).andThen fun outcome further lies' scope' => ?_
  match outcome with
  | .ok a m' => exact .done _ further lies' scope'
  | .error .crash m' | .error .outOfFuel m' => exact .done _ further lies' scope'
  | .error (.fault e) m' => exact (handles e m' (later.trans further) lies' scope').after further

end Detour.Steady

theorem steady_blind (D : Detour) (h : Heap) (r : Ref .scope) : Blind (D.Steady h r) where
  pure := .pure
  bind := .bind
  stop := .stop
  withHeap blind next := .heap (fun _ _ _ => blind _ _) fun h' later _ => (next h').mono later
  currentScope := by
    rintro m later lies rfl
    exact .done (.ok _ _) (.refl _) lies rfl
  inGlobalScope := by
    rintro m later lies rfl
    have same := lies.isGlobal m.scope
    change Plan.Beside D m.heap m.scope (.done (.ok (m.heap.isGlobal m.scope) m))
      (.done (.ok ((D.straight m.heap).isGlobal m.scope) (D.machine m)))
    rw [same]
    exact .done (.ok _ _) (.refl _) lies rfl
  warn _ _ _ _ lies scope := .done (.ok _ _) (.refl _) lies scope
  printOut _ _ _ lies scope := .done (.ok _ _) (.refl _) lies scope
  printErr _ _ _ lies scope := .done (.ok _ _) (.refl _) lies scope
  readClock _ _ lies scope := .done (.ok _ _) (.refl _) lies scope
  ask other := .ask fun s same => absurd same (other s)
  addScope s := by
    intro m later lies scope
    change Plan.Beside D m.heap r (.done (.ok _ { m with heap := (m.heap.addScope s).2 }))
      (.done (.ok ((D.straight m.heap).addScope s).1 { m with heap := ((D.straight m.heap).addScope s).2 }))
    rw [Detour.straight_addScope lies.inside]
    exact .done (.ok _ _) (.addScope _ s) (lies.addScope s) scope
  addFunction _ := .allocate (fun _ _ => rfl) (fun _ => rfl) fun _ _ _ => .inl rfl
  addArray _ := .allocate (fun _ _ => rfl) (fun _ => rfl) fun _ _ _ => .inl rfl
  addProperty _ := .allocate (fun _ _ => rfl) (fun _ => rfl) fun _ _ _ => .inl rfl
  addInterface _ := .allocate (fun _ _ => rfl) (fun _ => rfl) fun _ _ _ => .inl rfl
  addEnumeration _ := .allocate (fun _ _ => rfl) (fun _ => rfl) fun _ _ _ => .inl rfl
  setElement _ _ _ := .update (fun _ _ => rfl) (fun _ => rfl) fun _ _ => rfl
  setCache _ _ := .update (fun _ _ => rfl) (fun _ => rfl) fun _ _ => rfl

/-! Types. -/

theorem steady_types {scope : Ref .scope} (grounded : h.Grounded scope) : TypesIn (D.Steady h r) scope := by
  intro α f blind next
  refine .heap (fun h' later lies => blind h' _ fun t => ?_) fun h' later _ => (next h').mono later
  exact lies.resolveType (grounded.mono later) t

/-! Variables. -/

/-- A reference that does not lead past a scope. -/
def Reference.Stops (h : Heap) (r : Ref .scope) (ref : Reference) (limit : Ref .scope) : Prop :=
  ∀ depth ∈ ref.depth, ∀ j < depth, h.ancestor? j r ≠ some limit

instance (h : Heap) (r : Ref .scope) (ref : Reference) (limit : Ref .scope) : Decidable (ref.Stops h r limit) :=
  inferInstanceAs (Decidable (∀ depth ∈ ref.depth, ∀ j < depth, h.ancestor? j r ≠ some limit))

theorem Heap.Grounded.ancestor? (grounded : h.Grounded r) (later : h.Extends h') (distance : Nat) :
    h'.ancestor? distance r = h.ancestor? distance r := by
  induction distance generalizing r with
  | zero => rfl
  | succ distance ih =>
    unfold Heap.ancestor?
    rw [later.enclosing r grounded.inside]
    cases around : (h.scope r).enclosing with
    | none => rfl
    | some p => exact ih (grounded.outer around)

namespace Detour

theorem binder?_globals (D : Detour) (h : Heap) (name : String) :
    (D.straight h).binder? .globals name = h.binder? .globals name := by
  have contains (s : Ref .scope) : ((D.straight h).scope s).names.contains name = (h.scope s).names.contains name :=
    congrArg Option.isSome (here?_straight D h s name)
  unfold Heap.binder?
  rw [Heap.outward_globals, Heap.outward_globals]
  simp only [contains]

theorem Lies.assignHere (lies : D.Lies h) (target : Ref .scope) (name : String) (value : Value) :
    (D.straight h).assignHere target name value = h.assignHere target name value := by
  have written (cell : Cell) : (D.straight h).writeCell cell name value = h.writeCell cell name value :=
    h.rescoped_writeCell _ cell name value
  simp only [Heap.assignHere, here?_straight, lies.isGlobal, written]

theorem lookupAt_straight {distance : Nat} (short : ∀ j < distance, h.ancestor? j r ≠ some D.inner) (name : String) :
    (D.straight h).lookupAt r distance name = h.lookupAt r distance name := by
  simp only [Heap.lookupAt, ancestor?_straight short, here?_straight]

variable {m : Machine} {ref : Reference}

theorem variableCell_machine (stops : ref.Stops m.heap m.scope D.inner) :
    Evaluator.variableCell ref (D.machine m) = Evaluator.variableCell ref m := by
  unfold Evaluator.variableCell
  split
  · rename_i depth known
    exact lookupAt_straight (stops depth known) _
  · simp only [machine, Heap.lookup, binder?_globals, here?_straight]

theorem variableWrite_machine (lies : D.Lies m.heap) (stops : ref.Stops m.heap m.scope D.inner) (value : Value) :
    Evaluator.variableWrite ref value (D.machine m) = Evaluator.variableWrite ref value m := by
  unfold Evaluator.variableWrite
  split
  · rename_i depth known
    have there := ancestor?_straight (stops depth known)
    simp only [machine, Heap.assignAt, there, lies.assignHere]
  · simp only [machine, Heap.assign, binder?_globals, lies.assignHere]

end Detour

theorem Reference.Stops.mono {ref : Reference} {limit : Ref .scope} (stops : ref.Stops h r limit) (grounded : h.Grounded r)
    (later : h.Extends h') : ref.Stops h' r limit := by
  intro depth known j below
  rw [grounded.ancestor? later]
  exact stops depth known j below

section

variable {ref : Reference} (grounded : h.Grounded r) (stops : ref.Stops h r D.inner)

include grounded stops

theorem readVariable_steady : D.Steady h r (Evaluator.readVariable ref) := by
  have comp := steady_blind D h r
  refine .get (fun m later _ scope => ?_) fun m later _ _ => ?_
  · subst scope
    rw [Detour.variableCell_machine (stops.mono grounded later)]
  · exact (comp.bind (comp.orRaise _ _) fun cell => comp.readCell cell _).mono later

theorem writeVariable_steady (proper : ref.name.text ≠ "this") (value : Value) :
    D.Steady h r (Evaluator.writeVariable ref value) := by
  have comp := steady_blind D h r
  refine .get (fun m later lies scope => ?_) fun m later _ _ => ?_
  · subst scope
    rw [Detour.variableWrite_machine lies (stops.mono grounded later)]
  · cases written : Evaluator.variableWrite ref value m with
    | error fault => exact (comp.raise _ _).mono later
    | ok assigned =>
      cases assigned with
      | computed p => exact (comp.writeProperty p value _).mono later
      | stored target cell =>
        obtain ⟨-, held, found, -⟩ := Evaluator.variableWrite_stored written
        refine .define fun h' further => .inr ⟨proper, further.bound target _ ?_⟩
        rw [found]
        rfl

theorem nearerReceiver_steady {depth : Nat} (known : ref.depth = some depth) (line : Line) :
    D.Steady h r (Evaluator.nearerReceiver line depth) := by
  have comp := steady_blind D h r
  cases depth with
  | zero => exact comp.stop _
  | succ near =>
    refine .get (fun m later _ scope => ?_) fun m later _ _ => Detour.Steady.mono ?_ later
    · subst scope
      have shorter : ∀ j < near, m.heap.ancestor? j m.scope ≠ some D.inner :=
        fun j below => stops.mono grounded later _ known j (Nat.lt_succ_of_lt below)
      simp only [Detour.machine, Detour.lookupAt_straight shorter]
    exact comp.bind (comp.orRaise _ _) fun cell => comp.readCell cell _

theorem superMethod_steady (method : Name) : D.Steady h r (Evaluator.superMethod ref method) := by
  have comp := steady_blind D h r
  unfold Evaluator.superMethod
  dsimp only
  split
  · exact comp.raise _ _
  · rename_i depth known
    have short {h' : Heap} (later : h.Extends h') := stops.mono grounded later depth known
    refine .get (fun m later _ scope => ?_) fun m later _ _ => Detour.Steady.mono ?_ later
    · subst scope
      simp only [Detour.machine, Detour.lookupAt_straight (short later)]
    refine comp.bind (comp.orRaise _ _) fun cell => comp.bind (comp.readCell cell _) fun found => ?_
    split
    · refine comp.bind (nearerReceiver_steady grounded stops known _) fun receiver => ?_
      refine comp.bind (comp.reading (by simp)) fun method => ?_
      split
      · exact comp.bindMethod _ receiver
      · exact comp.raise _ _
    · exact comp.raise _ _

end

/-! Instances. -/

theorem fillFields_steady (o : Ref .object) (c : Ref .cls) {scope : Option (Ref .scope)}
    (own : ∀ s ∈ scope, h.Grounded s) : D.Steady h r (Evaluator.fillFields o c scope) := by
  refine .heap (fun h' _ _ => ?_) fun h' later lies => ?_
  · rw [Detour.straight, Heap.rescoped_instanceFields]
    rfl
  have comp := steady_blind D h' r
  refine comp.bind (comp.ownCells _ fun x member => steady_types ?_) fun cells =>
    .update (fun _ _ => rfl) (fun _ => rfl) fun _ _ => rfl
  obtain ⟨⟨name, cell, home⟩, entry, rfl⟩ := List.mem_map.mp member
  obtain ⟨ancestor, -, -, -, same⟩ := Heap.mem_instanceFields entry
  have there : h'.Grounded home := by
    rw [show home = _ from same]
    exact (lies.classes ancestor).1
  dsimp only
  split
  · cases scope with
    | none => exact there
    | some s => exact (own s rfl).mono later
  · exact there

/-- An instance is made in the same way, whatever happens with its scope. -/
theorem templateScope_steady {cls : Class} (home : h.Grounded cls.scope)
    (other : cls.scope ≠ D.inner) (generics : List Value) (line : Line) {f : Option (Ref .scope) → Run α}
    (next : ∀ h' scope, h.Extends h' → (∀ s ∈ scope, h'.Grounded s) → D.Steady h' r (f scope)) :
    D.Steady h r (Evaluator.templateScope cls generics line >>= f) := by
  have comp := steady_blind D h r
  unfold Evaluator.templateScope
  split
  · exact next h none (.refl _) (by simp)
  · rw [Run.bind_assoc]
    refine comp.bind (comp.typeArguments line generics) fun types => ?_
    rw [Run.bind_assoc]
    refine .reading (fun h' _ => Detour.scope_straight_other other) fun h' later _ => ?_
    change D.Steady h' r ((Run.allocate _ >>= fun scope => Pure.pure (some scope)) >>= f)
    rw [Run.bind_assoc]
    refine .addScope (fun p around => ?_) fun h'' scope further grounded _ => ?_
    · exact (home.mono later).outer around
    · exact next h'' (some scope) (later.trans further) (by simpa using grounded)

theorem construct_steady (c : Ref .cls) (args generics : List Value) (line : Line) :
    D.Steady h r (Evaluator.construct c args generics line) := by
  refine .reading (fun _ _ => rfl) fun h' later lies => ?_
  have comp := steady_blind D h' r
  obtain ⟨home, other⟩ := lies.classes c
  refine comp.bind (comp.demand _ line _) fun _ => ?_
  refine templateScope_steady home other generics line fun h'' scope further own => ?_
  have comp := steady_blind D h'' r
  have made (o : Object) : D.Steady h'' r (Run.allocate (·.addObject o)) :=
    .allocate (fun _ _ => rfl) (fun _ => rfl) fun _ _ _ => .inl rfl
  refine comp.bind (made _) fun o => ?_
  exact comp.bind (fillFields_steady o c own) fun _ => comp.runConstructor o c args line

/-! Expressions. -/

/-- The reference that an expression itself follows, to a variable or to `super`. -/
def Expr.follows? : Expr → Option Reference
  | .super ref _ => some ref
  | e => e.reference?

theorem setMember_steady (target : Value) (name : Name) (value : Value)
    (qualified : Bool) : D.Steady h r (Evaluator.setMember target name value qualified) := by
  refine (steady_blind D h r).setMember (fun o name cell => ?_) (fun c name cell => ?_) target name value qualified
  · exact .update (fun _ _ => rfl) (fun _ => rfl) fun _ _ => rfl
  · refine .update (fun _ _ => rfl) (fun _ => rfl) fun h d => ?_
    rw [Heap.cls_setClassField]
    split <;> rfl

theorem evalExpr_steady {e : Expr} (grounded : h.Grounded r)
    (stops : ∀ ref ∈ e.follows?, ref.Stops h r D.inner)
    (proper : ∀ ref site value, e = .assign ref site value → ref.name.text ≠ "this") :
    D.Steady h r (Evaluator.evalExpr e) := by
  have comp := steady_blind D h r
  refine comp.evalExpr (fun ref among => ?_) (fun ref method same => ?_) (fun t => ?_) (fun ref site value same => ?_)
    (fun object name site value qualified _ => ?_) fun c args generics line => ?_
  · refine readVariable_steady grounded (stops ref ?_)
    rcases among with rfl | rfl | rfl <;> rfl
  · subst same
    exact superMethod_steady grounded (stops ref rfl) method
  · exact .currentScope (comp.typeIn (steady_types grounded) t)
  · have name := proper ref site value same
    subst same
    have short := stops ref rfl
    exact comp.assign (readVariable_steady grounded short)
      (writeVariable_steady grounded short name) site value
  · exact comp.setProperty setMember_steady object name site value qualified
  · exact construct_steady c args generics line

/-! Statements. -/

theorem opened_steady {s : Scope} (around : ∀ p, s.enclosing = some p → h.Grounded p) (body : List Stmt) :
    D.Steady h r (Run.allocate (·.addScope s) >>= fun scope => Evaluator.block scope body) := by
  refine .addScope around fun h' scope _ _ deeper => .inScope ?_
  exact (steady_blind D _ scope).stmts fun _ _ => .ask fun _ _ => Nat.le_of_lt deeper

theorem copies_straight (D : Detour) (h : Heap) (source : Ref .scope) (names : List Name) :
    (D.straight h).copies source names = h.copies source names := by
  induction names with
  | nil => rfl
  | cons name rest ih => simp only [Heap.copies, Detour.here?_straight, ih]

theorem iteration_steady (deep : D.inner.index ≤ r.index) (grounded : h.Grounded r) (body : Stmt) (names : List Name) :
    D.Steady h r (Evaluator.iteration body names) := by
  refine .currentScope (.reading (fun h' _ => copies_straight D h' r names) fun h' later _ => ?_)
  refine .addScope (fun p around => ?_) fun h'' scope _ _ deeper => ?_
  · cases around
    exact grounded.mono later
  have inside : D.Steady h'' r (Evaluator.block scope [body]) :=
    .inScope ((steady_blind D _ scope).stmts fun _ _ => .ask fun _ _ => Nat.le_of_lt deeper)
  have comp := steady_blind D h'' r
  have reads (name : String) : D.Steady h'' r (Run.reading (·.here? scope name)) :=
    .heap (f := fun h => pure (h.here? scope name)) (fun _ _ _ => by rw [Detour.here?_straight]) fun _ _ _ => .pure _
  have copied : D.Steady h'' r (Evaluator.copyNames scope r names) :=
    comp.copyNames reads (fun _ _ => .define fun _ _ => .inl deep) names
  exact comp.bind inside fun signal => comp.bind copied fun _ => comp.pure signal

theorem addClass_steady {cls : Class} (home : h.Grounded cls.scope)
    (other : cls.scope ≠ D.inner) : D.Steady h r (Evaluator.addClass cls) := by
  have comp := steady_blind D h r
  have placed : D.Steady h r (Run.allocate (·.addClass { cls with fields := .empty })) := by
    refine .allocate (fun _ _ => rfl) (fun _ => rfl) fun h' c later => ?_
    rw [Heap.cls_addClass]
    split
    · exact .inr ⟨home.mono later, other⟩
    · exact .inl rfl
  refine comp.addClass placed fun c fields => .update (fun _ _ => rfl) (fun _ => rfl) fun h d => ?_
  rw [Heap.cls_setClassFields]
  split <;> rfl

theorem declareClass_steady (deep : D.inner.index ≤ r.index) (grounded : h.Grounded r) (decl : ClassDecl) :
    D.Steady h r (Evaluator.declareClass decl) := by
  have comp := steady_blind D h r
  have define (h : Heap) (cell : Cell) : D.Steady h r (Run.update (·.define r decl.name.text cell)) :=
    .define fun _ _ => .inl deep
  refine comp.bind (comp.evalSuperclass decl) fun superclass => ?_
  refine comp.bind (comp.evalInterfaces _ _) fun interfaces => .currentScope ?_
  refine comp.bind (define h _) fun _ => .addScope (fun p around => ?_) fun h' scope _ home deeper => ?_
  · cases around
    exact grounded
  have comp := steady_blind D h' r
  have other : scope ≠ D.inner := fun same => Nat.lt_irrefl _ (same ▸ deeper)
  have fields : D.Steady h' r (Run.inScope scope (Evaluator.fieldCells scope decl.fields .empty)) :=
    .inScope ((steady_blind D h' scope).fieldCells (steady_types home) _ _)
  refine comp.declaredClassThen fields superclass interfaces fun cls same _ => ?_
  subst same
  exact comp.bind (addClass_steady home other) fun c => define h' _

theorem evalStmt_steady (deep : D.inner.index ≤ r.index) (grounded : h.Grounded r) (s : Stmt) (fuel : Nat) :
    D.Steady h r (Evaluator.evalStmt fuel s) := by
  have comp := steady_blind D h r
  cases declares : s.declares? with
  | some name =>
    refine comp.evalDeclaration (by rw [declares]; rfl) (fun next => ?_) (fun decl _ => ?_) fuel
    · exact .currentScope (next r (steady_types grounded) fun name cell => .define fun _ _ => .inl deep)
    · exact declareClass_steady deep grounded decl
  | none =>
    refine comp.evalStmt declares (fun s => .ask fun _ _ => deep) (fun names body => ?_)
      (fun body _ => iteration_steady deep grounded body _)
      (fun body handler runs handles => .catching runs handles) fuel
    refine .currentScope (opened_steady (fun p around => ?_) body)
    cases around
    exact grounded

/-! Activities. -/

def Activity.Clears (D : Detour) (m : Machine) : Activity → Prop
  | .expr e => (∀ ref ∈ e.follows?, ref.Stops m.heap m.scope D.inner) ∧
      ∀ ref site value, e = .assign ref site value → ref.name.text ≠ "this"
  | .call f _ _ _ => ∀ body closure, f.body = .user body closure → m.heap.Grounded closure
  | .stmt _ | .text _ => True

theorem callFunction_steady {f : Function}
    (closed : ∀ body closure, f.body = .user body closure → h.Grounded closure) (args generics : List Value)
    (line : Line) : D.Steady h r (Evaluator.callFunction f args generics line) := by
  have comp := steady_blind D h r
  refine comp.callFunction fun body closure found => ?_
  have grounded := closed body closure found
  have receiver : D.Steady h r (Run.reading (·.here? closure "this") >>= Pure.pure) :=
    .reading (fun h' _ => Detour.here?_straight D h' closure _) fun _ _ _ => .pure _
  refine comp.callUser (steady_types grounded) receiver (fun cells => ?_) args line
  · refine opened_steady (fun p around => ?_) body
    cases around
    exact grounded

theorem Activity.plan_steady (a : Activity) {m : Machine} (deep : ∀ s, a = .stmt s → D.inner.index ≤ m.scope.index)
    (grounded : m.heap.Grounded m.scope) (clears : a.Clears D m) (fuel : Nat) :
    D.Steady m.heap m.scope (a.plan fuel) := by
  cases a with
  | expr e => exact evalExpr_steady grounded clears.1 clears.2
  | stmt s => exact evalStmt_steady (deep s rfl) grounded s fuel
  | call f args generics line => exact callFunction_steady clears args generics line
  | text value => exact (steady_blind D m.heap m.scope).textOf value

end Treewalk
