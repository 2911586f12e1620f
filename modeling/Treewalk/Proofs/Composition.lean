import Treewalk.Proofs.MatchDeclare
import Treewalk.Proofs.Safety
import Treewalk.Eval.Stmt

/-!
Properties of computations that are kept when computations are put together. The evaluator consists of few
operations, and a property that these have passes on to expressions, calls and statements as a whole. What
writes to bindings, to instances or to classes is left open here, since few properties are kept by it. A
property may also be one that is not kept wherever a computation looks at scopes; most of the evaluator does
not.
-/

namespace Treewalk

/-- A property that is kept as long as scopes are not looked at. -/
structure Blind (K : {α : Type} → Run α → Prop) : Prop where
  pure {α : Type} (a : α) : K (Pure.pure a)
  bind {α β : Type} {c : Run α} {f : α → Run β} (first : K c) (next : ∀ a, K (f a)) : K (c >>= f)
  stop {α : Type} (reason : Stop) : K (Run.stop reason : Run α)
  withHeap {α : Type} {f : Heap → Run α} (blind : ∀ h scopes, f (h.rescoped scopes) = f h)
    (next : ∀ h, K (f h)) : K (Run.heap >>= f)
  currentScope : K Run.currentScope
  inGlobalScope : K Run.inGlobalScope
  warn (line : Line) (notice : Notice) : K (Run.warn line notice)
  printOut (text : String) : K (Run.printOut text)
  printErr (text : String) : K (Run.printErr text)
  readClock : K Run.readClock
  ask {a : Activity} (other : ∀ s, a ≠ .stmt s) : K (Run.ask a)
  addScope (s : Scope) : K (Run.allocate (·.addScope s))
  addFunction (f : Function) : K (Run.allocate (·.addFunction f))
  addArray (a : ArrayObject) : K (Run.allocate (·.addArray a))
  addProperty (p : Property) : K (Run.allocate (·.addProperty p))
  addInterface (i : Interface) : K (Run.allocate (·.addInterface i))
  addEnumeration (e : Enumeration) : K (Run.allocate (·.addEnumeration e))
  setElement (a : Ref .array) (i : Nat) (value : Value) : K (Run.update (·.setElement a i value))
  setCache (p : Ref .property) (value : Value) : K (Run.update (·.setCache p value))

/-- A property that is kept whatever is looked at. -/
structure Compositional (K : {α : Type} → Run α → Prop) : Prop extends Blind K where
  get : K (MonadState.get : Run Machine)
  quiet {α : Type} {c : Run α} (quiet : c.Quiet) : K c
  withHeap _ next := bind (bind get fun _ => pure _) next
  currentScope := bind get fun _ => pure _
  inGlobalScope := bind get fun _ => pure _
  warn line notice := quiet (Run.warn_quiet line notice)
  printOut text := quiet (Run.printOut_quiet text)
  printErr text := quiet (Run.printErr_quiet text)
  readClock := quiet Run.readClock_quiet

/-- A property that is kept when types are resolved in a scope. -/
def TypesIn (K : {α : Type} → Run α → Prop) (scope : Ref .scope) : Prop :=
  ∀ {α : Type} {f : Heap → Run α}, (∀ h scopes,
    (∀ t, (h.rescoped scopes).resolveType t scope = h.resolveType t scope) → f (h.rescoped scopes) = f h) →
      (∀ h, K (f h)) → K (Run.heap >>= f)

theorem Plan.andThen_assoc (plan : Plan α) (f : Outcome α → Plan β) (g : Outcome β → Plan γ) :
    (plan.andThen f).andThen g = plan.andThen fun outcome => (f outcome).andThen g := by
  induction plan with
  | done outcome => rfl
  | ask a m next ih => exact congrArg (Plan.ask a m) (funext ih)

theorem Run.bind_assoc (c : Run α) (f : α → Run β) (g : β → Run γ) :
    c >>= f >>= g = c >>= fun a => f a >>= g := by
  funext m
  change ((c m).andThen _).andThen _ = (c m).andThen _
  rw [Plan.andThen_assoc]
  congr
  funext outcome
  cases outcome <;> rfl

theorem Run.bind_of_done {c : Run α} {f : α → Run β} {a : α} {m n : Machine} (done : c m = .done (.ok a n)) :
    (c >>= f) m = f a n := by
  change (c m).andThen _ = _
  rw [done]
  rfl

/-- The cells of a call depend on scopes and on the closure only as far as types are resolved. -/
theorem Heap.argumentCells_of_types {h : Heap} {scopes : Array Scope} {closure closure' : Ref .scope}
    (same : ∀ t, (h.rescoped scopes).resolveType t closure' = h.resolveType t closure) (name : String)
    (params : List Param) (values : List Value) (cells : NameMap Cell) :
    (h.rescoped scopes).argumentCells name closure' params values cells =
      h.argumentCells name closure params values cells := by
  induction params generalizing values cells with
  | nil => simp [Heap.argumentCells]
  | cons param rest ih =>
    cases values with
    | nil => simp [Heap.argumentCells]
    | cons value values => simp [Heap.argumentCells, Heap.argumentCell, same, ih]

namespace Blind

variable {K : {α : Type} → Run α → Prop} {α β : Type}

theorem ite {c : Prop} [Decidable c] {yes no : Run α} (holds : K yes) (fails : K no) :
    K (if c then yes else no) := by
  split
  · exact holds
  · exact fails

variable (comp : Blind K)

include comp

theorem raise (line : Line) (fault : Fault) : K (Run.raise line fault : Run α) :=
  comp.stop _

theorem orRaise (line : Line) (result : Except Fault α) : K (Run.orRaise line result) := by
  cases result with
  | ok a => exact comp.pure a
  | error fault => exact comp.raise line fault

theorem demand (holds : Bool) (line : Line) (fault : Fault) : K (Run.demand holds line fault) :=
  ite (comp.pure ()) (comp.raise line fault)

theorem map {c : Run α} (f : α → β) (inner : K c) : K (f <$> c) :=
  comp.bind inner fun a => comp.pure (f a)

theorem mapM {f : α → Run β} (x : Option α) (each : ∀ a, K (f a)) : K (x.mapM f) := by
  cases x with
  | none => exact comp.pure none
  | some a => exact comp.map some (each a)

theorem reading {f : Heap → α} (blind : ∀ h scopes, f (h.rescoped scopes) = f h) : K (Run.reading f) :=
  comp.withHeap (f := fun h => Pure.pure (f h)) (fun h scopes => by rw [blind]) fun _ => comp.pure _

theorem eval (e : Expr) : K (Run.eval e) :=
  comp.ask fun _ => nofun

theorem call (f : Function) (args generics : List Value) (line : Line) : K (Run.call f args generics line) :=
  comp.ask fun _ => nofun

theorem spell (value : Value) : K (Run.spell value) :=
  comp.ask fun _ => nofun

theorem option (e : Option Expr) : K (Evaluator.option e) :=
  comp.mapM e comp.eval

theorem exprs (es : List Expr) : K (Evaluator.exprs es) := by
  induction es with
  | nil => exact comp.pure _
  | cons e rest ih => exact comp.bind (comp.eval e) fun _ => comp.bind ih fun _ => comp.pure _

/-! Cells. -/

theorem readProperty (p : Ref .property) (line : Line) : K (Evaluator.readProperty p line) := by
  refine comp.bind (comp.reading (by simp)) fun property => comp.bind (comp.reading (by simp)) fun getter => ?_
  refine comp.bind (comp.call getter _ _ line) fun value => comp.withHeap (by simp) fun h => ?_
  exact comp.bind (comp.orRaise line _) fun _ => comp.pure value

theorem writeProperty (p : Ref .property) (value : Value) (line : Line) :
    K (Evaluator.writeProperty p value line) := by
  refine comp.bind (comp.reading (by simp)) fun property => ?_
  split
  · exact comp.raise line _
  · refine comp.withHeap (by simp) fun h => comp.bind (comp.orRaise line _) fun _ => ?_
    refine comp.bind (comp.orRaise line _) fun _ => comp.bind (comp.reading (by simp)) fun f => ?_
    exact comp.bind (comp.call f _ _ line) fun result => comp.setCache p _

theorem readCell (cell : Cell) (line : Line) : K (Evaluator.readCell cell line) := by
  unfold Evaluator.readCell
  split
  · exact comp.pure _
  · exact comp.readProperty _ line

theorem typeIn {scope : Ref .scope} (types : TypesIn K scope) (t : TypeDesc) : K (Evaluator.typeIn t scope) :=
  types (fun _ _ same => by rw [same]) fun _ => comp.pure _

/-! Calls. -/

theorem bindTo (f : Function) (receiver : Value) : K (Evaluator.bind f receiver) := by
  unfold Evaluator.bind
  split
  · refine comp.bind (comp.reading (by simp)) fun outer => ?_
    exact comp.bind (comp.addScope _) fun scope => comp.pure _
  · exact comp.pure _
  · exact comp.pure _

theorem bindFunction (f : Ref .function) (receiver : Value) : K (Evaluator.bindFunction f receiver) :=
  comp.bind (comp.reading (by simp)) fun g => comp.bind (comp.bindTo g receiver) fun bound => comp.addFunction bound

theorem bindMethod (method : Ref .function) (receiver : Value) : K (Evaluator.bindMethod method receiver) :=
  comp.bind (comp.bindFunction method receiver) fun _ => comp.pure _

theorem callMethod (method : Ref .function) (receiver : Value) (args : List Value) (line : Line) :
    K (Evaluator.callMethod method receiver args line) :=
  comp.bind (comp.reading (by simp)) fun f => comp.bind (comp.bindTo f receiver) fun bound => comp.call bound args [] line

theorem callNative (native : Native) (args : List Value) : K (Evaluator.callNative native args) := by
  unfold Evaluator.callNative
  split
  · refine comp.bind comp.readClock fun shown => ?_
    cases shown with
    | ofNat elapsed => exact comp.pure _
    | negSucc _ => exact comp.raise _ _
  · exact comp.bind (comp.spell _) fun text => comp.bind (comp.printOut _) fun _ => comp.pure _
  · exact comp.bind (comp.spell _) fun text => comp.bind (comp.printOut _) fun _ => comp.pure _
  · exact comp.bind (comp.spell _) fun text => comp.bind (comp.printErr _) fun _ => comp.pure _
  · exact comp.withHeap (by simp) fun _ => comp.pure _
  all_goals exact comp.pure _

theorem resultOf {closure : Ref .scope} (types : TypesIn K closure) (f : Function) (line : Line) (signal : Signal) :
    K (Evaluator.resultOf f closure line signal) := by
  refine types (fun h scopes same => by simp [same]) fun h => ?_
  split
  all_goals exact comp.bind (comp.demand _ line _) fun _ => comp.pure _

theorem constructed {closure : Ref .scope} (receiver : K (Run.reading (·.here? closure "this"))) (line : Line) :
    K (Evaluator.constructed closure line) := by
  refine comp.bind receiver fun found => ?_
  split
  · exact comp.readCell _ line
  · exact comp.pure _

theorem callMissing (f : Function) (line : Line) : K (Evaluator.callMissing f line) := by
  refine comp.bind comp.inGlobalScope fun outermost => ite ?_ (comp.raise line _)
  exact comp.bind (comp.warn line _) fun _ => comp.pure _

theorem callUser {f : Function} {body : List Stmt} {closure : Ref .scope} (types : TypesIn K closure)
    (receiver : K (Run.reading (·.here? closure "this")))
    (runs : ∀ cells, K (Run.allocate (·.addScope { enclosing := some closure, names := cells }) >>= fun scope =>
      Evaluator.block scope body)) (args : List Value) (line : Line) :
    K (Evaluator.callUser f body closure args line) := by
  refine types (fun h scopes same => by rw [Heap.argumentCells_of_types same]) fun h => ?_
  refine comp.bind (comp.orRaise line _) fun cells => ?_
  -- The new scope belongs to the body, and not to what is done with its signal.
  rw [← Run.bind_assoc]
  exact comp.bind (runs cells) fun signal => ite (comp.constructed receiver line) (comp.resultOf types f line signal)

theorem callFunction {f : Function} {args generics : List Value} {line : Line}
    (calls : ∀ body closure, f.body = .user body closure → K (Evaluator.callUser f body closure args line)) :
    K (Evaluator.callFunction f args generics line) := by
  refine ite (comp.raise line _) ?_
  split
  · exact comp.callNative _ _
  · exact comp.callMissing f line
  · rename_i body closure found
    exact ite (calls body closure found) (comp.raise line _)

theorem texts (values : List Value) : K (Evaluator.texts values) := by
  induction values with
  | nil => exact comp.pure _
  | cons value rest ih => exact comp.bind (comp.spell value) fun _ => comp.bind ih fun _ => comp.pure _

theorem textOf (value : Value) : K (Evaluator.textOf value) := by
  unfold Evaluator.textOf
  split
  · refine comp.withHeap (by simp) fun h => ?_
    split
    · exact comp.bind (comp.callMethod _ _ _ _) fun _ => comp.withHeap (by simp) fun _ => comp.pure _
    · exact comp.pure _
  · exact comp.bind (comp.reading (by simp)) fun _ => comp.bind (comp.texts _) fun _ => comp.pure _
  · exact comp.withHeap (by simp) fun _ => comp.pure _

/-! Operators. -/

theorem numbers (left right : Value) (line : Line) : K (Evaluator.numbers left right line) := by
  unfold Evaluator.numbers
  split
  · exact comp.pure _
  · exact comp.raise line _

theorem sum (left right : Value) : K (Evaluator.sum left right) := by
  unfold Evaluator.sum
  split
  · exact comp.pure _
  · exact comp.pure _
  · exact comp.bind (comp.spell left) fun _ => comp.bind (comp.spell right) fun _ => comp.pure _

theorem plainOperation (op : Operator) (line : Line) (left right : Value) :
    K (Evaluator.plainOperation op line left right) := by
  cases op with
  | add => exact comp.sum left right
  | equal | notEqual => exact comp.pure _
  | _ => exact comp.bind (comp.numbers left right line) fun _ => comp.pure _

theorem operation (op : Operator) (symbol : String) (line : Line) (left right : Value) :
    K (Evaluator.operation op symbol line left right) := by
  unfold Evaluator.operation
  split
  · exact comp.plainOperation op line left right
  · refine comp.withHeap (fun h scopes => by simp; rfl) fun h => ?_
    dsimp only
    split
    · exact ite (comp.callMethod _ _ _ line) (comp.raise line _)
    · exact ite (comp.plainOperation op line left right) (comp.raise line _)

theorem binaryOperation (op : BinaryOp) (line : Line) (left right : Value) :
    K (Evaluator.binaryOperation op line left right) := by
  cases op with
  | operator op => exact comp.operation op _ line left right
  | orElse => exact comp.pure _
  | nilEqual => exact ite (comp.pure _) (comp.operation _ _ line left right)

theorem unaryOperation (op : UnaryOp) (line : Line) (operand : Value) :
    K (Evaluator.unaryOperation op line operand) := by
  unfold Evaluator.unaryOperation
  split
  · exact comp.pure _
  · exact comp.pure _
  · exact comp.raise line _

theorem step (site : AssignSite) (current : Value) (delta : Float) : K (Evaluator.step site current delta) := by
  unfold Evaluator.step
  split
  · exact comp.pure _
  · exact comp.raise _ _

theorem newValue (site : AssignSite) {current : Run Value} (reads : K current) (value : Option Value) :
    K (Evaluator.newValue site current value) := by
  refine ite (comp.pure _) (comp.bind reads fun held => ?_)
  unfold Evaluator.assigned
  dsimp only
  split
  · exact comp.pure _
  · exact comp.operation _ _ _ _ _
  · exact comp.operation _ _ _ _ _
  · exact comp.operation _ _ _ _ _
  · exact comp.operation _ _ _ _ _
  · exact comp.bind (comp.numbers _ _ _) fun _ => comp.pure _
  · exact comp.step site held _
  · exact comp.step site held _

/-! Members. -/

theorem throughClass (c : Ref .cls) (name : Name) (static qualified : Bool) :
    K (Evaluator.throughClass c name static qualified) := by
  refine comp.bind (comp.reading (by simp)) fun cls => ite (comp.pure ()) (ite (comp.raise _ _) ?_)
  exact comp.warn _ _

theorem getShared (o : Ref .object) (name : Name) : K (Evaluator.getShared o name) := by
  refine comp.withHeap (fun h scopes => by simp; rfl) fun h => ?_
  dsimp only
  split
  · exact comp.bind (comp.warn _ _) fun _ => comp.readCell _ _
  · split
    · refine ite ?_ (comp.bindMethod _ _)
      exact comp.bind (comp.warn _ _) fun _ => comp.bindMethod _ _
    · exact comp.raise _ _

theorem getOfObject (o : Ref .object) (name : Name) : K (Evaluator.getOfObject o name) := by
  refine comp.bind (comp.reading (by simp)) fun object => ?_
  split
  · exact comp.readCell _ _
  · exact comp.getShared o name

theorem getOfClass (c : Ref .cls) (name : Name) (qualified : Bool) :
    K (Evaluator.getOfClass c name qualified) := by
  refine comp.withHeap (by simp) fun h => ?_
  split
  · exact comp.bind (comp.throughClass c name _ qualified) fun _ => comp.readCell _ _
  · split
    · exact comp.bind (comp.throughClass c name _ qualified) fun _ => comp.bindMethod _ _
    · exact comp.raise _ _

theorem getMember (target : Value) (name : Name) (qualified : Bool) :
    K (Evaluator.getMember target name qualified) := by
  unfold Evaluator.getMember
  split
  · exact ite (comp.raise _ _) (comp.getOfObject _ name)
  · exact comp.getOfClass _ name qualified
  · refine comp.bind (comp.reading (by simp)) fun enumeration => ?_
    split
    · exact comp.pure _
    · exact comp.raise _ _
  · exact comp.raise _ _

theorem ownedField (c : Ref .cls) (name : Name) : K (Evaluator.ownedField c name) := by
  refine comp.withHeap (by simp) fun h => ?_
  split
  · split
    · exact comp.pure _
    · exact comp.raise _ _
  · exact comp.raise _ _

theorem setOfClass (store : ∀ c name cell, K (Run.update (·.setClassField c name cell))) (owner : Ref .cls)
    (cell : Cell) (name : Name) (value : Value) : K (Evaluator.setOfClass owner cell name value) := by
  refine comp.withHeap (by simp) fun h => comp.bind (comp.orRaise _ _) fun write => ?_
  cases write with
  | stored written => exact store owner _ written
  | computed p => exact comp.writeProperty p value _

theorem setMember (store : ∀ o name cell, K (Run.update (·.setField o name cell)))
    (storeShared : ∀ c name cell, K (Run.update (·.setClassField c name cell))) (target : Value) (name : Name)
    (value : Value) (qualified : Bool) : K (Evaluator.setMember target name value qualified) := by
  unfold Evaluator.setMember
  split
  · refine ite (comp.raise _ _) (comp.bind (comp.reading (by simp)) fun object => ?_)
    split
    · refine comp.withHeap (by simp) fun h => comp.bind (comp.orRaise _ _) fun write => ?_
      cases write with
      | stored written => exact store _ _ written
      | computed p => exact comp.writeProperty p value _
    · refine comp.bind (comp.ownedField _ name) fun found => ?_
      exact comp.bind (comp.warn _ _) fun _ => comp.setOfClass storeShared _ _ name value
  · refine comp.bind (comp.ownedField _ name) fun found => ite (comp.setOfClass storeShared _ _ name value) ?_
    exact comp.bind (comp.reading (by simp)) fun _ => comp.raise _ _
  · exact comp.bind (comp.reading (by simp)) fun _ => comp.raise _ _
  · exact comp.raise _ _

theorem invoke (target : Value) (method : String) (args : List Value) (line : Line) :
    K (Evaluator.invoke target method args line) := by
  unfold Evaluator.invoke
  split
  · refine comp.withHeap (by simp) fun h => ?_
    dsimp only
    split
    · exact comp.callMethod _ _ args line
    · exact comp.raise line _
  · exact comp.raise line _

theorem indexNumber (position : Value) (line : Line) : K (Evaluator.indexNumber position line) := by
  unfold Evaluator.indexNumber
  split
  · exact comp.pure _
  · exact comp.withHeap (by simp) fun _ => comp.raise line _

theorem getIndex (target position : Value) (line : Line) : K (Evaluator.getIndex target position line) := by
  unfold Evaluator.getIndex
  split
  · exact comp.bind (comp.indexNumber position line) fun _ => comp.withHeap (by simp) fun _ => comp.orRaise line _
  · exact comp.invoke target _ _ line

theorem setIndex (target position value : Value) (line : Line) :
    K (Evaluator.setIndex target position value line) := by
  unfold Evaluator.setIndex
  split
  · refine comp.bind (comp.indexNumber position line) fun _ => comp.withHeap (by simp) fun h => ?_
    split
    · exact comp.bind (comp.orRaise line _) fun _ => comp.stop _
    · exact comp.bind (comp.orRaise line _) fun slot => comp.setElement _ slot value
  · exact comp.bind (comp.invoke target _ _ line) fun _ => comp.pure _

/-! Casts. -/

theorem typeArgument (value : Value) (line : Line) : K (Evaluator.typeArgument value line) := by
  refine comp.withHeap (by simp) fun h => ?_
  split
  · exact comp.pure _
  · exact comp.pure _
  · exact comp.pure _
  · exact comp.pure _
  · exact comp.raise line _

theorem castObject (o : Ref .object) (target : TypeDesc) (line : Line) :
    K (Evaluator.castObject o target line) := by
  refine comp.withHeap (by simp [Evaluator.castMethodFor_rescoped]) fun h => ?_
  refine comp.bind (comp.orRaise line _) fun method => ?_
  refine comp.bind (comp.callMethod method _ _ line) fun result => comp.withHeap (by simp) fun h' => ?_
  exact comp.bind (comp.demand _ line _) fun _ => comp.pure _

theorem castPlain (value : Value) (target : TypeDesc) (line : Line) :
    K (Evaluator.castPlain value target line) := by
  unfold Evaluator.castPlain
  split
  · split
    · exact comp.pure _
    · exact comp.raise line _
  · exact comp.pure _
  · exact comp.bind (comp.spell _) fun _ => comp.pure _
  · exact comp.pure _
  · exact comp.pure _
  · exact comp.pure _
  · exact comp.pure _
  · exact comp.withHeap (by simp) fun _ => comp.raise line _

theorem castValue (value : Value) (target : TypeDesc) (line : Line) :
    K (Evaluator.castValue value target line) := by
  refine comp.withHeap (by simp) fun h => ite (comp.pure _) ?_
  split
  · exact ite (comp.castObject _ target line) (comp.castPlain _ target line)
  · exact ite (comp.raise line _) (comp.castPlain _ target line)

/-! Instances. -/

theorem bindProperty (property : Property) (receiver : Value) : K (Evaluator.bindProperty property receiver) := by
  refine comp.bind (comp.bindFunction _ receiver) fun getter => ?_
  exact comp.bind (comp.mapM _ fun f => comp.bindFunction f receiver) fun setter => comp.pure _

theorem propertyCell (property : Property) : K (Evaluator.propertyCell property) :=
  comp.bind (comp.addProperty property) fun _ => comp.pure _

theorem ownCell {scope : Ref .scope} (types : TypesIn K scope) (cell : Cell) (receiver : Value) :
    K (Evaluator.ownCell cell scope receiver) := by
  refine comp.bind (comp.mapM _ fun t => comp.typeIn types t) fun declared => ?_
  split
  · exact comp.pure _
  · refine comp.bind (comp.reading (by simp)) fun property => ?_
    exact comp.bind (comp.bindProperty property receiver) fun bound => comp.propertyCell _

theorem ownCells (receiver : Value) {cells : List (String × Cell × Ref .scope)}
    (types : ∀ x ∈ cells, TypesIn K x.2.2) : K (Evaluator.ownCells receiver cells) := by
  induction cells with
  | nil => exact comp.pure _
  | cons first rest ih =>
    obtain ⟨name, cell, scope⟩ := first
    refine comp.bind (comp.ownCell (types _ List.mem_cons_self) cell receiver) fun _ => ?_
    exact comp.bind (ih fun x member => types x (List.mem_cons_of_mem _ member)) fun _ => comp.pure _

theorem typeArguments (line : Line) (values : List Value) : K (Evaluator.typeArguments line values) := by
  induction values with
  | nil => exact comp.pure _
  | cons value rest ih => exact comp.bind (comp.typeArgument value line) fun _ => comp.bind ih fun _ => comp.pure _

theorem runConstructor (o : Ref .object) (c : Ref .cls) (args : List Value) (line : Line) :
    K (Evaluator.runConstructor o c args line) := by
  refine comp.bind (comp.reading (by simp)) fun found => ?_
  split
  · exact comp.callMethod _ _ args line
  · exact comp.bind (comp.demand _ line _) fun _ => comp.pure _

/-! Expressions. -/

theorem assign {ref : Reference} (reads : K (Evaluator.readVariable ref))
    (writes : ∀ value, K (Evaluator.writeVariable ref value)) (site : AssignSite) (value : Option Expr) :
    K (Evaluator.assign ref site value) := by
  refine comp.bind (comp.bind (comp.option value) fun operand => ?_) fun result => ?_
  · exact comp.newValue site reads operand
  · exact comp.bind (writes result) fun _ => comp.pure _

theorem memberValue (object : Expr) (name : Name) (site : AssignSite) (value : Option Expr)
    (qualified : Bool) : K (Evaluator.memberValue object name site value qualified) := by
  refine comp.bind (comp.eval object) fun target => comp.bind (comp.option value) fun operand => ?_
  exact comp.bind (comp.newValue site (comp.getMember target name qualified) operand) fun _ => comp.pure _

theorem setIndexed (object : Expr) (line : Line) (position : Expr) (site : AssignSite) (value : Option Expr) :
    K (Evaluator.setIndexed object line position site value) := by
  refine comp.bind (comp.bind (comp.eval object) fun target => comp.bind (comp.eval position) fun index => ?_)
    fun x => ?_
  · refine comp.bind (comp.option value) fun operand => ?_
    exact comp.bind (comp.newValue site (comp.getIndex target index line) operand) fun _ => comp.pure _
  · exact comp.bind (comp.setIndex x.1 x.2.1 x.2.2 line) fun _ => comp.pure _

theorem evalCall (makes : ∀ c args generics line, K (Evaluator.construct c args generics line)) (callee : Expr)
    (line : Line) (args generics : List Expr) (nullSafe : Bool) :
    K (Evaluator.evalCall callee line args generics nullSafe) := by
  refine comp.bind (comp.eval callee) fun target => ite (comp.pure _) ?_
  refine comp.bind (comp.exprs args) fun args => comp.bind (comp.exprs generics) fun generics => ?_
  unfold Evaluator.apply
  split
  · exact comp.bind (comp.reading (by simp)) fun f => ite (comp.raise line _) (comp.call f args generics line)
  · exact makes _ args generics line
  · exact comp.raise line _

theorem arraySize (size : Value) (line : Line) : K (Evaluator.arraySize size line) := by
  unfold Evaluator.arraySize
  split
  · split
    · exact ite (comp.raise line _) (ite (comp.pure _) (comp.raise line _))
    · exact comp.raise line _
  · exact comp.withHeap (by simp) fun _ => comp.raise line _

theorem sizedArray (types : ∀ t, K (Evaluator.typeHere t)) (line : Line) (elementType : TypeDesc) (size : Expr) :
    K (Evaluator.sizedArray line elementType size) := by
  refine comp.bind (types elementType) fun t => comp.bind (comp.eval size) fun value => ?_
  exact comp.bind (comp.arraySize value line) fun n => comp.bind (comp.addArray _) fun _ => comp.pure _

theorem listedArray (types : ∀ t, K (Evaluator.typeHere t)) (line : Line) (declared : Option TypeDesc)
    (elements : List Expr) : K (Evaluator.listedArray line declared elements) := by
  refine comp.bind (comp.mapM declared types) fun t => comp.bind (comp.exprs elements) fun values => ?_
  refine comp.withHeap (by simp [Evaluator.elementTypeOf_rescoped, Evaluator.checkElements_rescoped]) fun h => ?_
  refine comp.bind (comp.orRaise line _) fun _ => ?_
  exact comp.bind (comp.addArray _) fun _ => comp.pure _

theorem lengthOf (line : Line) (value : Value) : K (Evaluator.lengthOf line value) := by
  unfold Evaluator.lengthOf
  split
  · exact comp.bind (comp.reading (by simp)) fun _ => comp.pure _
  · exact comp.pure _
  · exact comp.withHeap (by simp) fun _ => comp.raise line _

theorem setProperty (sets : ∀ target name value qualified, K (Evaluator.setMember target name value qualified))
    (object : Expr) (name : Name) (site : AssignSite) (value : Option Expr) (qualified : Bool) :
    K (Evaluator.setProperty object name site value qualified) := by
  refine comp.bind (comp.memberValue object name site value qualified) fun x => ?_
  exact comp.bind (sets x.1 name x.2 qualified) fun _ => comp.pure _

/-- Expressions, if the property is kept where variables are read, types are resolved, variables and members are
assigned to and instances are made. -/
theorem evalExpr {e : Expr}
    (reads : ∀ ref, e = .use ref ∨ e = .this ref ∨ e = .value ref → K (Evaluator.readVariable ref))
    (inherits : ∀ ref method, e = .super ref method → K (Evaluator.superMethod ref method))
    (types : ∀ t, K (Evaluator.typeHere t))
    (assigns : ∀ ref site value, e = .assign ref site value → K (Evaluator.assign ref site value))
    (sets : ∀ object name site value qualified,
      e = .set object name site value ∨ e = .staticSet object name site value →
        K (Evaluator.setProperty object name site value qualified))
    (makes : ∀ c args generics line, K (Evaluator.construct c args generics line)) : K (Evaluator.evalExpr e) := by
  cases e with
  | literal value => exact comp.pure _
  | group inner => exact comp.eval inner
  | unary op line operand => exact comp.bind (comp.eval operand) fun _ => comp.unaryOperation op line _
  | binary op line left right =>
    exact comp.bind (comp.eval left) fun _ => comp.bind (comp.eval right) fun _ => comp.binaryOperation op line _ _
  | logical op line left right => exact comp.bind (comp.eval left) fun _ => ite (comp.pure _) (comp.eval right)
  | ternary line condition yes no =>
    exact comp.bind (comp.eval condition) fun _ => ite (comp.eval yes) (comp.eval no)
  | use ref => exact reads ref (.inl rfl)
  | this ref => exact reads ref (.inr (.inl rfl))
  | value ref => exact reads ref (.inr (.inr rfl))
  | super ref method => exact inherits ref method rfl
  | assign ref site value => exact assigns ref site value rfl
  | call callee line args generics nullSafe => exact comp.evalCall makes callee line args generics nullSafe
  | get object name nullSafe =>
    exact comp.bind (comp.eval object) fun target => ite (comp.pure _) (comp.getMember target name false)
  | staticGet object name => exact comp.bind (comp.eval object) fun target => comp.getMember target name true
  | set object name site value => exact sets object name site value false (.inl rfl)
  | staticSet object name site value => exact sets object name site value true (.inr rfl)
  | index object line position =>
    exact comp.bind (comp.eval object) fun _ => comp.bind (comp.eval position) fun _ => comp.getIndex _ _ line
  | indexSet object line position site value => exact comp.setIndexed object line position site value
  | cast operand line target =>
    refine comp.bind (comp.eval operand) fun value => comp.bind (comp.eval target) fun t => ?_
    exact comp.bind (comp.typeArgument t line) fun desc => comp.castValue value desc line
  | array line elementType elements => exact comp.listedArray types line elementType elements
  | sizedArray line elementType size => exact comp.sizedArray types line elementType size
  | lambda decl =>
    exact comp.bind comp.currentScope fun _ => comp.bind (comp.addFunction _) fun _ => comp.pure _
  | type line desc => exact comp.bind (types desc) fun _ => comp.pure _
  | length line operand => exact comp.bind (comp.eval operand) fun value => comp.lengthOf line value
  | typeOf line operand =>
    exact comp.bind (comp.eval operand) fun _ => comp.withHeap (by simp) fun _ => comp.pure _

/-! Declarations. -/

theorem initialValue {scope : Ref .scope} (types : TypesIn K scope) (decl : VarDecl) :
    K (Evaluator.initialValue decl scope) := by
  refine comp.bind (comp.option decl.initializer) fun value => ?_
  refine types (fun h scopes same => by simp [same]) fun h => ?_
  dsimp only
  split
  · exact comp.pure _
  · exact comp.bind (comp.orRaise _ _) fun _ => comp.bind (comp.orRaise _ _) fun _ => comp.pure _

theorem declaredProperty (decl : PropertyDecl) (closure : Ref .scope) (declared : TypeDesc) :
    K (Evaluator.declaredProperty decl closure declared) := by
  refine comp.bind (comp.addFunction _) fun getter => ?_
  exact comp.bind (comp.mapM decl.setter fun f => comp.addFunction _) fun setter => comp.pure _

theorem resolvedPropertyCell {closure : Ref .scope} (types : TypesIn K closure) (decl : PropertyDecl) :
    K (Evaluator.resolvedPropertyCell decl closure) := by
  refine comp.bind (comp.typeIn types decl.declared) fun declared => ?_
  exact comp.bind (comp.declaredProperty decl closure declared) fun property => comp.propertyCell property

theorem declaredMethods (className : String) (scope : Ref .scope) (interfaces : List (Ref .interface))
    (decls : List FunctionDecl) (methods : NameMap (Ref .function)) :
    K (Evaluator.declaredMethods className scope interfaces decls methods) := by
  induction decls generalizing methods with
  | nil => exact comp.pure _
  | cons decl rest ih =>
    refine comp.bind (comp.bind (comp.orRaise _ _) fun _ => ite (comp.addFunction _) ?_) fun _ => ih _
    refine comp.withHeap (fun _ _ => rfl) fun h => ?_
    split
    · exact comp.pure _
    · exact comp.raise _ _

theorem fieldCells {scope : Ref .scope} (types : TypesIn K scope) (fields : List Field) (cells : NameMap Cell) :
    K (Evaluator.fieldCells scope fields cells) := by
  induction fields generalizing cells with
  | nil => exact comp.pure _
  | cons field rest ih =>
    refine comp.bind ?_ fun _ => ih _
    cases field with
    | var decl => exact comp.bind (comp.initialValue types decl) fun _ => comp.pure _
    | property decl =>
      refine comp.bind (ite (comp.resolvedPropertyCell types decl) ?_) fun _ => comp.pure _
      exact comp.bind (comp.declaredProperty decl scope _) fun property => comp.propertyCell property

theorem bindStatics (receiver : Value) (cells : List (String × Cell)) :
    K (Evaluator.bindStatics receiver cells) := by
  induction cells with
  | nil => exact comp.pure _
  | cons first rest ih =>
    obtain ⟨name, cell⟩ := first
    refine comp.bind ?_ fun _ => comp.bind ih fun _ => comp.pure _
    unfold Evaluator.bindStatic
    split
    · exact comp.pure _
    · refine ite (comp.bind (comp.reading (by simp)) fun property => ?_) (comp.pure _)
      exact comp.bind (comp.bindProperty property receiver) fun bound => comp.propertyCell bound

theorem evalSuperclass (decl : ClassDecl) : K (Evaluator.evalSuperclass decl) := by
  unfold Evaluator.evalSuperclass
  split
  · exact comp.pure _
  · refine comp.bind (comp.eval _) fun value => ?_
    split
    · exact comp.bind (comp.demand _ _ _) fun _ => comp.pure _
    · exact comp.raise _ _

theorem evalInterfaces (name : Name) (refs : List Reference) : K (Evaluator.evalInterfaces name refs) := by
  induction refs with
  | nil => exact comp.pure _
  | cons ref rest ih =>
    refine comp.bind (comp.eval _) fun value => ?_
    split
    · exact comp.bind ih fun _ => comp.pure _
    · exact comp.withHeap (by simp) fun _ => comp.raise _ _

/-- A declaration of a class up to what is done with the class. -/
theorem declaredClassThen {decl : ClassDecl} {scope : Ref .scope}
    (fields : K (Run.inScope scope (Evaluator.fieldCells scope decl.fields .empty))) (superclass : Ref .cls)
    (interfaces : List (Ref .interface)) {f : Class → Run α}
    (next : ∀ cls : Class, cls.scope = scope → cls.superclass = some superclass → K (f cls)) :
    K (Evaluator.declaredClass decl superclass interfaces scope >>= f) := by
  unfold Evaluator.declaredClass
  simp only [Run.bind_assoc]
  refine comp.bind (comp.declaredMethods _ scope interfaces _ _) fun declared => ?_
  refine comp.withHeap (by simp [Evaluator.addDefaults_rescoped]) fun h => comp.bind fields fun cells => ?_
  exact comp.withHeap (by simp) fun h' => comp.bind (comp.orRaise _ _) fun _ => next _ rfl rfl

theorem addClass {cls : Class} (place : K (Run.allocate (·.addClass { cls with fields := .empty })))
    (fill : ∀ c fields, K (Run.update (·.setClassFields c fields))) : K (Evaluator.addClass cls) := by
  refine comp.bind place fun c => comp.bind (comp.bindStatics _ _) fun fields => ?_
  exact comp.bind (fill c _) fun _ => comp.pure c

theorem interfaceMethods (closure : Ref .scope) (decls : List FunctionDecl) (methods : NameMap (Ref .function)) :
    K (Evaluator.interfaceMethods closure decls methods) := by
  induction decls generalizing methods with
  | nil => exact comp.pure _
  | cons decl rest ih => exact comp.bind (comp.addFunction _) fun _ => ih _

theorem requiredCells {closure : Ref .scope} (types : TypesIn K closure) (fields : List Field) (cells : NameMap Cell) :
    K (Evaluator.requiredCells closure fields cells) := by
  induction fields generalizing cells with
  | nil => exact comp.pure _
  | cons field rest ih =>
    refine comp.bind ?_ fun _ => ih _
    cases field with
    | var decl => exact comp.bind (comp.option decl.initializer) fun _ => comp.pure _
    | property decl => exact comp.bind (comp.resolvedPropertyCell types decl) fun _ => comp.pure _

/-- Declarations, if those of classes have the property, and if types can be resolved and names be bound in the
current scope. -/
theorem evalDeclaration {s : Stmt} (declares : s.declares?.isSome = true)
    (here : ∀ {f : Ref .scope → Run Unit}, (∀ scope, TypesIn K scope →
      (∀ name cell, K (Run.update (·.define scope name cell))) → K (f scope)) → K (Run.currentScope >>= f))
    (classes : ∀ decl, s = .classDecl decl → K (Evaluator.declareClass decl)) (fuel : Nat) :
    K (Evaluator.evalStmt fuel s) := by
  have normal {c : Run Unit} (declared : K c) : K (c >>= fun _ => Pure.pure Signal.normal) :=
    comp.bind declared fun _ => comp.pure _
  have checked (name : Name) (cell : Cell) : K (Evaluator.defineChecked name cell) :=
    comp.bind comp.inGlobalScope fun _ => comp.bind (comp.demand _ _ _) fun _ => here fun _ _ define => define _ cell
  cases s with
  | var decl =>
    exact normal (here fun _ types _ => comp.bind (comp.initialValue types decl) fun _ => checked _ _)
  | property decl =>
    exact normal (here fun _ types _ => comp.bind (comp.resolvedPropertyCell types decl) fun _ => checked _ _)
  | function decl => exact normal (here fun _ _ _ => comp.bind (comp.addFunction _) fun _ => checked _ _)
  | classDecl decl => exact normal (classes decl rfl)
  | interfaceDecl decl =>
    refine normal (here fun scope types define => comp.bind (comp.interfaceMethods scope _ _) fun methods => ?_)
    exact comp.bind (comp.requiredCells types _ _) fun _ => comp.bind (comp.addInterface _) fun _ => define _ _
  | enumDecl name elements =>
    exact normal (comp.bind (comp.addEnumeration _) fun _ => here fun _ _ define => define _ _)
  | _ => cases declares

/-! Statements. -/

theorem stmts {body : List Stmt} (exec : ∀ s ∈ body, K (Run.exec s)) : K (Evaluator.stmts body) := by
  induction body with
  | nil => exact comp.pure _
  | cons s rest ih =>
    refine comp.bind (exec s List.mem_cons_self) fun signal => ?_
    split
    · exact ih fun s member => exec s (List.mem_cons_of_mem _ member)
    · exact comp.pure _

theorem whileLoop {condition : Expr} {body : Run Signal} {increment : Option Expr} (inner : K body) (fuel : Nat) :
    K (Evaluator.whileLoop condition body increment fuel) := by
  induction fuel with
  | zero => exact comp.stop _
  | succ fuel ih =>
    refine comp.bind (comp.eval condition) fun _ => ite (comp.bind inner fun signal => ?_) (comp.pure _)
    split
    · exact comp.pure _
    · exact comp.bind (comp.option increment) fun _ => ih
    · exact comp.bind (comp.option increment) fun _ => ih
    · exact comp.pure _

theorem untilLoop {condition : Expr} {body : Stmt} (inner : K (Run.exec body)) (fuel : Nat) :
    K (Evaluator.untilLoop condition body fuel) := by
  induction fuel with
  | zero => exact comp.stop _
  | succ fuel ih =>
    refine comp.bind (comp.eval condition) fun _ => ite (comp.pure _) (comp.bind inner fun signal => ?_)
    split
    · exact comp.pure _
    · exact ih
    · exact ih
    · exact comp.pure _

theorem copyNames {source target : Ref .scope} (reads : ∀ name, K (Run.reading (·.here? source name)))
    (define : ∀ name cell, K (Run.update (·.define target name cell))) (names : List Name) :
    K (Evaluator.copyNames source target names) := by
  induction names with
  | nil => exact comp.pure _
  | cons name rest ih =>
    refine comp.bind (reads _) fun found => ?_
    cases found with
    | none => exact comp.bind (comp.pure ()) fun _ => ih
    | some cell => exact comp.bind (define _ cell) fun _ => ih

theorem selectCase (line : Line) (value : Value) (default : Option Stmt) (cases : List (Expr × Stmt)) :
    K (Evaluator.selectCase line value default cases) := by
  induction cases with
  | nil => exact comp.pure _
  | cons first rest ih =>
    refine comp.bind (comp.eval _) fun other => comp.bind (comp.operation _ _ line value other) fun _ => ?_
    exact ite (comp.pure _) ih

theorem runTest (exec : ∀ s, K (Run.exec s)) (line : Line) (name : Expr) (body : Stmt) :
    K (Evaluator.runTest line name body) := by
  refine comp.bind (comp.eval name) fun title => ?_
  split
  · refine comp.bind (exec body) fun signal => comp.bind ?_ fun _ => ?_
    · unfold Evaluator.passes
      split
      · exact comp.pure _
      · exact comp.raise line _
      · exact comp.pure _
    · exact comp.bind (comp.printOut _) fun _ => comp.pure _
  · exact comp.raise line _

/-- Statements that declare nothing, if those inside them have the property, and so have bodies that are run
in a new scope. -/
theorem evalStmt {s : Stmt} (other : s.declares? = none) (exec : ∀ s, K (Run.exec s))
    (opens : ∀ names body, K (Run.currentScope >>= fun outer =>
      Run.allocate (·.addScope { enclosing := some outer, names := names }) >>= fun scope =>
        Evaluator.block scope body))
    (iterates : ∀ body, s.loopNames ≠ [] → K (Evaluator.iteration body s.loopNames))
    (catches : ∀ (body : Run Signal) handler, K body → (∀ e, K (handler e)) → K (Run.catching body handler))
    (fuel : Nat) : K (Evaluator.evalStmt fuel s) := by
  cases s with
  | expr e => exact comp.bind (comp.eval e) fun _ => comp.pure _
  | var _ | property _ | function _ | classDecl _ | interfaceDecl _ | enumDecl _ _ => cases other
  | block body => exact opens _ body
  | ifElse condition yes no =>
    refine comp.bind (comp.eval condition) fun _ => ite (exec yes) ?_
    cases no with
    | none => exact comp.pure _
    | some s => exact exec s
  | whileLoop condition body increment names =>
    by_cases none : names.isEmpty = true
    · simp only [Evaluator.evalStmt, Evaluator.runWhile, if_pos none]
      exact comp.whileLoop (exec body) fuel
    · simp only [Evaluator.evalStmt, Evaluator.runWhile, if_neg none]
      exact comp.whileLoop (iterates body fun empty => none (List.isEmpty_iff.mpr empty)) fuel
  | whenLoop condition body finish =>
    refine comp.bind (comp.untilLoop (exec body) fuel) fun signal => ?_
    split
    · cases finish with
      | none => exact comp.pure _
      | some s => exact exec s
    · exact comp.pure _
  | switch line value cases default =>
    refine comp.bind (comp.eval value) fun v => comp.bind (comp.selectCase line v default cases) fun chosen => ?_
    cases chosen with
    | none => exact comp.pure _
    | some body =>
      refine comp.bind (exec body) fun signal => ?_
      split
      · exact comp.pure _
      · exact comp.pure _
  | tryCatch body name handler => exact catches _ _ (exec body) fun e => opens _ handler
  | test line name body => exact comp.runTest exec line name body
  | expect line value => exact comp.bind (comp.eval value) fun _ => comp.pure _
  | returning line value => exact comp.bind (comp.option value) fun _ => comp.pure _
  | breaking _ | continuing _ | moduleName _ => exact comp.pure _

end Blind

/-! Where everything may be looked at. -/

namespace Compositional

variable {K : {α : Type} → Run α → Prop} {α : Type} (comp : Compositional K)

include comp

theorem heap : K Run.heap :=
  comp.bind comp.get fun _ => comp.pure _

theorem reading (f : Heap → α) : K (Run.reading f) :=
  comp.bind comp.get fun _ => comp.pure _

theorem typesIn (scope : Ref .scope) : TypesIn K scope :=
  fun _ next => comp.bind comp.heap next

theorem readVariable (ref : Reference) : K (Evaluator.readVariable ref) :=
  comp.bind comp.get fun _ => comp.bind (comp.orRaise _ _) fun cell => comp.readCell cell _

theorem writeVariable (define : ∀ r name cell, K (Run.update (·.define r name cell))) (ref : Reference)
    (value : Value) : K (Evaluator.writeVariable ref value) := by
  refine comp.bind comp.get fun m => comp.bind (comp.orRaise _ _) fun assigned => ?_
  cases assigned with
  | stored target cell => exact define target _ cell
  | computed p => exact comp.writeProperty p value _

theorem callFunction {f : Function} (runs : ∀ body closure, f.body = .user body closure → ∀ cells,
      K (Run.allocate (·.addScope { enclosing := some closure, names := cells }) >>= fun scope =>
        Evaluator.block scope body)) (args generics : List Value) (line : Line) :
    K (Evaluator.callFunction f args generics line) :=
  comp.toBlind.callFunction fun body closure found =>
    comp.callUser (comp.typesIn closure) (comp.reading _) (runs body closure found) args line

theorem templateScope (c : Class) (generics : List Value) (line : Line) :
    K (Evaluator.templateScope c generics line) := by
  refine Blind.ite (comp.pure _) (comp.bind (comp.typeArguments line generics) fun types => ?_)
  exact comp.bind (comp.reading _) fun base => comp.map some (comp.addScope _)

theorem construct (add : ∀ o, K (Run.allocate (·.addObject o)))
    (fill : ∀ o cells, K (Run.update (·.setFields o cells))) (c : Ref .cls) (args generics : List Value)
    (line : Line) : K (Evaluator.construct c args generics line) := by
  refine comp.bind (comp.reading _) fun cls => comp.bind (comp.demand _ line _) fun _ => ?_
  refine comp.bind (comp.templateScope cls generics line) fun scope => comp.bind (add _) fun o => ?_
  refine comp.bind (comp.bind comp.heap fun h => ?_) fun _ => comp.runConstructor o c args line
  exact comp.bind (comp.ownCells _ fun x _ => comp.typesIn x.2.2) fun cells => fill o _

theorem assign (writes : ∀ ref value, K (Evaluator.writeVariable ref value)) (ref : Reference)
    (site : AssignSite) (value : Option Expr) : K (Evaluator.assign ref site value) :=
  comp.toBlind.assign (comp.readVariable ref) (writes ref) site value

theorem nearerReceiver (line : Line) (depth : Nat) : K (Evaluator.nearerReceiver line depth) := by
  cases depth with
  | zero => exact comp.stop _
  | succ near => exact comp.bind comp.get fun m => comp.bind (comp.orRaise _ _) fun cell => comp.readCell cell _

theorem superMethod (ref : Reference) (method : Name) : K (Evaluator.superMethod ref method) := by
  unfold Evaluator.superMethod
  dsimp only
  split
  · exact comp.raise _ _
  · refine comp.bind comp.get fun m => comp.bind (comp.orRaise _ _) fun cell => ?_
    refine comp.bind (comp.readCell cell _) fun found => ?_
    split
    · refine comp.bind (comp.nearerReceiver _ _) fun receiver => comp.bind (comp.reading _) fun method => ?_
      split
      · exact comp.bindMethod _ receiver
      · exact comp.raise _ _
    · exact comp.raise _ _

theorem evalExpr {e : Expr} (assigns : ∀ ref site value, e = .assign ref site value → K (Evaluator.assign ref site value))
    (sets : ∀ object name site value qualified,
      e = .set object name site value ∨ e = .staticSet object name site value →
        K (Evaluator.setProperty object name site value qualified))
    (makes : ∀ c args generics line, K (Evaluator.construct c args generics line)) : K (Evaluator.evalExpr e) :=
  comp.toBlind.evalExpr (fun ref _ => comp.readVariable ref) (fun ref method _ => comp.superMethod ref method)
    (fun t => comp.bind comp.currentScope fun scope => comp.typeIn (comp.typesIn scope) t) assigns sets makes

theorem initialValue (decl : VarDecl) (scope : Ref .scope) : K (Evaluator.initialValue decl scope) :=
  comp.toBlind.initialValue (comp.typesIn scope) decl

theorem resolvedPropertyCell (decl : PropertyDecl) (closure : Ref .scope) :
    K (Evaluator.resolvedPropertyCell decl closure) :=
  comp.toBlind.resolvedPropertyCell (comp.typesIn closure) decl

theorem requiredCells (closure : Ref .scope) (fields : List Field) (cells : NameMap Cell) :
    K (Evaluator.requiredCells closure fields cells) :=
  comp.toBlind.requiredCells (comp.typesIn closure) fields cells

theorem declareClass (define : ∀ r name cell, K (Run.update (·.define r name cell)))
    (inside : ∀ {α : Type} (r : Ref .scope) (c : Run α), K c → K (Run.inScope r c))
    (adds : ∀ cls, cls.superclass.isSome = true → K (Evaluator.addClass cls)) (decl : ClassDecl) :
    K (Evaluator.declareClass decl) := by
  refine comp.bind (comp.evalSuperclass decl) fun superclass => ?_
  refine comp.bind (comp.evalInterfaces _ _) fun interfaces => comp.bind comp.currentScope fun outer => ?_
  refine comp.bind (define outer _ _) fun _ => comp.bind (comp.addScope _) fun scope => ?_
  have fields := inside scope _ (comp.fieldCells (comp.typesIn scope) decl.fields .empty)
  refine comp.declaredClassThen fields superclass interfaces fun cls _ parent => ?_
  exact comp.bind (adds cls (by rw [parent]; rfl)) fun c => define outer _ _

theorem evalDeclaration {s : Stmt} (declares : s.declares?.isSome = true)
    (define : ∀ r name cell, K (Run.update (·.define r name cell)))
    (classes : ∀ decl, s = .classDecl decl → K (Evaluator.declareClass decl)) (fuel : Nat) :
    K (Evaluator.evalStmt fuel s) :=
  comp.toBlind.evalDeclaration declares
    (fun next => comp.bind comp.currentScope fun scope => next scope (comp.typesIn scope) (define scope)) classes fuel

theorem iteration (define : ∀ r name cell, K (Run.update (·.define r name cell)))
    (blocks : ∀ scope body, K (Evaluator.block scope body)) (body : Stmt) (names : List Name) :
    K (Evaluator.iteration body names) := by
  refine comp.bind comp.currentScope fun outer => comp.bind (comp.reading _) fun cells => ?_
  refine comp.bind (comp.addScope _) fun scope => comp.bind (blocks scope [body]) fun signal => ?_
  exact comp.bind (comp.copyNames (fun _ => comp.reading _) (define outer) names) fun _ => comp.pure signal

end Compositional

end Treewalk
