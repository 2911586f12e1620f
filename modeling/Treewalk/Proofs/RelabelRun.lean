import Treewalk.Proofs.Relabel
import Treewalk.Proofs.Safety
import Treewalk.Session

/-!
Running does not look at the ids of references. The same code with other ids does the same, on a machine whose
functions have other ids; they are handed on and never asked for. The rules of this module take a computation apart
in the order in which it is written.
-/

namespace Treewalk

variable (f : Reference → Reference)

namespace Function

variable (g : Function)

@[simp]
theorem relabel_name : (g.relabel f).name = g.name := by
  unfold relabel
  split <;> rfl

@[simp]
theorem relabel_params : (g.relabel f).params = g.params := by
  unfold relabel
  split <;> rfl

@[simp]
theorem relabel_returns : (g.relabel f).returns = g.returns := by
  unfold relabel
  split <;> rfl

@[simp]
theorem relabel_modifiers : (g.relabel f).modifiers = g.modifiers := by
  unfold relabel
  split <;> rfl

@[simp]
theorem relabel_constructs : (g.relabel f).constructs = g.constructs := by
  unfold relabel
  split <;> rfl

theorem relabel_user {body : List Stmt} {closure : Ref .scope} (user : g.body = .user body closure) :
    g.relabel f = { g with body := .user (Stmt.relabelAll f body) closure } := by
  rw [relabel, user]

theorem relabel_other (other : ∀ body closure, g.body ≠ .user body closure) : g.relabel f = g := by
  unfold relabel
  split
  · exact absurd ‹_› (other _ _)
  · rfl

@[simp]
theorem relabel_hasBody : (g.relabel f).hasBody = g.hasBody := by
  cases body : g.body with
  | user => simp [relabel_user f g body, hasBody, body]
  | native | missing => rw [relabel_other f g (by simp [body])]

@[simp]
theorem relabel_text : (g.relabel f).text = g.text := by
  cases body : g.body with
  | user => simp [relabel_user f g body, text, body]
  | native | missing => rw [relabel_other f g (by simp [body])]

@[simp]
theorem relabel_arity : (g.relabel f).arity = g.arity := by
  simp [arity]

@[simp]
theorem relabel_paramTypes : (g.relabel f).paramTypes = g.paramTypes := by
  simp [paramTypes]

@[simp]
theorem relabel_signature : (g.relabel f).signature = g.signature := by
  simp [signature]

@[simp]
theorem relabel_ofDecl (decl : FunctionDecl) (closure : Ref .scope) (constructs : Bool) :
    ofDecl (decl.relabel f) closure constructs = (ofDecl decl closure constructs).relabel f := by
  obtain ⟨name, params, returns, modifiers, body⟩ := decl
  cases body <;> rfl

end Function

namespace Heap

variable (h : Heap)

@[simp]
theorem relabel_function (g : Ref .function) : (h.relabel f).function g = (h.function g).relabel f := by
  by_cases inside : g.index < h.functions.size
  · simp [function, relabel, inside]
  · simp only [function, relabel, Array.getD_eq_getD_getElem?, Array.getElem?_map,
      Array.getElem?_eq_none (Nat.le_of_not_lt inside), Option.map_none, Option.getD_none]
    rfl

@[simp]
theorem relabel_scope (r : Ref .scope) : (h.relabel f).scope r = h.scope r :=
  rfl

@[simp]
theorem relabel_cls (c : Ref .cls) : (h.relabel f).cls c = h.cls c :=
  rfl

@[simp]
theorem relabel_object (o : Ref .object) : (h.relabel f).object o = h.object o :=
  rfl

@[simp]
theorem relabel_array (a : Ref .array) : (h.relabel f).array a = h.array a :=
  rfl

@[simp]
theorem relabel_property (p : Ref .property) : (h.relabel f).property p = h.property p :=
  rfl

@[simp]
theorem relabel_interface (i : Ref .interface) : (h.relabel f).interface i = h.interface i :=
  rfl

@[simp]
theorem relabel_enumeration (e : Ref .enumeration) : (h.relabel f).enumeration e = h.enumeration e :=
  rfl

@[simp]
theorem relabel_here? (r : Ref .scope) (name : String) : (h.relabel f).here? r name = h.here? r name :=
  rfl

@[simp]
theorem relabel_isGlobal (r : Ref .scope) : (h.relabel f).isGlobal r = h.isGlobal r :=
  rfl

theorem relabel_outwardFrom (fuel : Nat) (r : Ref .scope) :
    (h.relabel f).outwardFrom fuel r = h.outwardFrom fuel r := by
  induction fuel generalizing r with
  | zero => rfl
  | succ fuel ih => simp [outwardFrom, ih]

@[simp]
theorem relabel_binder? (r : Ref .scope) (name : String) : (h.relabel f).binder? r name = h.binder? r name := by
  simp [binder?, outward, relabel_outwardFrom]

@[simp]
theorem relabel_lookup (r : Ref .scope) (name : String) : (h.relabel f).lookup r name = h.lookup r name := by
  simp [lookup]

@[simp]
theorem relabel_ancestor? (distance : Nat) (r : Ref .scope) :
    (h.relabel f).ancestor? distance r = h.ancestor? distance r := by
  induction distance generalizing r with
  | zero => rfl
  | succ distance ih => simp [ancestor?, funext ih]

@[simp]
theorem relabel_lookupAt (r : Ref .scope) (distance : Nat) (name : String) :
    (h.relabel f).lookupAt r distance name = h.lookupAt r distance name := by
  simp [lookupAt]

@[simp]
theorem relabel_resolveType (t : TypeDesc) (r : Ref .scope) :
    (h.relabel f).resolveType t r = h.resolveType t r := by
  simp [resolveType]

@[simp]
theorem relabel_copies (r : Ref .scope) (names : List Name) : (h.relabel f).copies r names = h.copies r names := by
  induction names with
  | nil => rfl
  | cons name rest ih => simp [copies, ih]

theorem relabel_lineageFrom (fuel : Nat) (c : Ref .cls) :
    (h.relabel f).lineageFrom fuel c = h.lineageFrom fuel c := by
  induction fuel generalizing c with
  | zero => rfl
  | succ fuel ih => simp [lineageFrom, ih]

@[simp]
theorem relabel_lineage (c : Ref .cls) : (h.relabel f).lineage c = h.lineage c :=
  h.relabel_lineageFrom f _ c

@[simp]
theorem relabel_findMethod? (c : Ref .cls) (name : String) :
    (h.relabel f).findMethod? c name = h.findMethod? c name := by
  simp [findMethod?]

@[simp]
theorem relabel_findField? (c : Ref .cls) (name : String) :
    (h.relabel f).findField? c name = h.findField? c name := by
  simp [findField?]

@[simp]
theorem relabel_fieldOwner? (c : Ref .cls) (name : String) :
    (h.relabel f).fieldOwner? c name = h.fieldOwner? c name := by
  simp [fieldOwner?]

@[simp]
theorem relabel_constructor? (c : Ref .cls) : (h.relabel f).constructor? c = h.constructor? c := by
  simp [constructor?]

@[simp]
theorem relabel_instanceFields (c : Ref .cls) : (h.relabel f).instanceFields c = h.instanceFields c := by
  simp [instanceFields]

@[simp]
theorem relabel_scopeWithin (receiver : Value) (closure : Ref .scope) :
    (h.relabel f).scopeWithin receiver closure = h.scopeWithin receiver closure := by
  cases receiver <;> rfl

@[simp]
theorem relabel_typeOf (value : Value) : (h.relabel f).typeOf value = h.typeOf value := by
  cases value <;> simp [typeOf]

@[simp]
theorem relabel_conforms (value : Value) (t : TypeDesc) :
    (h.relabel f).conforms value t = h.conforms value t := by
  have isNamed (name : String) (c : Ref .cls) : (h.relabel f).isNamed name c = h.isNamed name c := rfl
  have isA (c : Ref .cls) (name : String) : (h.relabel f).isA c name = h.isA c name := by
    simp [Heap.isA, funext (isNamed name)]
  simp [conforms, isA]

@[simp]
theorem relabel_text (value : Value) : (h.relabel f).text value = h.text value := by
  have within (fuel : Nat) (value : Value) : (h.relabel f).textWithin fuel value = h.textWithin fuel value := by
    induction fuel generalizing value with
    | zero => cases value <;> simp [textWithin]
    | succ fuel ih => cases value <;> simp [textWithin, funext ih]
  exact within _ value

@[simp]
theorem relabel_checkType (declared : Option TypeDesc) (name : String) (value : Value) :
    (h.relabel f).checkType declared name value = h.checkType declared name value := by
  cases declared <;> simp [checkType]

@[simp]
theorem relabel_writeCell (cell : Cell) (name : String) (value : Value) :
    (h.relabel f).writeCell cell name value = h.writeCell cell name value := by
  simp [writeCell]

@[simp]
theorem relabel_assignHere (r : Ref .scope) (name : String) (value : Value) :
    (h.relabel f).assignHere r name value = h.assignHere r name value := by
  simp [assignHere]

@[simp]
theorem relabel_assign (r : Ref .scope) (name : String) (value : Value) :
    (h.relabel f).assign r name value = h.assign r name value := by
  simp [assign]

@[simp]
theorem relabel_assignAt (r : Ref .scope) (distance : Nat) (name : String) (value : Value) :
    (h.relabel f).assignAt r distance name value = h.assignAt r distance name value := by
  simp [assignAt]

@[simp]
theorem relabel_getElement (a : Ref .array) (index : Float) :
    (h.relabel f).getElement a index = h.getElement a index :=
  rfl

@[simp]
theorem relabel_slotFor (a : Ref .array) (index : Float) (value : Value) :
    (h.relabel f).slotFor a index value = h.slotFor a index value := by
  simp [slotFor]

@[simp]
theorem relabel_argumentCells (function : String) (closure : Ref .scope) (params : List Param)
    (values : List Value) (cells : NameMap Cell) :
    (h.relabel f).argumentCells function closure params values cells =
      h.argumentCells function closure params values cells := by
  have one (param : Param) (value : Value) :
      (h.relabel f).argumentCell function closure param value = h.argumentCell function closure param value := by
    simp [argumentCell]
  induction params generalizing values cells with
  | nil => rfl
  | cons param params ih => cases values <;> simp [argumentCells, one, ih]

@[simp]
theorem relabel_defaultFor? (g : Function) (i : Ref .interface) :
    (h.relabel f).defaultFor? (g.relabel f) i = h.defaultFor? g i := by
  simp [defaultFor?]

@[simp]
theorem relabel_defaults (i : Ref .interface) : (h.relabel f).defaults i = h.defaults i := by
  simp [defaults]

@[simp]
theorem relabel_checkConformance (c : Class) (i : Interface) :
    (h.relabel f).checkConformance c i = h.checkConformance c i := by
  have method (className : String) (found : Option (Ref .function)) (name : String) :
      (h.relabel f).checkMethod className found i name = h.checkMethod className found i name := by
    simp [checkMethod]
  simp [checkConformance, method, methodOf?, fieldOf?]

@[simp]
theorem relabel_addFunction (g : Function) :
    (h.relabel f).addFunction (g.relabel f) = ((h.addFunction g).1, (h.addFunction g).2.relabel f) := by
  simp [addFunction, relabel]

end Heap

/-- What has come of an activity, on a machine whose functions have other ids. -/
def Outcome.relabel (f : Reference → Reference) : Outcome α → Outcome α
  | .ok a m => .ok a (m.relabel f)
  | .error stop m => .error stop (m.relabel f)

/-- A change that leaves names and depths alone, and a way to perform activities that does not look at the rest. -/
class Unseen (f : Reference → Reference) (act : (a : Activity) → Machine → Outcome a.Result) : Prop where
  name : ∀ ref, (f ref).name = ref.name
  depth : ∀ ref, (f ref).depth = ref.depth
  expr : ∀ e m, act (.expr (e.relabel f)) (m.relabel f) = (act (.expr e) m).relabel f
  stmt : ∀ s m, act (.stmt (s.relabel f)) (m.relabel f) = (act (.stmt s) m).relabel f
  call : ∀ g args generics line m,
    act (.call (g.relabel f) args generics line) (m.relabel f) = (act (.call g args generics line) m).relabel f
  text : ∀ value m, act (.text value) (m.relabel f) = (act (.text value) m).relabel f

/-- Two computations that do the same, the second one on the machine that has other ids. -/
def Relabelled (f : Reference → Reference) (act : (a : Activity) → Machine → Outcome a.Result) (c c' : Run α) : Prop :=
  ∀ m, (c' (m.relabel f)).outcome act = ((c m).outcome act).relabel f

namespace Relabelled

variable {f : Reference → Reference} {act : (a : Activity) → Machine → Outcome a.Result} {α β : Type} {c c' : Run α}
  {k k' : α → Run β}

theorem pure (a : α) : Relabelled f act (Pure.pure a) (Pure.pure a) :=
  fun _ => rfl

theorem stop (reason : Stop) : Relabelled f act (Run.stop reason : Run α) (Run.stop reason) :=
  fun _ => rfl

theorem raise (line : Line) (fault : Fault) : Relabelled f act (Run.raise line fault : Run α) (Run.raise line fault) :=
  fun _ => rfl

theorem orRaise (line : Line) (result : Except Fault α) :
    Relabelled f act (Run.orRaise line result) (Run.orRaise line result) := by
  cases result <;> exact fun _ => rfl

theorem demand (holds : Bool) (line : Line) (fault : Fault) :
    Relabelled f act (Run.demand holds line fault) (Run.demand holds line fault) := by
  cases holds <;> exact fun _ => rfl

theorem bind (first : Relabelled f act c c') (next : ∀ a, Relabelled f act (k a) (k' a)) :
    Relabelled f act (c >>= k) (c' >>= k') := by
  intro m
  rw [Run.outcome_bind, Run.outcome_bind, first m]
  cases (c m).outcome act with
  | ok a after => exact next a after
  | error reason after => rfl

theorem map (g : α → β) (first : Relabelled f act c c') : Relabelled f act (g <$> c) (g <$> c') :=
  bind first fun a => pure (g a)

theorem ite {p : Prop} [Decidable p] {no no' : Run α} (yes : Relabelled f act c c') (other : Relabelled f act no no') :
    Relabelled f act (if p then c else no) (if p then c' else no') := by
  by_cases decided : p
  · rw [if_pos decided, if_pos decided]
    exact yes
  · rw [if_neg decided, if_neg decided]
    exact other

theorem get {k k' : Machine → Run β} (next : ∀ m, Relabelled f act (k m) (k' (m.relabel f))) :
    Relabelled f act (MonadState.get >>= k) (MonadState.get >>= k') :=
  fun m => next m m

theorem heap {k k' : Heap → Run β} (next : ∀ h, Relabelled f act (k h) (k' (h.relabel f))) :
    Relabelled f act (Run.heap >>= k) (Run.heap >>= k') :=
  fun m => next m.heap m

theorem reading {g : Heap → α} (next : ∀ h, Relabelled f act (k (g h)) (k' (g (h.relabel f)))) :
    Relabelled f act (Run.reading g >>= k) (Run.reading g >>= k') :=
  fun m => next m.heap m

theorem currentScope {k k' : Ref .scope → Run β} (next : ∀ r, Relabelled f act (k r) (k' r)) :
    Relabelled f act (Run.currentScope >>= k) (Run.currentScope >>= k') :=
  fun m => next m.scope m

theorem inGlobalScope {k k' : Bool → Run β} (next : ∀ global, Relabelled f act (k global) (k' global)) :
    Relabelled f act (Run.inGlobalScope >>= k) (Run.inGlobalScope >>= k') :=
  fun m => next (m.heap.isGlobal m.scope) m

theorem allocate {g g' : Heap → α × Heap} (same : ∀ h, g' (h.relabel f) = ((g h).1, (g h).2.relabel f)) :
    Relabelled f act (Run.allocate g) (Run.allocate g') := by
  intro m
  change EStateM.Result.ok (g' (m.heap.relabel f)).1 { m with heap := (g' (m.heap.relabel f)).2 } = _
  rw [same]
  rfl

theorem update {g : Heap → Heap} (same : ∀ h, g (h.relabel f) = (g h).relabel f) :
    Relabelled f act (Run.update g) (Run.update g) := by
  intro m
  change EStateM.Result.ok () { m with heap := g (m.heap.relabel f) } = _
  rw [same]
  rfl

theorem printOut (text : String) : Relabelled f act (Run.printOut text) (Run.printOut text) :=
  fun _ => rfl

theorem printErr (text : String) : Relabelled f act (Run.printErr text) (Run.printErr text) :=
  fun _ => rfl

theorem warn (line : Line) (notice : Notice) : Relabelled f act (Run.warn line notice) (Run.warn line notice) :=
  fun _ => rfl

theorem readClock : Relabelled f act Run.readClock Run.readClock :=
  fun _ => rfl

theorem inScope (r : Ref .scope) (body : Relabelled f act c c') :
    Relabelled f act (Run.inScope r c) (Run.inScope r c') := by
  intro m
  have inner := body { m with scope := r }
  refine (Plan.outcome_andThen _ _).trans (Eq.trans ?_ (congrArg _ (Plan.outcome_andThen _ _).symm))
  change (Run.leave m.scope ((c' (Machine.relabel f { m with scope := r })).outcome act)).outcome act = _
  rw [inner]
  cases (c { m with scope := r }).outcome act <;> rfl

theorem catching {handler handler' : RuntimeError → Run α} (body : Relabelled f act c c')
    (handled : ∀ e, Relabelled f act (handler e) (handler' e)) :
    Relabelled f act (Run.catching c handler) (Run.catching c' handler') := by
  intro m
  refine (Plan.outcome_andThen _ _).trans (Eq.trans ?_ (congrArg _ (Plan.outcome_andThen _ _).symm))
  rw [body m]
  match (c m).outcome act with
  | .ok _ _ | .error .crash _ | .error .outOfFuel _ => rfl
  | .error (.fault e) after => exact handled e after

theorem mapM {ι : Type} {x : Option ι} {k k' : ι → Run α} (some : ∀ a, Relabelled f act (k a) (k' a)) :
    Relabelled f act (x.mapM k) (x.mapM k') := by
  cases x with
  | none => exact pure none
  | some a => exact map _ (some a)

variable [unseen : Unseen f act]

theorem eval (e : Expr) : Relabelled f act (Run.eval e) (Run.eval (e.relabel f)) :=
  unseen.expr e

theorem exec (s : Stmt) : Relabelled f act (Run.exec s) (Run.exec (s.relabel f)) :=
  unseen.stmt s

theorem call (g : Function) (args generics : List Value) (line : Line) :
    Relabelled f act (Run.call g args generics line) (Run.call (g.relabel f) args generics line) :=
  unseen.call g args generics line

theorem spell (value : Value) : Relabelled f act (Run.spell value) (Run.spell value) :=
  unseen.text value

end Relabelled

end Treewalk
