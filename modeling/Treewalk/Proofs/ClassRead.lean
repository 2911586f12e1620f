import Treewalk.Proofs.CellReads
import Treewalk.Proofs.DetourRun
import Treewalk.Proofs.FieldTypes
import Treewalk.Proofs.Instantiation
import Treewalk.Proofs.PropertyCopies
import Treewalk.Proofs.Settled

/-!
Computed properties that are read through the class. The accessors of the class see no receiver, so a call of the
getter has its scope directly inside that of the class. An instance has the same getter with a scope for the
receiver in between, and the references in the body are counted with that scope. As long as none of them leads out
of the body, reading through the class and reading on an instance come to the same, if the instance has a copy of this
form. New instances of a class without templates do. Instances of a generic class do not: for what it declares itself,
the scope of the receiver lies in the one with the templates, and not in the scope of the class.
-/

namespace Treewalk

open Scoping

variable {D : Detour} {h : Heap} {r : Ref .scope}

/-! Whole activities beside a detour. -/

def Event.Clears (D : Detour) : Event → Prop
  | .started a m => m.heap.Grounded m.scope ∧ a.Clears D m
  | .ended .. => True

structure Detour.Parallel (D : Detour) (h : Heap) (r : Ref .scope) (outcome outcome' : Outcome α) : Prop where
  same : outcome' = D.outcome outcome
  later : h.Extends outcome.machine.heap
  lies : D.Lies outcome.machine.heap
  scope : outcome.machine.scope = r

/-- Activities come to the same with the detour and without it, if all that happens keeps clear of it. -/
def Detour.Follows (D : Detour) (perform : (a : Activity) → Machine → Outcome a.Result)
    (history : Activity → Machine → List Event) : Prop :=
  ∀ a m, D.Lies m.heap → (∀ s, a = .stmt s → D.inner.index ≤ m.scope.index) → (∀ e ∈ history a m, e.Clears D) →
    D.Parallel m.heap m.scope (perform a m) (perform a (D.machine m))

theorem Plan.Beside.outcome {perform : (a : Activity) → Machine → Outcome a.Result}
    {history : Activity → Machine → List Event} (each : D.Follows perform history) {plan plan' : Plan α}
    (beside : plan.Beside D h r plan') (clear : ∀ e ∈ plan.events perform history, e.Clears D) :
    D.Parallel h r (plan.outcome perform) (plan'.outcome perform) := by
  induction beside with
  | done outcome later lies scope => exact ⟨rfl, later, lies, scope⟩
  | @ask a m next next' later lies deep _ ih =>
    have first := each a m lies deep fun e member => clear e (List.mem_append_left _ member)
    have rest := ih _ first.later first.lies first.scope fun e member => clear e (List.mem_append_right _ member)
    rwa [← first.same] at rest

theorem mem_history_of_events {fuel : Nat} {a : Activity} {m : Machine} {e : Event}
    (member : e ∈ (a.plan fuel m).events (perform fuel) (history fuel)) : e ∈ history (fuel + 1) a m :=
  List.mem_append_left _ (List.mem_cons_of_mem _ member)

theorem perform_follows (D : Detour) (fuel : Nat) : D.Follows (perform fuel) (history fuel) := by
  induction fuel with
  | zero => exact fun a m lies _ _ => ⟨rfl, .refl _, lies, rfl⟩
  | succ fuel ih =>
    intro a m lies deep clear
    obtain ⟨grounded, clears⟩ := clear (.started a m) (by simp [history])
    have beside := a.plan_steady deep grounded clears fuel m (.refl _) lies rfl
    exact beside.outcome ih fun e member => clear e (mem_history_of_events member)

/-! A call with a detour. -/

theorem Detour.machine_of_absent {m : Machine} (absent : m.heap.scopes.size ≤ D.inner.index) : D.machine m = m := by
  have same : (m.heap.scopes.modify D.inner.index fun s => { s with enclosing := some D.outer }) = m.heap.scopes := by
    refine Array.ext (by simp) fun i inside inside' => ?_
    rw [Array.getElem_modify, if_neg (by omega)]
  rw [machine, straight, same]
  rfl

theorem Detour.straight_call (D : Detour) (new : D.inner.index = h.scopes.size) (cells : NameMap Cell) :
    D.straight (h.addScope { enclosing := some D.between, names := cells }).2 =
      (h.addScope { enclosing := some D.outer, names := cells }).2 := by
  have same : ((h.scopes.push { enclosing := some D.between, names := cells }).modify D.inner.index fun s =>
      { s with enclosing := some D.outer }) = h.scopes.push { enclosing := some D.outer, names := cells } := by
    refine Array.ext (by simp) fun i inside inside' => ?_
    rw [Array.size_push] at inside'
    rw [Array.getElem_modify, Array.getElem_push, Array.getElem_push, new]
    by_cases last : i < h.scopes.size
    · simp only [dif_pos last]
      rw [if_neg (by omega)]
    · simp only [dif_neg last]
      rw [if_pos (by omega)]
  simp only [straight, Heap.addScope, Heap.rescoped, same]

theorem Evaluator.callFunction_user {f : Function} {body : List Stmt} {closure : Ref .scope}
    (found : f.body = .user body closure) (yields : f.constructs = false) (args : List Value) (line : Line)
    (m : Machine) : callFunction f args [] line m =
      if args.length ≠ f.arity then Run.raise line (.argumentCount f.arity args.length) m
      else match m.heap.argumentCells f.name closure f.params args .empty with
        | .error fault => Run.raise line fault m
        | .ok cells => (block ⟨m.heap.scopes.size⟩ body >>= resultOf f closure line)
            { m with heap := (m.heap.addScope { enclosing := some closure, names := cells }).2 } := by
  unfold callFunction
  split
  · rfl
  · simp only [found]
    change callUser f body closure args line m = _
    unfold callUser
    simp only [yields]
    change (Run.orRaise line (m.heap.argumentCells f.name closure f.params args .empty) >>= _) m = _
    cases m.heap.argumentCells f.name closure f.params args .empty <;> rfl

/-- The next scope can be the beginning of a detour. -/
structure Detour.Opens (D : Detour) (h : Heap) : Prop where
  new : D.inner.index = h.scopes.size
  aside : h.Aside D.between D.outer
  classes : ∀ c, h.Grounded (h.cls c).scope

namespace Detour.Opens

variable {m : Machine} (opens : D.Opens h)

include opens

theorem lies (cells : NameMap Cell) : D.Lies (h.addScope { enclosing := some D.between, names := cells }).2 := by
  obtain ⟨new, aside, classes⟩ := opens
  obtain ⟨⟨inner⟩, between, outer⟩ := D
  obtain rfl : inner = h.scopes.size := new
  have further := Heap.Extends.addScope h { enclosing := some between, names := cells }
  refine ⟨?_, .addScope fun p around => ?_, aside.addScope _, fun c => ⟨(classes c).mono further, fun same => ?_⟩⟩
  · simp only [Heap.scope_addScope, if_pos]
  · cases around
    exact aside.grounded
  · have inside := (classes c).inside
    change (h.cls c).scope = _ at same
    rw [same] at inside
    exact Nat.lt_irrefl _ inside

theorem argumentCells (name : String) (params : List Param) (args : List Value) :
    h.argumentCells name D.outer params args .empty = h.argumentCells name D.between params args .empty :=
  @Heap.argumentCells_of_types h h.scopes D.between D.outer opens.aside.resolveType name params args .empty

end Detour.Opens

/-- A function, and the same function with the detour on its way out. -/
structure Detour.Copies (D : Detour) (body : List Stmt) (f g : Function) : Prop where
  plain : f.body = .user body D.outer
  bound : g = { f with body := .user body D.between }
  yields : f.constructs = false

section

variable {m : Machine} {body : List Stmt} {f g : Function}

theorem Detour.Lies.resultOf (lies : D.Lies m.heap) (copies : D.Copies body f g) (line : Line) (signal : Signal) :
    Evaluator.resultOf f D.outer line signal (D.machine m) =
      Evaluator.resultOf g D.between line signal (D.machine m) := by
  have types : (D.straight m.heap).resolveType f.returns D.outer =
      (D.straight m.heap).resolveType f.returns D.between := by
    rw [lies.resolveType lies.aside.outer_grounded, lies.resolveType lies.aside.grounded, lies.aside.resolveType]
  rw [copies.bound]
  unfold Evaluator.resultOf
  rw [Run.heap_bind, Run.heap_bind]
  change (D.machine m).heap.resolveType f.returns D.outer = (D.machine m).heap.resolveType f.returns D.between at types
  simp only [types]

theorem Detour.Lies.runs (lies : D.Lies m.heap) (copies : D.Copies body f g) (line : Line) :
    ((Evaluator.block D.inner body >>= Evaluator.resultOf g D.between line) m).Beside D m.heap m.scope
      ((Evaluator.block D.inner body >>= Evaluator.resultOf f D.outer line) (D.machine m)) := by
  have inside : D.Steady m.heap m.scope (Evaluator.block D.inner body) :=
    .inScope ((steady_blind D m.heap D.inner).stmts fun _ _ => .ask fun _ _ => Nat.le_refl _)
  refine (inside m (.refl _) lies rfl).andThen fun outcome later lies' scope => ?_
  cases outcome with
  | error reason m' => exact .done _ later lies' scope
  | ok signal m' =>
    have there : D.Lies m'.heap := lies'
    have result := (steady_blind D m'.heap m.scope).resultOf (steady_types there.aside.grounded) g line signal
    have beside := (result m' (.refl _) there scope).after later
    rw [← there.resultOf copies] at beside
    exact beside

/-- The plans of both calls. A call may fail before it has a scope, and then both do. -/
theorem Detour.Opens.callFunction (opens : D.Opens m.heap) (copies : D.Copies body f g) (args : List Value)
    (line : Line) :
    (∃ fault, Evaluator.callFunction f args [] line m = Run.raise line fault m ∧
        Evaluator.callFunction g args [] line m = Run.raise line fault m) ∨
      (Evaluator.callFunction g args [] line m).Beside D m.heap m.scope (Evaluator.callFunction f args [] line m) := by
  have plain := Evaluator.callFunction_user copies.plain copies.yields args line m
  have bound := Evaluator.callFunction_user (f := g) (by rw [copies.bound]) (by rw [copies.bound, copies.yields]) args
    line m
  rw [opens.argumentCells] at plain
  have name : g.name = f.name := by rw [copies.bound]
  have params : g.params = f.params := by rw [copies.bound]
  rw [name, params, Function.arity, params] at bound
  by_cases count : args.length ≠ f.arity
  · exact .inl ⟨_, plain.trans (if_pos count), bound.trans (if_pos count)⟩
  · replace plain := plain.trans (if_neg count)
    replace bound := bound.trans (if_neg count)
    cases fits : m.heap.argumentCells f.name D.between f.params args .empty with
    | error fault =>
      simp only [fits] at plain bound
      exact .inl ⟨fault, plain, bound⟩
    | ok cells =>
      simp only [fits] at plain bound
      have here : D.inner = ⟨m.heap.scopes.size⟩ := Ref.ext_index opens.new
      have beside := Lies.runs (m := { m with heap := _ }) (opens.lies cells) copies line
      rw [machine, D.straight_call opens.new, here] at beside
      rw [plain, bound]
      exact .inr (beside.after (.addScope _ _))

theorem Detour.Opens.call (opens : D.Opens m.heap) (copies : D.Copies body f g) (args : List Value) (line : Line)
    (fuel : Nat) (clear : ∀ e ∈ history fuel (.call g args [] line) m, e.Clears D) :
    perform fuel (.call f args [] line) m = D.outcome (perform fuel (.call g args [] line) m) := by
  have stays (reason : Stop) : (.error reason m : Outcome Value) = D.outcome (.error reason m) := by
    rw [outcome, machine_of_absent (Nat.le_of_eq opens.new.symm)]
  cases fuel with
  | zero => exact stays _
  | succ fuel =>
    simp only [perform, Activity.plan]
    rcases opens.callFunction copies args line with ⟨fault, plain, bound⟩ | beside
    · rw [plain, bound]
      exact stays _
    · exact (beside.outcome (perform_follows D fuel) fun e member => clear e (mem_history_of_events member)).same

end

/-! References that lead out of a call. -/

/-- An expression starts that follows a reference past a scope. -/
def Event.Passes (limit : Ref .scope) : Event → Prop
  | .started (.expr e) m => ∃ ref ∈ e.follows?, ¬ref.Stops m.heap m.scope limit
  | _ => False

instance (limit : Ref .scope) (e : Event) : Decidable (e.Passes limit) :=
  match e with
  | .started (.expr e) m => inferInstanceAs (Decidable (∃ ref ∈ e.follows?, ¬ref.Stops m.heap m.scope limit))
  | .started (.stmt _) _ | .started (.call ..) _ | .started (.text _) _ | .ended .. => isFalse id

theorem Machine.Settled.grounded {m : Machine} (settled : m.Settled) (inside : r.index < m.heap.scopes.size) :
    m.heap.Grounded r :=
  .of_older settled.guarded.older inside

/-- What happens keeps clear of a detour, unless a reference leads past its beginning. -/
theorem history_clears {m : Machine} {w : World} (settled : m.Settled) (sound : w.Sound .lax) (heap : w.heap = m.heap)
    {a : Activity} (ready : a.Ready .lax w m) (meets : (Tie.plain ("", "")).Meets m a) {fuel : Nat}
    (short : ∀ e ∈ history fuel a m, ¬e.Passes D.inner) : ∀ e ∈ history fuel a m, e.Clears D := by
  let Closed : Event → Prop
    | .started a m => m.Settled ∧ ∀ f args generics line, a = .call f args generics line →
        ∀ body closure, f.body = .user body closure → closure.index < m.heap.scopes.size
    | .ended .. => True
  have closed : ∀ e ∈ history fuel a m, Closed e := by
    refine history_each (E := Closed) (fun a m S err held meets => ⟨held.settled, ?_⟩) (fun _ _ _ _ => trivial) fuel a m
      m.heap.scopes m.err (settled.holds ⟨m.err, by simp, by simp⟩) meets
    rintro f args generics line rfl body closure user
    exact (meets body closure user).inside
  obtain ⟨w', trail, -⟩ := history_leaves .lax fuel a m w sound heap ready fun impossible => impossible.elim
  intro e member
  match e with
  | .ended .. => trivial
  | .started a n =>
    obtain ⟨calm, there⟩ := closed _ member
    refine ⟨calm.grounded calm.scope, ?_⟩
    obtain ⟨v, seen, -, -⟩ := trail.seen member
    match a with
    | .expr e =>
      obtain ⟨p, stands, -⟩ := seen.good
      refine ⟨fun ref follows => Classical.byContradiction fun passes => ?_, ?_⟩
      · exact short _ member ⟨ref, follows, passes⟩
      · rintro ref site value rfl
        have fits : Expr.Fits p (.assign ref site value) := stands.fits
        exact fits.2.ordinary.1
    | .call f args generics line => exact fun body closure user => calm.grounded (there _ _ _ _ rfl body closure user)
    | .stmt _ => trivial
    | .text _ => trivial

/-! Reading properties. -/

theorem Detour.Opens.readProperty {m : Machine} (opens : D.Opens m.heap) {body : List Stmt} {p q : Ref .property}
    (copies : D.Copies body (m.heap.function (m.heap.property p).getter) (m.heap.function (m.heap.property q).getter))
    (alike : (m.heap.property p).Alike (m.heap.property q)) (line : Line) (fuel : Nat)
    (clear : ∀ e ∈ history fuel
      (.call (m.heap.function (m.heap.property q).getter) [(m.heap.property q).cache] [] line) m, e.Clears D) :
    (Evaluator.readProperty p line m).outcome (perform fuel) =
      D.outcome ((Evaluator.readProperty q line m).outcome (perform fuel)) := by
  let ask (x : Ref .property) : Run Value :=
    Run.call (m.heap.function (m.heap.property x).getter) [(m.heap.property x).cache] [] line
  let check (x : Ref .property) (value : Value) : Run Value :=
    Run.heap >>= fun h =>
      Run.orRaise line (h.checkType (m.heap.property x).declared (m.heap.property x).name value) >>= fun _ =>
        Pure.pure value
  have read (x : Ref .property) : Evaluator.readProperty x line m = (ask x >>= check x) m := rfl
  have called : (ask p m).outcome (perform fuel) = D.outcome ((ask q m).outcome (perform fuel)) := by
    change perform fuel (.call _ [(m.heap.property p).cache] [] line) m = _
    rw [← alike.cache]
    exact opens.call copies _ line fuel clear
  rw [read p, read q, Run.outcome_bind, Run.outcome_bind, called]
  cases (ask q m).outcome (perform fuel) with
  | error reason after => rfl
  | ok value after =>
    have checked : (D.straight after.heap).checkType (m.heap.property p).declared (m.heap.property p).name value =
        after.heap.checkType (m.heap.property q).declared (m.heap.property q).name value := by
      rw [alike.declared, alike.name]
      exact after.heap.rescoped_checkType _ _ _ value
    change ((Run.orRaise line ((D.straight after.heap).checkType _ _ value) >>= _) (D.machine after)).outcome _ =
      D.outcome (((Run.orRaise line (after.heap.checkType _ _ value) >>= _) after).outcome _)
    rw [checked]
    cases after.heap.checkType (m.heap.property q).declared (m.heap.property q).name value <;> rfl

/-! Members. -/

namespace Evaluator

/-- A member of an instance is read after the warning that there is for members that are read through the class. -/
def readWarned (c : Ref .cls) (o : Ref .object) (name : Name) : Run Value := do
  Run.warn name.line (.memberThroughClass (← Run.reading (·.cls c)).name name.text)
  getMember (.object o) name false

variable {c : Ref .cls} {o : Ref .object} {name : Name} {cell own : Cell} {m : Machine}

theorem getMember_warned (field : m.heap.findField? c name.text = some cell) (plain : cell.modifiers.static = false)
    (held : (m.heap.object o).fields.find? name.text = some own) :
    ∃ n, n.heap = m.heap ∧ n.scope = m.scope ∧ getMember (.cls c) name false m = readCell cell name.line n ∧
      readWarned c o name m = readCell own name.line n := by
  let warning := Run.warn name.line (.memberThroughClass (m.heap.cls c).name name.text)
  obtain ⟨_, n, warned, heap, scope⟩ := Run.warn_quiet name.line (.memberThroughClass (m.heap.cls c).name name.text) m
  have after (f : Unit → Run Value) : (warning >>= f) m = f () n := Run.bind_of_done warned
  have shared : getMember (.cls c) name false m = (warning >>= fun _ => readCell cell name.line) m := by
    rw [getMember_class field, plain]
    rfl
  have single : getMember (.object o) name false n = readCell own name.line n := getMember_own (by rw [heap, held])
  exact ⟨n, heap, scope, shared.trans (after _), (after fun _ => getMember (.object o) name false).trans single⟩

end Evaluator

/-- A receiver is never a type. -/
theorem World.Sound.untyped {view : View} {w : World} (sound : w.Sound view) {r : Ref .scope} {cell : Cell}
    (found : w.heap.here? r "this" = some cell) : cell.type? = none := by
  obtain ⟨site, -, serves⟩ := sound.serves r _ cell found
  obtain ⟨_, receiver, -, plain, receives⟩ := serves.receiver rfl
  unfold Cell.type?
  rw [plain]
  cases receiver with
  | object _ | cls _ => rfl
  | _ => exact receives.elim

theorem Heap.Copied.aside {view : View} {w : World} (sound : w.Sound view) {o : Ref .object} {body : List Stmt}
    {receiver closure : Ref .scope} {p q : Ref .property} (copied : w.heap.Copied o body receiver closure p q)
    (grounded : w.heap.Grounded receiver) : w.heap.Aside receiver closure where
  leaves := by rw [copied.scope]
  grounded := grounded
  bare name other := by rw [here?, copied.scope, NameMap.find?_insert_of_ne _ other, NameMap.find?_empty]
  untyped _ _ _ found := sound.untyped found

theorem World.Sound.getter_ready {view : View} {w : World} (sound : w.Sound view) {o : Ref .object} {name : String}
    {own : Cell} {q : Ref .property} (held : (w.heap.object o).fields.find? name = some own)
    (copy : own.content = .computed q) (line : Line) (m : Machine) :
    (Activity.call (w.heap.function (w.heap.property q).getter) [(w.heap.property q).cache] [] line).Ready view w m := by
  have member := NameMap.mem_of_find? held
  have known := (sound.objects o (Heap.lt_of_field member)).fields _ member
  simp only [World.CellKnown, copy] at known
  obtain ⟨inside, -, getter, -⟩ := known
  exact ⟨.inl getter.2, by simpa using sound.caches q inside, by simp⟩

/-- At every moment of a run: reading a computed property of instances through the class does, after a warning, what
reading it on an instance does, as long as no reference leads out of the getter. The instance has a copy of the property
that is bound to it, with the same value in the cache. Reading gives the same value or fault, and the same machine but
for where the scope of the call lies: directly in the scope of the class, and not in that of the receiver. -/
theorem class_read_as_instance {H : List Event} {m n : Machine} (reached : Reached H m) (moment : n ∈ moments H m)
    {c : Ref .cls} {o : Ref .object} {name : Name} {cell own : Cell} {p q : Ref .property} {body : List Stmt}
    {receiver closure : Ref .scope} (field : n.heap.findField? c name.text = some cell)
    (instances : cell.modifiers.static = false) (computed : cell.content = .computed p)
    (held : (n.heap.object o).fields.find? name.text = some own) (copy : own.content = .computed q)
    (copied : n.heap.Copied o body receiver closure p q) (alike : (n.heap.property p).Alike (n.heap.property q))
    (fuel : Nat) (inside : ∀ e ∈ (Evaluator.readWarned c o name n).events (perform fuel) (history fuel),
      ¬e.Passes ⟨n.heap.scopes.size⟩) :
    (Evaluator.getMember (.cls c) name false n).outcome (perform fuel) =
      Detour.outcome ⟨⟨n.heap.scopes.size⟩, receiver, closure⟩
        ((Evaluator.readWarned c o name n).outcome (perform fuel)) := by
  let D : Detour := ⟨⟨n.heap.scopes.size⟩, receiver, closure⟩
  obtain ⟨w, trail, arrived⟩ := reached.trail
  obtain ⟨v, sound, heap⟩ := trail.forall_moments (Q := fun n => ∃ v : World, v.Sound .lax ∧ v.heap = n.heap)
    arrived.sound arrived.heap (fun v _ sound heap => ⟨v, sound, heap⟩) n moment
  obtain ⟨n', same, scope, shared, single⟩ := Evaluator.getMember_warned field instances held
  rw [shared]
  rw [single] at inside ⊢
  simp only [Evaluator.readCell, computed, copy] at inside ⊢
  -- The warning has not touched the heap.
  have settled : n'.Settled := by
    have before := reached.settled.1 n moment
    exact ⟨by rw [same]; exact before.guarded, by rw [same, scope]; exact before.scope⟩
  rw [← same] at heap copied alike
  have grounded : n'.heap.Grounded receiver := settled.grounded (Heap.lt_of_enclosing (by rw [copied.scope]; rfl))
  have aside : n'.heap.Aside receiver closure := by
    rw [← heap] at copied grounded ⊢
    exact copied.aside sound grounded
  have opens : D.Opens n'.heap := ⟨by rw [same], aside, fun c => settled.grounded (settled.guarded.classes c).inside⟩
  refine opens.readProperty ⟨copied.plain, copied.bound, copied.yields⟩ alike name.line fuel ?_
  rw [← same, ← heap] at held
  have ready := sound.getter_ready held copy name.line n'
  rw [heap] at ready
  refine history_clears settled sound heap ready (settled.guarded.functions _) fun e member => ?_
  exact inside e (List.mem_append_left _ member)

/-! New instances. -/

namespace Heap

variable {h h' : Heap} {c : Ref .cls} {name : String} {cell : Cell}

theorem constructor?_of_classes (classes : h'.classes = h.classes) (c : Ref .cls) :
    h'.constructor? c = h.constructor? c := by
  simp only [constructor?, findMethod?, lineage_of_classes classes, cls_of_classes classes]

theorem findField?_own (found : (h.cls c).fields.find? name = some cell) : h.findField? c name = some cell := by
  obtain ⟨above, line⟩ : ∃ above, h.lineage c = c :: above := ⟨_, rfl⟩
  rw [findField?, line, List.findSome?_cons, found]

/-- A computed field of a class and the copy that an instance has of it, for its class to be read in its place. -/
structure HasCopy (h : Heap) (c : Ref .cls) (o : Ref .object) (name : String) (cell own : Cell) (p q : Ref .property)
    (body : List Stmt) (receiver closure : Ref .scope) : Prop where
  field : h.findField? c name = some cell
  instances : cell.modifiers.static = false
  computed : cell.content = .computed p
  held : (h.object o).fields.find? name = some own
  copy : own.content = .computed q
  copied : h.Copied o body receiver closure p q
  alike : (h.property p).Alike (h.property q)

end Heap

/-- A call of a class without templates and without a constructor fails before anything has happened, or there is a new
instance at its end. This has a copy of each computed field that the class declares itself, unless the type of the field
has come to mean another one. -/
theorem new_instance_copies {H : List Event} {m : Machine} {t : Task} {x : Construction} (reached : Reached H m)
    (ended : t.ended ∈ H) (constructs : t.construction? = some x) (bare : x.form.templates = [])
    (plain : x.machine.heap.constructor? x.cls = none) :
    (∃ fault, x.plan = .done (.error (.fault fault) x.machine)) ∨
      ∀ name cell p body closure, x.machine.heap.Computes x.cls name cell p body closure →
        (∀ later, (Evaluator.bareInstance x.machine.heap x.cls none).Adds later →
          cell.declared.map (later.resolveType · x.form.scope) = cell.declared) →
            ∃ own q receiver, t.ended.machine.heap.HasCopy x.cls ⟨x.machine.heap.objects.size⟩ name cell own p q body
              receiver closure := by
  obtain ⟨-, last⟩ := Task.splits_of_construction constructs
  rw [Construction.plan] at last ⊢
  rcases Evaluator.construct_copies bare x.args x.generics x.line with failed | ⟨n, made, classes, copies⟩
  · exact .inl failed
  right
  obtain ⟨outcome, done, same⟩ := Evaluator.runConstructor_none (o := ⟨x.machine.heap.objects.size⟩)
    ((Heap.constructor?_of_classes classes x.cls).trans plain) x.args x.line
  rw [made, done] at last
  have heap : t.ended.machine.heap = n.heap := (congrArg Machine.heap last).trans same
  have cls : n.heap.cls x.cls = x.form := Heap.cls_of_classes classes x.cls
  have among : t.ended.machine ∈ moments H m := List.mem_append_left _ (List.mem_map_of_mem ended)
  obtain ⟨earlier, later, moment⟩ := List.append_of_mem among
  obtain ⟨before, w, -, -, -, stocked⟩ := reached.stocked moment
  rw [heap] at stocked ⊢
  have distinct := (stocked.checked x.cls).distinct
  rw [cls] at distinct
  intro name cell p body closure computes means
  obtain ⟨own, q, receiver, held, copy, copied, alike⟩ := copies distinct name cell p body closure computes means
  refine ⟨own, q, receiver, Heap.findField?_own ?_, computes.instances, computes.computed, held, copy, copied, alike⟩
  rw [cls]
  exact computes.field

/-- The property of a computed field, with the code of its getter and the scope that this closes over. -/
def Heap.computed? (h : Heap) (c : Ref .cls) (name : String) :
    Option (Cell × Ref .property × List Stmt × Ref .scope) :=
  match (h.cls c).fields.find? name with
  | some ⟨.computed p, modifiers, declared⟩ =>
    match (h.function (h.property p).getter).body with
    | .user body closure =>
      if modifiers.static = false ∧ (h.property p).declared = declared ∧ p.index < h.properties.size ∧
          (h.property p).getter.index < h.functions.size ∧ (h.function (h.property p).getter).constructs = false then
        some (⟨.computed p, modifiers, declared⟩, p, body, closure)
      else none
    | _ => none
  | _ => none

theorem Heap.computes_of_computed {h : Heap} {c : Ref .cls} {name : String} {cell : Cell} {p : Ref .property}
    {body : List Stmt} {closure : Ref .scope} (computed : h.computed? c name = some (cell, p, body, closure)) :
    h.Computes c name cell p body closure := by
  unfold computed? at computed
  split at computed
  · rename_i found
    split at computed
    · rename_i user
      split at computed
      · rename_i checked
        cases computed
        obtain ⟨own, declared, inside, getter, yields⟩ := checked
        exact ⟨found, own, rfl, declared, inside, getter, user, yields⟩
      · cases computed
    · cases computed
  · cases computed

def Outcome.string? : Outcome Value → Option String
  | .ok value _ => value.string?
  | .error .. => none

/-- A class with a property whose getter uses a variable of its own and a global one, and an instance of it. -/
def growingSource : String :=
  "\x7b class C \x7b string p \x7b get \x7b var k = \"a\"; \x7b print(k); k = k + \"a\"; \x7d " ++
    "return k; \x7d \x7d \x7d C(); \x7d"

set_option maxRecDepth 100000 in
theorem class_read_as_instance_growing :
    ∃ (H : List Event) (m n : Machine) (c : Ref .cls) (o : Ref .object) (receiver closure : Ref .scope),
      Reached H m ∧ n ∈ moments H m ∧
        (Evaluator.getMember (.cls c) ⟨"p", 1⟩ false n).outcome (perform 8) =
          Detour.outcome ⟨⟨n.heap.scopes.size⟩, receiver, closure⟩
            ((Evaluator.readWarned c o ⟨"p", 1⟩ n).outcome (perform 8)) ∧
        ((Evaluator.readWarned c o ⟨"p", 1⟩ n).outcome (perform 8)).string? = some "aa" := by
  have found : finds growingSource 12 Task.constructions (fun _ (t, x) =>
      x.form.templates = [] ∧ x.machine.heap.constructor? x.cls = none ∧
        x.machine.heap.objects.size < t.ended.machine.heap.objects.size ∧
        (x.machine.heap.computed? x.cls "p").any (fun y => y.1.declared = some .string) ∧
        let read := Evaluator.readWarned x.cls ⟨x.machine.heap.objects.size⟩ ⟨"p", 1⟩ t.ended.machine
        (∀ e ∈ read.events (perform 8) (history 8), ¬e.Passes ⟨t.ended.machine.heap.scopes.size⟩) ∧
          (read.outcome (perform 8)).string? = some "aa") = true := by
    decide +kernel
  obtain ⟨whole, ⟨t, x⟩, member, checked, run⟩ := finds_run found
  obtain ⟨contains, constructs⟩ := Task.of_mem_constructions member
  have performs := run t contains
  obtain ⟨bare, plain, grown, computed, inside, value⟩ := of_decide_eq_true checked
  obtain ⟨⟨cell, p, body, closure⟩, field, typed⟩ := Option.any_eq_true .. |>.mp computed
  have ended : t.ended ∈ whole.history := performs.happens.subset t.ended_mem
  rcases new_instance_copies performs.reached ended constructs bare plain with ⟨fault, failed⟩ | copies
  · have last := (Task.splits_of_construction constructs).2
    rw [failed] at last
    rw [last] at grown
    exact absurd grown (Nat.lt_irrefl _)
  have means (later : Heap) : cell.declared.map (later.resolveType · x.form.scope) = cell.declared := by
    rw [of_decide_eq_true typed]
    exact congrArg some (Heap.resolveType_of_not_name (by decide) later _)
  obtain ⟨own, q, receiver, has⟩ := copies "p" cell p body closure (Heap.computes_of_computed field)
    fun later _ => means later
  have moment : t.ended.machine ∈ moments whole.history whole.outcome.machine :=
    List.mem_append_left _ (List.mem_map_of_mem ended)
  exact ⟨_, _, _, x.cls, _, receiver, closure, performs.reached, moment,
    class_read_as_instance performs.reached moment has.field has.instances has.computed has.held has.copy has.copied
      has.alike 8 inside, value⟩

end Treewalk
