import Treewalk.Eval.Sequence
import Treewalk.Proofs.Safety
import Treewalk.Proofs.Paired

/-!
Plans of two machines that are tied together. They match if the machines stay tied as far as the plans work by
themselves, ask for activities that match, and go on with whatever such activities may come to. The rules of
this module take two computations apart in the order in which they are written; most often the two are the
same one.
-/

namespace Treewalk

namespace Tie

/-- What comes of two activities that go on side by side. One run may be out of fuel before the other if the
pace allows for that, and then nothing is said about the other. -/
inductive Agree (T : Tie) (h : Heap) (r : Ref .scope) (R : Heap → α → α → Prop) :
    Outcome α → Outcome α → Prop where
  | ok {m : Machine} {S : Array Scope} {e : String} {a a' : α} (held : T.Holds m S e)
      (later : h.Extends m.heap) (scope : m.scope = r) (result : R m.heap a a') :
      Agree T h r R (.ok a m) (.ok a' (m.beside S e))
  | error {m : Machine} {S : Array Scope} {e : String} (reason : Stop) (held : T.Holds m S e)
      (later : h.Extends m.heap) (scope : m.scope = r) :
      Agree T h r R (.error reason m) (.error reason (m.beside S e))
  | first {m : Machine} {outcome : Outcome α} (ahead : T.pace = .first) :
      Agree T h r R (.error .outOfFuel m) outcome
  | second {m : Machine} {outcome : Outcome α} (ahead : T.pace = .second) :
      Agree T h r R outcome (.error .outOfFuel m)

abbrev Same : Heap → α → α → Prop :=
  fun _ a a' => a' = a

def Ready (T : Tie) (h : Heap) : Activity → Prop
  | .call f _ _ _ => T.Bears h f
  | .text _ => True
  | .expr _ | .stmt _ => False

end Tie

/-- How much fuel the two runs have. They use it up together, unless the pace allows that one of them is out of
it before the other. -/
inductive Pace.Fuels (pace : Pace) : Nat → Nat → Prop where
  | first {fuel : Nat} (ahead : pace = .first) : Fuels pace 0 fuel
  | second {fuel : Nat} (ahead : pace = .second) : Fuels pace fuel 0
  | out : Fuels pace 0 0
  | more {fuel fuel' : Nat} (less : Fuels pace fuel fuel') : Fuels pace (fuel + 1) (fuel' + 1)

theorem Pace.Fuels.refl (pace : Pace) (fuel : Nat) : pace.Fuels fuel fuel := by
  induction fuel with
  | zero => exact .out
  | succ fuel ih => exact .more ih

inductive Plan.Matched (T : Tie) (h : Heap) (r : Ref .scope) (R : Heap → α → α → Prop) :
    Plan α → Plan α → Prop where
  | done {outcome outcome' : Outcome α} (agree : T.Agree h r R outcome outcome') :
      Matched T h r R (.done outcome) (.done outcome')
  | first {m : Machine} {plan : Plan α} (ahead : T.pace = .first) :
      Matched T h r R (.done (.error .outOfFuel m)) plan
  | second {m : Machine} {plan : Plan α} (ahead : T.pace = .second) :
      Matched T h r R plan (.done (.error .outOfFuel m))
  | expr {seat : Seat} {e e' : Expr} {m : Machine} {S : Array Scope} {err : String}
      {next next' : Outcome Value → Plan α} (held : T.Holds m S err) (later : h.Extends m.heap)
      (seated : T.Seated m.heap seat m.scope) (paired : Paired seat (.expr e) (.expr e'))
      (resume : ∀ outcome outcome', T.Agree m.heap m.scope Tie.Same outcome outcome' →
        Matched T h r R (next outcome) (next' outcome')) :
      Matched T h r R (.ask (.expr e) m next) (.ask (.expr e') (m.beside S err) next')
  | stmt {seat : Seat} {s s' : Stmt} {m : Machine} {S : Array Scope} {err : String}
      {next next' : Outcome Signal → Plan α} (held : T.Holds m S err) (later : h.Extends m.heap)
      (seated : T.Seated m.heap seat m.scope) (paired : Paired seat (.stmt s) (.stmt s'))
      (resume : ∀ outcome outcome', T.Agree m.heap m.scope Tie.Same outcome outcome' →
        Matched T h r R (next outcome) (next' outcome')) :
      Matched T h r R (.ask (.stmt s) m next) (.ask (.stmt s') (m.beside S err) next')
  | ask {a : Activity} {m : Machine} {S : Array Scope} {err : String}
      {next next' : Outcome a.Result → Plan α} (held : T.Holds m S err) (later : h.Extends m.heap)
      (ready : T.Ready m.heap a)
      (resume : ∀ outcome outcome', T.Agree m.heap m.scope Tie.Same outcome outcome' →
        Matched T h r R (next outcome) (next' outcome')) :
      Matched T h r R (.ask a m next) (.ask a (m.beside S err) next')

variable {T : Tie} {h h' : Heap} {r : Ref .scope} {seat : Seat} {α β : Type}
  {R : Heap → α → α → Prop} {Q : Heap → β → β → Prop}

namespace Tie.Agree

theorem after {outcome outcome' : Outcome α} (later : h.Extends h') (agree : T.Agree h' r R outcome outcome') :
    T.Agree h r R outcome outcome' := by
  cases agree with
  | ok held further scope result => exact .ok held (later.trans further) scope result
  | error reason held further scope => exact .error reason held (later.trans further) scope
  | first ahead => exact .first ahead
  | second ahead => exact .second ahead

theorem weaken {R' : Heap → α → α → Prop} {outcome outcome' : Outcome α} (agree : T.Agree h r R outcome outcome')
    (weaker : ∀ h' a a', T.Guarded h' → R h' a a' → R' h' a a') : T.Agree h r R' outcome outcome' := by
  cases agree with
  | ok held later scope result => exact .ok held later scope (weaker _ _ _ held.guarded result)
  | error reason held later scope => exact .error reason held later scope
  | first ahead => exact .first ahead
  | second ahead => exact .second ahead

end Tie.Agree

namespace Plan.Matched

theorem after {plan plan' : Plan α} (later : h.Extends h') (matched : Matched T h' r R plan plan') :
    Matched T h r R plan plan' := by
  induction matched with
  | done agree => exact .done (agree.after later)
  | first ahead => exact .first ahead
  | second ahead => exact .second ahead
  | expr held further seated paired _ ih => exact .expr held (later.trans further) seated paired ih
  | stmt held further seated paired _ ih => exact .stmt held (later.trans further) seated paired ih
  | ask held further ready _ ih => exact .ask held (later.trans further) ready ih

/-- One plan after another. What goes on must not take up that the fuel has run out. -/
theorem andThen {plan plan' : Plan α} {f f' : Outcome α → Plan β} {inner : Ref .scope}
    (matched : Matched T h inner R plan plan')
    (passes : ∀ m, ∃ m', f (.error .outOfFuel m) = .done (.error .outOfFuel m'))
    (passes' : ∀ m, ∃ m', f' (.error .outOfFuel m) = .done (.error .outOfFuel m'))
    (next : ∀ outcome outcome', T.Agree h inner R outcome outcome' →
      Matched T h r Q (f outcome) (f' outcome')) :
    Matched T h r Q (plan.andThen f) (plan'.andThen f') := by
  induction matched with
  | done agree => exact next _ _ agree
  | first ahead =>
    obtain ⟨m', lost⟩ := passes _
    rw [Plan.andThen, lost]
    exact .first ahead
  | second ahead =>
    obtain ⟨m', lost⟩ := passes' _
    rw [Plan.andThen, lost]
    exact .second ahead
  | expr held later seated paired _ ih => exact .expr held later seated paired ih
  | stmt held later seated paired _ ih => exact .stmt held later seated paired ih
  | ask held later ready _ ih => exact .ask held later ready ih

theorem weaken {R' : Heap → α → α → Prop} {plan plan' : Plan α} (matched : Matched T h r R plan plan')
    (weaker : ∀ h' a a', T.Guarded h' → R h' a a' → R' h' a a') : Matched T h r R' plan plan' := by
  induction matched with
  | done agree => exact .done (agree.weaken weaker)
  | first ahead => exact .first ahead
  | second ahead => exact .second ahead
  | expr held later seated paired _ ih => exact .expr held later seated paired ih
  | stmt held later seated paired _ ih => exact .stmt held later seated paired ih
  | ask held later ready _ ih => exact .ask held later ready ih

end Plan.Matched

/-- Two computations that go on side by side, from a heap on and in a scope. -/
def Tie.Matches (T : Tie) (h : Heap) (r : Ref .scope) (R : Heap → α → α → Prop) (c c' : Run α) : Prop :=
  ∀ m S e, T.Holds m S e → h.Extends m.heap → m.scope = r →
    Plan.Matched T m.heap r R (c m) (c' (m.beside S e))

namespace Tie.Matches

variable {c c' : Run α} {f f' : α → Run β}

theorem later (matches' : T.Matches h r R c c') (later : h.Extends h') : T.Matches h' r R c c' :=
  fun m S e held further scope => matches' m S e held (later.trans further) scope

theorem pure {a a' : α} (result : ∀ h', h.Extends h' → T.Guarded h' → R h' a a') :
    T.Matches h r R (Pure.pure a) (Pure.pure a') :=
  fun m _ _ held later scope => .done (.ok held (.refl _) scope (result m.heap later held.guarded))

theorem value (a : α) : T.Matches h r Same (Pure.pure a) (Pure.pure a) :=
  .pure fun _ _ _ => rfl

theorem stop (reason : Stop) : T.Matches h r R (Run.stop reason) (Run.stop reason) :=
  fun _ _ _ held _ scope => .done (.error reason held (.refl _) scope)

theorem lostFirst (ahead : T.pace = .first) : T.Matches h r R (Run.stop .outOfFuel) c' :=
  fun _ _ _ _ _ _ => .first ahead

theorem lostSecond (ahead : T.pace = .second) : T.Matches h r R c (Run.stop .outOfFuel) :=
  fun _ _ _ _ _ _ => .second ahead

theorem raise (line : Line) (fault : Fault) : T.Matches h r R (Run.raise line fault) (Run.raise line fault) :=
  stop _

theorem bind {P : Heap → α → α → Prop} {R : Heap → β → β → Prop} (first : T.Matches h r P c c')
    (next : ∀ h' a a', h.Extends h' → T.Guarded h' → P h' a a' → T.Matches h' r R (f a) (f' a')) :
    T.Matches h r R (c >>= f) (c' >>= f') := by
  intro m S e held later scope
  refine (first m S e held later scope).andThen (fun _ => ⟨_, rfl⟩) (fun _ => ⟨_, rfl⟩) ?_
  intro outcome outcome' agree
  cases agree with
  | ok held' further scope' result =>
    exact (next _ _ _ (later.trans further) held'.guarded result _ _ _ held' (.refl _) scope').after further
  | error reason held' further scope' => exact .done (.error reason held' further scope')
  | first ahead => exact .first ahead
  | second ahead => exact .second ahead

/-- The usual case: what comes first has the same result on both machines. -/
theorem andThen {R : Heap → β → β → Prop} (first : T.Matches h r Same c c')
    (next : ∀ h' a, h.Extends h' → T.Guarded h' → T.Matches h' r R (f a) (f' a)) :
    T.Matches h r R (c >>= f) (c' >>= f') :=
  first.bind fun h' a _ later guarded same => same ▸ next h' a later guarded

theorem map {g : α → β} {R : Heap → β → β → Prop} (first : T.Matches h r (fun h a a' => R h (g a) (g a')) c c') :
    T.Matches h r R (g <$> c) (g <$> c') := by
  intro m S e held later scope
  refine (first m S e held later scope).andThen (fun _ => ⟨_, rfl⟩) (fun _ => ⟨_, rfl⟩) ?_
  intro outcome outcome' agree
  cases agree with
  | ok held' further scope' result => exact .done (.ok held' further scope' result)
  | error reason held' further scope' => exact .done (.error reason held' further scope')
  | first ahead => exact .first ahead
  | second ahead => exact .second ahead

theorem weaken {R' : Heap → α → α → Prop} (matched : T.Matches h r R c c')
    (weaker : ∀ h' a a', T.Guarded h' → R h' a a' → R' h' a a') : T.Matches h r R' c c' :=
  fun m S e held later scope => (matched m S e held later scope).weaken weaker

theorem mapM {x : Option α} {f : α → Run β} (some : ∀ a ∈ x, T.Matches h r Same (f a) (f a)) :
    T.Matches h r Same (x.mapM f) (x.mapM f) := by
  cases x with
  | none => exact .value none
  | some a => exact map ((some a rfl).weaken fun _ _ _ _ same => by rw [same])

theorem orRaise (line : Line) (result : Except Fault α) :
    T.Matches h r Same (Run.orRaise line result) (Run.orRaise line result) := by
  cases result with
  | ok a => exact .value a
  | error fault => exact .raise line fault

theorem demand (holds : Bool) (line : Line) (fault : Fault) :
    T.Matches h r Same (Run.demand holds line fault) (Run.demand holds line fault) := by
  cases holds with
  | true => exact .value ()
  | false => exact .raise line fault

theorem ite {p : Prop} [Decidable p] {no no' : Run α} (holds : p → T.Matches h r R c c')
    (fails : ¬p → T.Matches h r R no no') :
    T.Matches h r R (if p then c else no) (if p then c' else no') := by
  by_cases decided : p
  · simpa [decided] using holds decided
  · simpa [decided] using fails decided

/-! What is read off the machine. -/

theorem get {f f' : Machine → Run β} (next : ∀ m S e, T.Holds m S e → h.Extends m.heap → m.scope = r →
    T.Matches m.heap r Q (f m) (f' (m.beside S e))) :
    T.Matches h r Q (MonadState.get >>= f) (MonadState.get >>= f') :=
  fun m S e held later scope => next m S e held later scope m S e held (.refl _) scope

theorem heap {f f' : Heap → Run β} (next : ∀ h' S, h.Extends h' → T.Guarded h' → T.Alike h' (h'.rescoped S) →
    T.Matches h' r Q (f h') (f' (h'.rescoped S))) :
    T.Matches h r Q (Run.heap >>= f) (Run.heap >>= f') :=
  fun m S e held later scope => next m.heap S later held.guarded held.alike m S e held (.refl _) scope

theorem readingIn {g : Heap → α} (same : ∀ h' S, h.Extends h' → T.Guarded h' → T.Alike h' (h'.rescoped S) →
    g (h'.rescoped S) = g h')
    (next : ∀ h', h.Extends h' → T.Guarded h' → T.Matches h' r Q (f (g h')) (f' (g h'))) :
    T.Matches h r Q (Run.reading g >>= f) (Run.reading g >>= f') := by
  intro m S e held later scope
  have both := next m.heap later held.guarded m S e held (.refl _) scope
  change Plan.Matched T m.heap r Q (f (g m.heap) m) (f' (g (m.heap.rescoped S)) (m.beside S e))
  rw [same m.heap S later held.guarded held.alike]
  exact both

theorem reading {g : Heap → α} (same : ∀ h S, g (h.rescoped S) = g h)
    (next : ∀ h', h.Extends h' → T.Guarded h' → T.Matches h' r Q (f (g h')) (f' (g h'))) :
    T.Matches h r Q (Run.reading g >>= f) (Run.reading g >>= f') :=
  readingIn (fun h' S _ _ _ => same h' S) next

theorem currentScope {f f' : Ref .scope → Run β} (next : T.Matches h r Q (f r) (f' r)) :
    T.Matches h r Q (Run.currentScope >>= f) (Run.currentScope >>= f') := by
  intro m S e held later scope
  subst scope
  exact next m S e held later rfl

theorem inGlobalScope {f f' : Bool → Run β} (next : ∀ global, T.Matches h r Q (f global) (f' global)) :
    T.Matches h r Q (Run.inGlobalScope >>= f) (Run.inGlobalScope >>= f') := by
  intro m S e held later scope
  have both := next (m.heap.isGlobal m.scope) m S e held later scope
  have same : (m.heap.rescoped S).isGlobal m.scope = m.heap.isGlobal m.scope := held.alike.isGlobal m.scope
  change Plan.Matched T m.heap r Q (f (m.heap.isGlobal m.scope) m)
    (f' ((m.heap.rescoped S).isGlobal m.scope) (m.beside S e))
  rw [same]
  exact both

/-! What is done to the machine. -/

theorem step {P : Heap → α → α → Prop}
    (both : ∀ m S e, T.Holds m S e → h.Extends m.heap → m.scope = r → ∃ a a' m' S' e',
      c m = .done (.ok a m') ∧ c' (m.beside S e) = .done (.ok a' (m'.beside S' e')) ∧ T.Holds m' S' e' ∧
        m.heap.Extends m'.heap ∧ m'.scope = r ∧ P m'.heap a a') : T.Matches h r P c c' := by
  intro m S e held later scope
  obtain ⟨a, a', m', S', e', left, right, held', further, scope', result⟩ := both m S e held later scope
  rw [left, right]
  exact .done (.ok held' further scope' result)

theorem allocate {g : Heap → α × Heap} (same : ∀ h S, g (h.rescoped S) = ((g h).1, (g h).2.rescoped S))
    (scopes : ∀ h, (g h).2.scopes = h.scopes)
    (guards : ∀ h', h.Extends h' → T.Guarded h' → T.Guarded (g h').2) :
    T.Matches h r Same (Run.allocate g) (Run.allocate g) := by
  refine step fun m S e held later scope => ⟨(g m.heap).1, (g m.heap).1, { m with heap := (g m.heap).2 }, S, e,
    rfl, ?_, ⟨held.err, held.alike.of_scopes (scopes _), guards m.heap later held.guarded, ?_⟩,
    .of_scopes (scopes _), scope, rfl⟩
  · change Plan.done (EStateM.Result.ok (g (m.heap.rescoped S)).1
      { m.beside S e with heap := (g (m.heap.rescoped S)).2 }) = _
    rw [same]
    rfl
  · change m.scope.index < (g m.heap).2.scopes.size
    rw [scopes]
    exact held.scope

theorem update {g : Heap → Heap} (same : ∀ h S, g (h.rescoped S) = (g h).rescoped S)
    (scopes : ∀ h, (g h).scopes = h.scopes)
    (guards : ∀ h', h.Extends h' → T.Guarded h' → T.Guarded (g h')) :
    T.Matches h r Same (Run.update g) (Run.update g) :=
  allocate (g := fun h => ((), g h)) (fun h S => by rw [same]) scopes guards

theorem addFunction {g : Function} (bears : T.Bears h g) :
    T.Matches h r Same (Run.allocate (·.addFunction g)) (Run.allocate (·.addFunction g)) :=
  allocate (fun _ _ => rfl) (fun _ => rfl) fun _ later guarded => guarded.addFunction (bears.mono later)

theorem addScope {s : Scope} {P : Heap → Ref .scope → Prop} (around : ∀ p ∈ s.enclosing, p.index < h.scopes.size)
    (made : ∀ h', h.Extends h' → T.Guarded h' → P (h'.addScope s).2 ⟨h'.scopes.size⟩) :
    T.Matches h r (fun h' a a' => a' = a ∧ P h' a) (Run.allocate (·.addScope s))
      (Run.allocate (·.addScope s)) := by
  refine step fun m S e held later scope => ⟨_, _, { m with heap := (m.heap.addScope s).2 }, S.push s, e, rfl, rfl,
    ⟨held.err, ?_, ?_, ?_⟩, .addScope _ s, scope, ?_, ?_⟩
  · exact held.alike.addScope held.guarded s
  · exact held.guarded.addScope fun p member => Nat.lt_of_lt_of_le (around p member) later.scopes
  · exact Nat.lt_of_lt_of_le held.scope (Heap.Extends.addScope m.heap s).scopes
  · have size : S.size = m.heap.scopes.size := held.alike.size
    change (⟨S.size⟩ : Ref .scope) = ⟨m.heap.scopes.size⟩
    rw [size]
  · exact made m.heap later held.guarded

/-- A new scope inside the current one is a seat inside the current seat. -/
theorem addInner {s : Scope} (seated : T.Seated h seat r) (around : s.enclosing = some r) :
    T.Matches h r (fun h' a a' => a' = a ∧ T.Seated h' seat.inner a) (Run.allocate (·.addScope s))
      (Run.allocate (·.addScope s)) := by
  refine addScope (fun p member => ?_) fun h' later guarded => (seated.mono later).child guarded around
  rw [around] at member
  cases member
  exact seated.inside

theorem addClear {s : Scope} (around : ∀ p ∈ s.enclosing, T.Clear h p) :
    T.Matches h r (fun h' a a' => a' = a ∧ T.Clear h' a) (Run.allocate (·.addScope s))
      (Run.allocate (·.addScope s)) :=
  addScope (fun p member => (around p member).inside) fun _ later guarded =>
    .child guarded fun p member => (around p member).mono later

theorem define {name : String} {target target' : Ref .scope} (stores : T.Stores name target target') (cell : Cell) :
    T.Matches h r Same (Run.update (·.define target name cell)) (Run.update (·.define target' name cell)) := by
  refine step fun m S e held later scope => ⟨_, _, { m with heap := m.heap.define target name cell },
    ((m.heap.rescoped S).define target' name cell).scopes, e, rfl, rfl, ⟨held.err, ?_, ?_, ?_⟩, .define _ _ _ _, scope, rfl⟩
  · exact held.alike.define held.guarded stores cell
  · exact held.guarded.define target name cell
  · exact Nat.lt_of_lt_of_le held.scope (Heap.Extends.define m.heap target name cell).scopes

theorem printOut (text : String) : T.Matches h r Same (Run.printOut text) (Run.printOut text) :=
  step fun _ S e held _ scope =>
    ⟨_, _, _, S, e, rfl, rfl, ⟨held.err, held.alike, held.guarded, held.scope⟩, .refl _, scope, rfl⟩

theorem readClock : T.Matches h r Same Run.readClock Run.readClock :=
  step fun _ S e held _ scope =>
    ⟨_, _, _, S, e, rfl, rfl, ⟨held.err, held.alike, held.guarded, held.scope⟩, .refl _, scope, rfl⟩

theorem printErr (text : String) : T.Matches h r Same (Run.printErr text) (Run.printErr text) := by
  refine step fun m S e held _ scope =>
    ⟨_, _, _, S, e ++ text, rfl, rfl, ⟨?_, held.alike, held.guarded, held.scope⟩, .refl _, scope, rfl⟩
  obtain ⟨written, first, second⟩ := held.err
  exact ⟨written ++ text, by simp [first, String.append_assoc], by rw [second, String.append_assoc]⟩

theorem warn (line : Line) (notice : Notice) :
    T.Matches h r Same (Run.warn line notice) (Run.warn line notice) := by
  let text := (⟨notice, line⟩ : Warning).text
  refine step fun m S e held _ scope => ⟨_, _, _, S, if m.echo then e ++ text ++ "\n" else e, rfl, rfl,
    ⟨?_, held.alike, held.guarded, held.scope⟩, .refl _, scope, rfl⟩
  obtain ⟨written, first, second⟩ := held.err
  change ∃ more, (if m.echo then m.err ++ text ++ "\n" else m.err) = _ ∧ _
  cases m.echo with
  | true => exact ⟨written ++ text ++ "\n", by simp [first, String.append_assoc], by simp [second, String.append_assoc]⟩
  | false => exact ⟨written, first, second⟩

/-! What is asked for, and computations around others. -/

theorem eval {e e' : Expr} (seated : T.Seated h seat r) (paired : Paired seat (.expr e) (.expr e')) :
    T.Matches h r Same (Run.eval e) (Run.eval e') := by
  intro m S err held later scope
  subst scope
  exact .expr held (.refl _) (seated.mono later) paired fun _ _ agree => .done agree

theorem exec {s s' : Stmt} (seated : T.Seated h seat r) (paired : Paired seat (.stmt s) (.stmt s')) :
    T.Matches h r Same (Run.exec s) (Run.exec s') := by
  intro m S err held later scope
  subst scope
  exact .stmt held (.refl _) (seated.mono later) paired fun _ _ agree => .done agree

theorem call {f : Function} (bears : T.Bears h f) (args generics : List Value) (line : Line) :
    T.Matches h r Same (Run.call f args generics line) (Run.call f args generics line) := by
  intro m S err held later scope
  subst scope
  exact .ask held (.refl _) (bears.mono later) fun _ _ agree => .done agree

theorem spell (value : Value) : T.Matches h r Same (Run.spell value) (Run.spell value) := by
  intro m S err held later scope
  subst scope
  exact .ask held (.refl _) trivial fun _ _ agree => .done agree

theorem inScope {inner : Ref .scope} (inside : inner.index < h.scopes.size)
    (body : T.Matches h inner R c c') : T.Matches h r R (Run.inScope inner c) (Run.inScope inner c') := by
  intro m S e held later scope
  subst scope
  have there : T.Holds { m with scope := inner } S e :=
    ⟨held.err, held.alike, held.guarded, Nat.lt_of_lt_of_le inside later.scopes⟩
  refine (body { m with scope := inner } S e there later rfl).andThen (fun _ => ⟨_, rfl⟩) (fun _ => ⟨_, rfl⟩) ?_
  intro outcome outcome' agree
  have back {after : Machine} {S' : Array Scope} {e' : String} (held' : T.Holds after S' e')
      (further : m.heap.Extends after.heap) : T.Holds { after with scope := m.scope } S' e' :=
    ⟨held'.err, held'.alike, held'.guarded, Nat.lt_of_lt_of_le held.scope further.scopes⟩
  cases agree with
  | ok held' further scope' result => exact .done (.ok (back held' further) further rfl result)
  | error reason held' further scope' => exact .done (.error reason (back held' further) further rfl)
  | first ahead => exact .first ahead
  | second ahead => exact .second ahead

theorem catching {handler handler' : RuntimeError → Run α} (body : T.Matches h r R c c')
    (next : ∀ fault h', h.Extends h' → T.Matches h' r R (handler fault) (handler' fault)) :
    T.Matches h r R (Run.catching c handler) (Run.catching c' handler') := by
  intro m S e held later scope
  refine (body m S e held later scope).andThen (fun _ => ⟨_, rfl⟩) (fun _ => ⟨_, rfl⟩) ?_
  intro outcome outcome' agree
  cases agree with
  | ok held' further scope' result => exact .done (.ok held' further scope' result)
  | error reason held' further scope' =>
    cases reason with
    | fault raised =>
      exact (next raised _ (later.trans further) _ _ _ held' (.refl _) scope').after further
    | crash | outOfFuel => exact .done (.error _ held' further scope')
  | first ahead => exact .first ahead
  | second ahead => exact .second ahead

end Tie.Matches

end Treewalk
