import Treewalk.Eval.Call
import Treewalk.Proofs.SafeCell

/-!
Binding and calling functions. A method that is bound gets the one scope that it lacks, between its body
and the scope of its class or the twin of that scope which its receiver has; a call opens the scope of
the function itself.
-/

namespace Treewalk

open Scoping Plan

namespace Heap

theorem argumentCell_ok {h : Heap} {function : String} {closure : Ref .scope} {param : Param}
    {value : Value} {cell : Cell} (done : h.argumentCell function closure param value = .ok cell) :
    cell.content = .plain value ∧ h.Admits cell := by
  unfold argumentCell at done
  simp only at done
  split at done
  · rename_i conforms
    obtain ⟨_, ranged, done⟩ := bind_eq_ok.mp done
    cases done
    refine ⟨rfl, fun held same => ?_⟩
    cases same
    exact ⟨fun t declared => by cases declared; exact .inr conforms, admits_of_checkRange ranged⟩
  · cases done

/-- A cell for the parameters is one that was there, or holds an argument that it admits. -/
theorem argumentCells_find? {h : Heap} {function : String} {closure : Ref .scope} {params : List Param}
    {values : List Value} {cells result : NameMap Cell}
    (done : h.argumentCells function closure params values cells = .ok result) {name : String}
    {cell : Cell} (found : result.find? name = some cell) :
    cells.find? name = some cell ∨
      (∃ value ∈ values, cell.content = .plain value) ∧ h.Admits cell := by
  fun_induction argumentCells h function closure params values cells with
  | case1 param params value values cells ih =>
    obtain ⟨own, checked, rest⟩ := bind_eq_ok.mp done
    rcases ih own rest with earlier | ⟨⟨other, member, plain⟩, admits⟩
    · rw [NameMap.find?_insert] at earlier
      split at earlier
      · cases earlier
        obtain ⟨plain, admits⟩ := argumentCell_ok checked
        exact .inr ⟨⟨value, by simp, plain⟩, admits⟩
      · exact .inl earlier
    · exact .inr ⟨⟨other, by simp [member], plain⟩, admits⟩
  | case2 => cases done; exact .inl found

theorem argumentCells_contains {h : Heap} {function : String} {closure : Ref .scope}
    {params : List Param} {values : List Value} {cells result : NameMap Cell}
    (done : h.argumentCells function closure params values cells = .ok result)
    (count : params.length = values.length) (name : String) :
    result.contains name = true ↔ cells.contains name = true ∨ ∃ param ∈ params, param.name.text = name := by
  fun_induction argumentCells h function closure params values cells with
  | case1 param params value values cells ih =>
    obtain ⟨own, checked, rest⟩ := bind_eq_ok.mp done
    rw [ih own rest (by simpa using count), NameMap.contains_insert]
    simp only [Bool.or_eq_true, decide_eq_true_eq, List.mem_cons, exists_eq_or_imp]
    grind
  | case2 params values cells other =>
    cases done
    cases params with
    | nil => simp
    | cons param rest =>
      cases values with
      | nil => cases count
      | cons value values => exact absurd rfl (other param rest value values rfl)

end Heap

namespace World

variable {view : View} {k : Permit} {w w' : World}

def Untouched (w w' : World) : Prop :=
  w'.heap.classes = w.heap.classes ∧ w'.heap.objects = w.heap.objects

theorem Untouched.refl (w : World) : w.Untouched w :=
  ⟨rfl, rfl⟩

theorem Untouched.trans {w'' : World} (first : w.Untouched w') (second : w'.Untouched w'') :
    w.Untouched w'' :=
  ⟨second.1.trans first.1, second.2.trans first.2⟩

theorem here?_opened (w : World) (site : Site) (s : Scope) (name : String) :
    (w.opened site s).heap.here? ⟨w.heap.scopes.size⟩ name = s.names.find? name := by
  rw [opened, Heap.here?_addScope, if_pos rfl]

theorem scope_opened (w : World) (site : Site) (s : Scope) :
    (w.opened site s).heap.scope ⟨w.heap.scopes.size⟩ = s := by
  rw [opened, Heap.scope_addScope, if_pos rfl]

/-- A new scope is an instance of a level if it has the names of the level. -/
theorem realizes_opened (sound : w.Sound view) {l : Scoping.Level} {s : Scope}
    (names : ∀ name, l.frame.contains name = true → (s.names.find? name).isSome = true) :
    (w.opened l.site s).Realizes l ⟨w.heap.scopes.size⟩ := by
  refine ⟨siteOf?_opened sound l.site s, ?_, fun name found _ => ?_⟩
  · intro same
    have positive := sound.globals
    rw [Ref.globals, Ref.mk.injEq] at same
    omega
  · rw [here?_opened]
    exact names name found

theorem stands_opened (sound : w.Sound view) {l : Scoping.Level} {rest : List Scoping.Level} {s : Scope}
    {outer : Ref .scope} (around : s.enclosing = some outer) (stands : w.Stands rest outer)
    (names : ∀ name, l.frame.contains name = true → (s.names.find? name).isSome = true) :
    (w.opened l.site s).Stands (l :: rest) ⟨w.heap.scopes.size⟩ :=
  ⟨realizes_opened sound names, outer, by rw [scope_opened, around],
    stands.mono (leads_opened .any w l.site s)⟩

theorem roomy_opened {l : Scoping.Level} {rest : List Scoping.Level} {s : Scope}
    (names : ∀ name, (s.names.find? name).isSome = true → l.frame.contains name = true) :
    (w.opened l.site s).Roomy (l :: rest) ⟨w.heap.scopes.size⟩ := by
  intro head member name bound
  cases member
  rw [here?_opened] at bound
  exact names name bound

/-- The twin of the scope of a class stands where that scope stands. -/
theorem Stands.twin {levels : List Scoping.Level} {r twin : Ref .scope} {decl : ClassDecl}
    (sound : w.Sound view) (stands : w.Stands levels r) (inner : r ≠ .globals)
    (twinInner : twin ≠ .globals) (site : w.siteOf? r = some (.cls decl))
    (twinSite : w.siteOf? twin = some (.cls decl))
    (around : (w.heap.scope twin).enclosing = (w.heap.scope r).enclosing) : w.Stands levels twin := by
  cases levels with
  | nil => exact absurd stands inner
  | cons l rest =>
    obtain ⟨real, outer, enclosing, further⟩ := stands
    refine ⟨⟨?_, twinInner, fun name found settled => ?_⟩, outer, around.trans enclosing, further⟩
    · rw [twinSite, ← site, real.site]
    · rw [sound.classScopes twin decl twinSite, ← sound.classScopes r decl site]
      exact real.binds name found settled

/-- The scope inside which a function is bound stands where the closure of the function does. -/
theorem Stands.scopeWithin {levels : List Scoping.Level} {closure : Ref .scope} {receiver : Value}
    (sound : w.Sound view) (known : w.Known view receiver) (stands : w.Stands levels closure) :
    w.Stands levels (w.heap.scopeWithin receiver closure) := by
  cases receiver with
  | object o =>
    simp only [Heap.scopeWithin]
    cases found : w.heap.scopeFor? o closure with
    | none => exact stands
    | some seen =>
      unfold Heap.scopeFor? at found
      simp only at found
      split at found
      · rename_i same
        obtain ⟨seenInner, inner, around, decl, own, shared⟩ :=
          (sound.objects o known).scope seen (Option.mem_def.mpr found)
        rw [same] at inner around shared
        exact stands.twin sound inner seenInner shared own around
      · cases found
  | _ => exact stands

theorem Sound.ancestor (sound : w.Sound view) {c ancestor : Ref .cls}
    (inside : c.index < w.heap.classes.size) (member : ancestor ∈ w.heap.lineage c) :
    w.ClassKnown view (w.heap.cls ancestor) :=
  sound.classes ancestor (Heap.lineageFrom_inside sound.linked _ inside member)

theorem Sound.methodKnown (sound : w.Sound view) {c : Ref .cls} (inside : c.index < w.heap.classes.size)
    {name : String} {method : Ref .function} (found : w.heap.findMethod? c name = some method) :
    w.MethodKnown view (name, method) := by
  obtain ⟨ancestor, member, own⟩ := List.exists_of_findSome?_eq_some found
  exact (sound.ancestor inside member).methods _ (NameMap.mem_of_find? own)

theorem Sound.findMethod? (sound : w.Sound view) {c : Ref .cls} (inside : c.index < w.heap.classes.size)
    {name : String} {method : Ref .function} (found : w.heap.findMethod? c name = some method) :
    w.FunctionIs (w.Awaits view) method :=
  (sound.methodKnown inside found).1

def MakesThis (w : World) (f : Function) (receiver : Value) : Prop :=
  f.constructs = true ∧ ∃ body scope, f.body = .user body scope ∧
    w.heap.here? scope "this" = some (.ofValue receiver)

end World

namespace Evaluator

variable {view : View} {k : Permit} {w : World} {m : Machine}

theorem contains_this {name : String} :
    (frameOf ["this"]).contains name = true ↔ name = "this" := by
  simp [frameOf, NameMap.contains_insert, NameMap.contains_empty]

theorem bind_safe {f : Function} {receiver : Value} (stage : Stage view k w m)
    (awaits : w.Awaits view f) (known : w.Known view receiver) (receives : receiver.Receives) :
    Safe view k m.scope (fun w' bound => w'.Closed view bound ∧ w.Untouched w' ∧
      (f.Constructs → w'.MakesThis bound receiver)) w (bind f receiver m) := by
  unfold World.Awaits at awaits
  unfold Evaluator.bind
  cases body : f.body with
  | native native _ =>
    rw [body] at awaits
    refine .pure stage ⟨fun _ => awaits, .refl w, fun ⟨_, _, _, user⟩ => ?_⟩
    rw [body] at user
    cases user
  | missing =>
    refine .pure stage ⟨by simp [World.Closed, body], .refl w, fun ⟨_, _, _, user⟩ => ?_⟩
    rw [body] at user
    cases user
  | user statements closure =>
    rw [body] at awaits
    obtain ⟨p, role, decl, owner, rest, stands, same, params, levels, around⟩ := awaits
    let names := NameMap.empty.insert "this" (Cell.ofValue receiver)
    let scope : Scope := ⟨some (w.heap.scopeWithin receiver closure), names⟩
    have only (name : String) (cell : Cell) (found : names.find? name = some cell) :
        name = "this" ∧ cell = Cell.ofValue receiver := by
      simp only [names, NameMap.find?_insert, NameMap.find?_empty] at found
      split at found
      · rename_i same
        exact ⟨same, (Option.some.inj found).symm⟩
      · cases found
    have sound : (w.opened (.receiver owner) scope).Sound view := by
      refine stage.sound.opened rfl (fun name cell found => ?_) (fun name cell found => ?_)
        (fun _ other => by cases other)
      · obtain ⟨-, rfl⟩ := only name cell found
        exact ⟨known, Heap.admits_free _ rfl rfl rfl⟩
      · obtain ⟨rfl, rfl⟩ := only name cell found
        exact ⟨fun other => absurd other (by decide), fun _ => ⟨owner, receiver, rfl, rfl, receives⟩⟩
    have heap : (w.opened (.receiver owner) scope).heap =
        (m.heap.addScope ⟨some (m.heap.scopeWithin receiver closure), names⟩).2 := by
      rw [← stage.heap]
      rfl
    refine .reading (.allocate stage (World.leads_opened k w (.receiver owner) scope) sound heap ?_)
    intro stage₁
    have last : (m.heap.addScope ⟨some (m.heap.scopeWithin receiver closure), names⟩).1 =
        ⟨w.heap.scopes.size⟩ := by
      rw [← stage.heap]
      rfl
    rw [last]
    refine .pure stage₁ ⟨⟨p, role, decl, stands, same, params, fun asked => ?_⟩, ⟨rfl, rfl⟩,
      fun constructs => ⟨constructs.1, statements, _, rfl, ?_⟩⟩
    · rw [levels]
      exact World.stands_opened stage.sound (l := ⟨.receiver owner, frameOf ["this"], none⟩) rfl
        ((around asked).scopeWithin stage.sound known)
        (fun name found => by simp [scope, names, contains_this.mp found])
    · rw [World.here?_opened]
      simp [scope, names]

theorem functionIs_added {f : Function} (closed : w.Closed view f) :
    (w.set (w.heap.addFunction f).2).Known view (.function ⟨w.heap.functions.size⟩) := by
  have leads : w.Leads .any (w.set (w.heap.addFunction f).2) := .set (.addFunction _ _ f) rfl
  refine ⟨by simp [World.set, Heap.addFunction], ?_⟩
  rw [World.set, Heap.function_addFunction, if_pos rfl]
  exact closed.mono leads

theorem spelled_safe {value : Value} {print : String → Run Unit} (stage : Stage view k w m)
    (known : w.Known view value) (quiet : ∀ text, (print text).Quiet) (edit : String → String) :
    Safe view k m.scope (World.Known view) w
      ((Run.spell value >>= fun text => print (edit text) >>= fun _ => pure .nil) m) := by
  refine .bind stage (.spell stage.calm known) ?_
  intro w₁ m₁ text stage₁ _ _ _
  exact .quietly stage₁ (quiet _) fun _ _ _ _ stage₂ => .pure stage₂ trivial

theorem bindFunction_safe {f : Ref .function} {receiver : Value} (stage : Stage view k w m)
    (awaits : w.FunctionIs (w.Awaits view) f) (known : w.Known view receiver) (receives : receiver.Receives) :
    Safe view k m.scope (fun w' bound => w'.FunctionIs (w'.Closed view) bound ∧ w.Untouched w') w
      (bindFunction f receiver m) := by
  refine .reading (.bind stage (bind_safe stage.calm ?_ known receives) ?_)
  · rw [← stage.heap]
    exact awaits.2
  · rintro w₁ m₁ bound stage₁ - - ⟨closed, same, -⟩
    refine .allocated (.set (.addFunction _ _ bound) rfl) (stage₁.sound.addFunction closed.rooted) ?_ ?_
    · rw [stage₁.heap]
      rfl
    · rw [← stage₁.heap]
      exact ⟨functionIs_added closed, same.trans ⟨rfl, rfl⟩⟩

theorem bindMethod_safe {method : Ref .function} {receiver : Value} (stage : Stage view k w m)
    (awaits : w.FunctionIs (w.Awaits view) method) (known : w.Known view receiver) (receives : receiver.Receives) :
    Safe view k m.scope (World.Known view) w (bindMethod method receiver m) :=
  .bind stage (bindFunction_safe stage.calm awaits known receives) fun _ _ _ stage₁ _ _ bound =>
    .pure stage₁ bound.1

/-- A constructor that is called as a method yields its receiver. -/
theorem callMethod_yields {method : Ref .function} {receiver : Value} {args : List Value}
    (stage : Stage view k w m) (awaits : w.FunctionIs (w.Awaits view) method)
    (known : w.Known view receiver) (receives : receiver.Receives) (argsKnown : ∀ value ∈ args, w.Known view value)
    (line : Line) : Safe view k m.scope (fun w' value => w'.Known view value ∧
      ((w.heap.function method).Constructs → value = receiver)) w
      (callMethod method receiver args line m) := by
  refine .reading (.bind stage (bind_safe stage.calm ?_ known receives) ?_)
  · rw [← stage.heap]
    exact awaits.2
  · rintro w₁ m₁ bound stage₁ leads₁ - ⟨closed, -, made⟩
    refine (Safe.call stage₁ (.inl closed) (fun value member => (argsKnown value member).mono leads₁)
      (by simp) line).weakenLater (.refl k w₁) fun w₂ value leads₂ yielded => ⟨yielded.known, fun constructs => ?_⟩
    rw [stage.heap] at constructs
    obtain ⟨flagged, body, scope, user, this⟩ := made constructs
    exact yielded.receiver flagged body scope receiver user (leads₂.grows.receiver scope _ this)

theorem callMethod_safe {method : Ref .function} {receiver : Value} {args : List Value}
    (stage : Stage view k w m) (awaits : w.FunctionIs (w.Awaits view) method)
    (known : w.Known view receiver) (receives : receiver.Receives) (argsKnown : ∀ value ∈ args, w.Known view value)
    (line : Line) : Safe view k m.scope (World.Known view) w (callMethod method receiver args line m) :=
  (callMethod_yields stage awaits known receives argsKnown line).weaken fun _ _ => And.left

theorem callNative_safe {native : Native} {args : List Value} (stage : Stage view k w m)
    (known : ∀ value ∈ args, w.Known view value) :
    Safe view k m.scope (World.Known view) w (callNative native args m) := by
  cases native with
  | clock =>
    refine .quietly stage Run.readClock_quiet fun _ shown _ _ stage₁ => ?_
    cases shown with
    | ofNat elapsed => exact .pure stage₁ trivial
    | negSucc _ => exact .raise stage₁ _ _
  | objectText =>
    cases args with
    | nil => exact .pure stage trivial
    | cons value rest => exact .heap (.pure stage trivial)
  | print =>
    cases args with
    | nil => exact .pure stage trivial
    | cons value rest => exact spelled_safe stage (known value (by simp)) Run.printOut_quiet id
  | println =>
    cases args with
    | nil => exact .pure stage trivial
    | cons value rest => exact spelled_safe stage (known value (by simp)) Run.printOut_quiet (· ++ "\n")
  | error =>
    cases args with
    | nil => exact .pure stage trivial
    | cons value rest => exact spelled_safe stage (known value (by simp)) Run.printErr_quiet (· ++ "\n")

theorem resultOf_safe {f : Function} {closure : Ref .scope} {signal : Signal} (stage : Stage view k w m)
    (known : signal.Known view w) (line : Line) :
    Safe view k m.scope (World.Known view) w (resultOf f closure line signal m) := by
  refine .heap ?_
  cases signal with
  | returning value => exact .demand stage line _ fun _ => .pure stage known
  | _ => exact .demand stage line _ fun _ => .pure stage trivial

theorem constructed_safe (stage : Stage view k w m) (closure : Ref .scope) (line : Line) :
    Safe view k m.scope (fun w' value => w'.Known view value ∧ ∀ receiver,
      w'.heap.here? closure "this" = some (.ofValue receiver) → value = receiver) w
      (constructed closure line m) := by
  refine .reading ?_
  rw [← stage.heap]
  cases found : w.heap.here? closure "this" with
  | none =>
    refine .pure stage ⟨trivial, fun receiver this => ?_⟩
    rw [found] at this
    cases this
  | some cell =>
    have usable := stage.sound.usable found
    obtain ⟨content, modifiers, declared⟩ := cell
    cases content with
    | plain value =>
      refine .pure stage ⟨usable, fun receiver this => ?_⟩
      rw [found] at this
      cases this
      rfl
    | computed p =>
      refine (readCell_safe stage usable line).weakenLater (.refl k w) fun w' value leads known => ?_
      refine ⟨known, fun receiver this => ?_⟩
      rw [leads.grows.receiver closure _ found] at this
      cases this

/-- A body runs in a scope of its own, which has the names of the level that it makes. -/
theorem block_safe {body : List Stmt} {l : Scoping.Level} {rest : List Scoping.Level} {context : Context} {s : Scope}
    {outer : Ref .scope} (stage : Stage view k w m)
    (stands : At view ⟨l :: rest, context⟩ (.body body)) (around : s.enclosing = some outer)
    (cells : ∀ name cell, s.names.find? name = some cell →
      w.CellKnown view (w.Closed view) cell ∧ w.heap.Admits cell)
    (ordinary : l.frame.Ordinary) (away : ∀ decl, l.site ≠ .cls decl)
    (names : ∀ name, (s.names.find? name).isSome = true ↔ l.frame.contains name = true)
    (further : view.strict → w.Stands rest outer) :
    Safe view k m.scope (fun w' signal => signal.Known view w') w
      ((Run.allocate (·.addScope s) >>= fun r => block r body) m) := by
  have sound : (w.opened l.site s).Sound view :=
    stage.sound.opened (by rw [around]; rfl) cells
      (fun name cell found => Site.serves_ordinary (ordinary name ((names name).mp (by rw [found]; rfl))))
      fun decl same => absurd same (away decl)
  have heap : (w.opened l.site s).heap = (m.heap.addScope s).2 := by
    rw [← stage.heap]
    rfl
  refine .allocate stage (World.leads_opened k w l.site s) sound heap fun stage₁ => ?_
  unfold block
  have last : (m.heap.addScope s).1 = ⟨w.heap.scopes.size⟩ := by
    rw [← stage.heap]
    rfl
  rw [last]
  refine Safe.inScope (stmts_safe (p := ⟨l :: rest, context⟩) (stage₁.inScope _) ?_ ?_ ⟨?_, ?_, ?_⟩)
  · rw [stage.heap]
    exact stage.since
  · exact fun q member => stands.part member
  · exact World.realizes_opened stage.sound fun name found => (names name).mpr found
  · exact World.roomy_opened fun name bound => (names name).mp bound
  · exact fun asked => World.stands_opened stage.sound around (further asked)
      fun name found => (names name).mpr found

theorem callUser_safe {f : Function} {body : List Stmt} {closure : Ref .scope} {args : List Value}
    (stage : Stage view k w m) (closed : w.Closed view f) (found : f.body = .user body closure)
    (known : ∀ value ∈ args, w.Known view value) (count : args.length = f.arity) (line : Line) :
    Safe view k m.scope (fun w' value => w'.Yielded view f value) w
      (callUser f body closure args line m) := by
  unfold World.Closed at closed
  rw [found] at closed
  obtain ⟨p, role, decl, stands, same, params, around⟩ := closed
  have inner : At view (p.callee role decl) (.body body) :=
    stands.part (by simp [Item.parts, same])
  have ordinary : ∀ name ∈ decl.params.map Param.name, Ordinary name.text := by
    simpa [Item.Fits] using stands.fits
  refine .heap (.orRaise stage line fun cells done => ?_)
  rw [← stage.heap] at done
  refine .bind (c := Run.allocate (·.addScope ⟨some closure, cells⟩) >>= fun r => block r body) stage
    (block_safe stage.calm inner rfl (fun name cell there => ?_) (ordinary_declaredAll ordinary)
      (fun _ other => by cases other) (fun name => ?_) around) ?_
  · rcases Heap.argumentCells_find? done there with absent | ⟨⟨value, member, plain⟩, admits⟩
    · cases absent
    · exact ⟨by simpa [World.CellKnown, plain] using known value member, admits⟩
  · rw [contains_declaredAll, params]
    refine (Heap.argumentCells_contains done count.symm name).trans ?_
    simp only [NameMap.contains_empty, List.mem_map]
    grind
  · intro w₁ m₁ signal stage₁ _ _ known₁
    refine .ite (fun _ => ?_) fun plain => ?_
    · refine (constructed_safe stage₁ closure line).weaken fun w₂ value held => ⟨held.1, ?_⟩
      intro _ statements scope receiver same this
      rw [found] at same
      cases same
      exact held.2 receiver this
    · refine (resultOf_safe stage₁ known₁ line).weaken fun w₂ value known => ⟨known, fun constructs => ?_⟩
      exact absurd constructs plain

theorem callMissing_safe (stage : Stage view k w m) (f : Function) (line : Line) :
    Safe view k m.scope (World.Known view) w (callMissing f line m) := by
  refine .inGlobalScope (.ite (fun _ => ?_) fun _ => .raise stage line _)
  exact .quietly stage (Run.warn_quiet line _) fun _ _ _ _ stage₁ => .pure stage₁ trivial

theorem callFunction_safe {f : Function} {args generics : List Value} (stage : Stage view k w m)
    (closed : w.Closed view f) (known : ∀ value ∈ args, w.Known view value) (line : Line) :
    Safe view k m.scope (fun w' value => w'.Yielded view f value) w
      (callFunction f args generics line m) := by
  have yielded (away : ∀ statements closure, f.body ≠ .user statements closure) (w' : World) (value : Value)
      (known : w'.Known view value) : w'.Yielded view f value :=
    ⟨known, fun _ statements closure _ same => absurd same (away statements closure)⟩
  refine .ite (fun _ => .raise stage line _) fun count => ?_
  cases body : f.body with
  | native native receiver =>
    refine Safe.weaken ?_ (yielded (by simp [body]))
    cases receiver with
    | none => exact callNative_safe stage (by simpa using known)
    | some value =>
      unfold World.Closed at closed
      rw [body] at closed
      rw [closed rfl]
      exact .heap (.pure stage trivial)
  | missing => exact (callMissing_safe stage f line).weaken (yielded (by simp [body]))
  | user statements closure =>
    exact .ite (fun _ => callUser_safe stage closed body known (Classical.not_not.mp count) line)
      fun _ => .raise stage line _

theorem texts_safe {values : List Value} (stage : Stage view k w m)
    (known : ∀ value ∈ values, w.Known view value) :
    Safe view k m.scope (fun _ _ => True) w (texts values m) := by
  induction values generalizing k w m with
  | nil => exact .pure stage trivial
  | cons value rest ih =>
    refine .bind stage (.spell stage.calm (known value (by simp))) ?_
    intro w₁ m₁ text stage₁ leads₁ _ _
    refine .bind stage₁ (ih stage₁.calm fun other member => ?_) fun _ _ _ stage₂ _ _ _ => .pure stage₂ trivial
    exact (known other (by simp [member])).mono leads₁

theorem textOf_safe {value : Value} (stage : Stage view k w m) (known : w.Known view value) :
    Safe view k m.scope (fun _ _ => True) w (textOf value m) := by
  cases value with
  | object o =>
    refine .heap ?_
    cases found : m.heap.findMethod? (m.heap.object o).cls "toString" with
    | none => exact .pure stage trivial
    | some method =>
      rw [← stage.heap] at found
      have awaits := stage.sound.findMethod? (stage.sound.objects o known).cls found
      refine .bind stage (callMethod_safe stage.calm awaits known trivial (by simp) 0) ?_
      exact fun _ _ _ stage₁ _ _ _ => .heap (.pure stage₁ trivial)
  | array a =>
    refine .reading (.bind stage (texts_safe stage.calm fun value member => ?_)
      fun _ _ _ stage₁ _ _ _ => .pure stage₁ trivial)
    rw [← stage.heap] at member
    exact (stage.sound.arrays a known).elements value (by simpa using member)
  | _ => exact .heap (.pure stage trivial)

end Evaluator

end Treewalk
