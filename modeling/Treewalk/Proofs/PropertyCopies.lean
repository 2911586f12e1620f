import Treewalk.Proofs.TemplateTypes

/-!
Computed fields of new instances. The property that an instance gets for a computed field has the accessors of the
class, bound to the instance: each of them has a scope for the receiver, which lies inside the scope that the accessor
closes over, or inside the one with the templates if the class has some.
-/

namespace Treewalk

/-- Both properties have the same type and the same value in their caches. -/
structure Property.Alike (p q : Property) : Prop where
  name : q.name = p.name
  declared : q.declared = p.declared
  cache : q.cache = p.cache

namespace Heap

/-- A property of a class, and the same property bound to an instance: the getter has a scope for the receiver, directly
inside the one that the getter of the class closes over and not in one with templates. -/
structure Copied (h : Heap) (o : Ref .object) (body : List Stmt) (receiver closure : Ref .scope)
    (p q : Ref .property) : Prop where
  plain : (h.function (h.property p).getter).body = .user body closure
  bound : h.function (h.property q).getter = { h.function (h.property p).getter with body := .user body receiver }
  yields : (h.function (h.property p).getter).constructs = false
  scope : h.scope receiver = { enclosing := some closure, names := NameMap.empty.insert "this" (.ofValue (.object o)) }

/-- A property whose getter is code that closes over a scope. -/
structure HasGetter (h : Heap) (p : Ref .property) (body : List Stmt) (closure : Ref .scope) : Prop where
  property : p.index < h.properties.size
  getter : (h.property p).getter.index < h.functions.size
  plain : (h.function (h.property p).getter).body = .user body closure
  yields : (h.function (h.property p).getter).constructs = false

/-- A class computes a field for its instances itself, with a getter that closes over a scope. -/
structure Computes (h : Heap) (c : Ref .cls) (name : String) (init : Cell) (p : Ref .property) (body : List Stmt)
    (closure : Ref .scope) : Prop where
  field : (h.cls c).fields.find? name = some init
  instances : init.modifiers.static = false
  computed : init.content = .computed p
  declared : (h.property p).declared = init.declared
  getter : h.HasGetter p body closure

/-- A function with its code in a scope that binds `this` and lies inside another scope. -/
structure Binds (h : Heap) (receiver : Value) (outer : Ref .scope) (body : List Stmt) (f : Function)
    (g : Ref .function) (scope : Ref .scope) : Prop where
  inside : g.index < h.functions.size
  function : h.function g = { f with body := .user body scope }
  opened : scope.index < h.scopes.size
  scope : h.scope scope = { enclosing := some outer, names := NameMap.empty.insert "this" (.ofValue receiver) }

/-- The cell of an instance for a computed field has a copy of the property. -/
structure CopiedCell (h : Heap) (o : Ref .object) (body : List Stmt) (closure : Ref .scope) (p : Ref .property)
    (cell : Cell) (declared : Option TypeDesc) (q : Ref .property) (receiver : Ref .scope) : Prop where
  getter : h.HasGetter p body closure
  content : cell.content = .computed q
  property : q.index < h.properties.size
  binds : h.Binds (.object o) closure body (h.function (h.property p).getter) (h.property q).getter receiver
  name : (h.property q).name = (h.property p).name
  cache : (h.property q).cache = (h.property p).cache
  declared : (h.property q).declared = declared

variable {h h' : Heap} {p q : Ref .property} {body : List Stmt} {receiver closure outer scope : Ref .scope}

theorem HasGetter.adds (getter : h.HasGetter p body closure) (adds : h.Adds h') :
    h'.HasGetter p body closure ∧
      h'.function (h'.property p).getter = h.function (h.property p).getter := by
  obtain ⟨inside, same⟩ := adds.properties p getter.property
  obtain ⟨there, still⟩ := adds.functions _ getter.getter
  have function : h'.function (h'.property p).getter = h.function (h.property p).getter := by rw [same, still]
  refine ⟨⟨inside, ?_, ?_, ?_⟩, function⟩
  · rwa [same]
  · rw [function]
    exact getter.plain
  · rw [function]
    exact getter.yields

theorem Binds.adds {value : Value} {f : Function} {g : Ref .function} (binds : h.Binds value outer body f g scope)
    (adds : h.Adds h') : h'.Binds value outer body f g scope := by
  obtain ⟨inside, same⟩ := adds.functions g binds.inside
  obtain ⟨opened, still⟩ := adds.scopes scope binds.opened
  exact ⟨inside, same.trans binds.function, opened, still.trans binds.scope⟩

theorem CopiedCell.adds {o : Ref .object} {cell : Cell} {declared : Option TypeDesc}
    (copied : h.CopiedCell o body closure p cell declared q receiver) (adds : h.Adds h') :
    h'.CopiedCell o body closure p cell declared q receiver := by
  obtain ⟨getter, function⟩ := copied.getter.adds adds
  obtain ⟨inside, same⟩ := adds.properties q copied.property
  have plain := (adds.properties p copied.getter.property).2
  refine ⟨getter, copied.content, inside, ?_, ?_, ?_, ?_⟩
  · rw [function, same]
    exact copied.binds.adds adds
  · rw [same, plain, copied.name]
  · rw [same, plain, copied.cache]
  · rw [same, copied.declared]

theorem CopiedCell.copied {o : Ref .object} {cell : Cell} {declared : Option TypeDesc}
    (copied : h.CopiedCell o body closure p cell declared q receiver) : h.Copied o body receiver closure p q :=
  ⟨copied.getter.plain, copied.binds.function, copied.getter.yields, copied.binds.scope⟩

end Heap

namespace Evaluator

variable {body : List Stmt} {closure outer : Ref .scope} {receiver : Value} {m : Machine}

theorem bindFunction_binds {f : Ref .function} (user : (m.heap.function f).body = .user body closure)
    (within : m.heap.scopeWithin receiver closure = outer) :
    ∃ g n scope, bindFunction f receiver m = .done (.ok g n) ∧ m.heap.Adds n.heap ∧
      n.heap.Binds receiver outer body (m.heap.function f) g scope := by
  let names := NameMap.empty.insert "this" (Cell.ofValue receiver)
  let opened := m.heap.addScope { enclosing := some outer, names := names }
  let g : Function := { m.heap.function f with body := .user body opened.1 }
  have done : bind (m.heap.function f) receiver m = .done (.ok g { m with heap := opened.2 }) := by
    unfold bind
    rw [user]
    change (Run.reading (·.scopeWithin receiver closure) >>= _) m = _
    rw [Run.reading_bind, within]
    rfl
  let made := opened.2.addFunction g
  have begun : m.heap.Adds opened.2 := .addScope _ _
  have added : opened.2.Adds made.2 := .addFunction _ _
  refine ⟨made.1, { m with heap := made.2 }, opened.1, ?_, begun.trans added, ?_⟩
  · exact (Run.reading_bind _ _ m).trans (Run.bind_of_done done)
  · have there : opened.1.index < opened.2.scopes.size := by simp [opened, Heap.addScope]
    obtain ⟨inside, same⟩ := added.scopes opened.1 there
    have placed : made.2.function made.1 = g := (opened.2.function_addFunction g _).trans (if_pos rfl)
    refine ⟨by simp [made, Heap.addFunction], placed, inside, same.trans ?_⟩
    exact (m.heap.scope_addScope _ _).trans (if_pos rfl)

theorem bindProperty_binds {property : Property} (user : (m.heap.function property.getter).body = .user body closure)
    (within : m.heap.scopeWithin receiver closure = outer) :
    ∃ getter setter n scope,
      bindProperty property receiver m = .done (.ok { property with getter := getter, setter := setter } n) ∧
        m.heap.Adds n.heap ∧ n.heap.Binds receiver outer body (m.heap.function property.getter) getter scope := by
  obtain ⟨getter, n, scope, done, adds, binds⟩ := bindFunction_binds user within
  obtain ⟨setter, n', done', adds'⟩ := bindSetter_adds property.setter receiver n
  refine ⟨getter, setter, n', scope, ?_, adds.trans adds', binds.adds adds'⟩
  exact (Run.bind_of_done done).trans (Run.bind_of_done done')

/-- A computed field of a class is copied to an instance, if its getter is not bound inside a scope with templates. -/
theorem ownCell_copies {o : Ref .object} {init : Cell} {p : Ref .property} (computed : init.content = .computed p)
    (getter : m.heap.HasGetter p body closure) (within : m.heap.scopeWithin (.object o) closure = closure)
    (home : Ref .scope) :
    ∃ cell n q scope, ownCell init home (.object o) m = .done (.ok cell n) ∧ m.heap.Adds n.heap ∧
      n.heap.CopiedCell o body closure p cell (init.declared.map (m.heap.resolveType · home)) q scope := by
  obtain ⟨bound, setter, n, scope, done, adds, binds⟩ := bindProperty_binds getter.plain within
  let property : Property := { m.heap.property p with
    getter := bound, setter := setter, declared := init.declared.map (m.heap.resolveType · home) }
  have added := Heap.Adds.addProperty n.heap property
  have whole := adds.trans added
  have placed : (n.heap.addProperty property).2.property (n.heap.addProperty property).1 = property :=
    (n.heap.property_addProperty property _).trans (if_pos rfl)
  obtain ⟨still, function⟩ := getter.adds whole
  have plain := (whole.properties p getter.property).2
  refine ⟨_, _, (n.heap.addProperty property).1, scope, ownCell_computed computed home done, whole, still, rfl,
    by simp [Heap.addProperty, property], ?_, ?_, ?_, ?_⟩
  · rw [function, placed]
    exact binds.adds added
  · rw [placed, plain]
  · rw [placed, plain]
  · rw [placed]

/-- The cell for a field is a copy if the field is computed, as long as the declared type means itself. -/
def Copies (h : Heap) (o : Ref .object) (x : Cell × Ref .scope) (h' : Heap) (cell : Cell) : Prop :=
  ∀ p body closure, x.1.content = .computed p →
    (∀ later, h.Adds later → x.1.declared.map (later.resolveType · x.2) = x.1.declared) →
      h.HasGetter p body closure → ∃ q receiver, h'.CopiedCell o body closure p cell x.1.declared q receiver

/-- While an instance of a class without templates is made, no getter is bound inside another scope than its own. -/
theorem ownCell_bare {h : Heap} {c : Ref .cls} (begun : (bareInstance h c none).Adds m.heap) (x : Cell × Ref .scope) :
    ∃ cell n, ownCell x.1 x.2 (.object ⟨h.objects.size⟩) m = .done (.ok cell n) ∧ m.heap.Adds n.heap ∧
      Copies (bareInstance h c none) ⟨h.objects.size⟩ x n.heap cell := by
  by_cases copied : ∃ p body closure, x.1.content = .computed p ∧ (bareInstance h c none).HasGetter p body closure
  · obtain ⟨p, body, closure, computed, getter⟩ := copied
    have within : m.heap.scopeWithin (.object ⟨h.objects.size⟩) closure = closure := by
      simp [Heap.scopeWithin, Heap.scopeFor?, object_of_bareInstance begun]
    obtain ⟨cell, n, q, receiver, done, adds, copies⟩ := ownCell_copies computed (getter.adds begun).1 within x.2
    refine ⟨cell, n, done, adds, fun p' body' closure' computed' means getter' => ?_⟩
    obtain rfl : p = p' := Content.computed.inj (computed.symm.trans computed')
    obtain ⟨rfl, rfl⟩ : body = body' ∧ closure = closure' := by
      simpa using getter.plain.symm.trans getter'.plain
    rw [means m.heap begun] at copies
    exact ⟨q, receiver, copies⟩
  · obtain ⟨cell, n, done, adds, -⟩ := ownCell_typed x.1 x.2 (.object ⟨h.objects.size⟩) m
    exact ⟨cell, n, done, adds, fun p body closure computed _ getter =>
      absurd ⟨p, body, closure, computed, getter⟩ copied⟩

/-- Making an instance of a class without templates fails at once, or what is left to do is to run the constructor on a
new instance. This has a copy of each computed field that the class declares itself, of the same type if the declared
one means itself when the instance is made. -/
theorem construct_copies {c : Ref .cls} (bare : (m.heap.cls c).templates = []) (args generics : List Value)
    (line : Line) :
    (∃ fault, construct c args generics line m = .done (.error (.fault fault) m)) ∨
      ∃ n, construct c args generics line m = runConstructor ⟨m.heap.objects.size⟩ c args line n ∧
        n.heap.classes = m.heap.classes ∧
        ((m.heap.cls c).fields.names.Nodup → ∀ name init p body closure, m.heap.Computes c name init p body closure →
          (∀ later, (bareInstance m.heap c none).Adds later →
            init.declared.map (later.resolveType · (m.heap.cls c).scope) = init.declared) →
              ∃ own q receiver, (n.heap.object ⟨m.heap.objects.size⟩).fields.find? name = some own ∧
                own.content = .computed q ∧ n.heap.Copied ⟨m.heap.objects.size⟩ body receiver closure p q ∧
                  (n.heap.property p).Alike (n.heap.property q)) := by
  let o : Ref .object := ⟨m.heap.objects.size⟩
  rw [construct_eq, Run.reading_bind]
  unfold Run.demand
  split
  · right
    have unscoped : templateScope (m.heap.cls c) generics line m = .done (.ok none m) := by
      rw [templateScope, bare]
      rfl
    obtain ⟨cells, n, done, adds, held, each⟩ := makeInstance_own c none m
      (Q := Copies (bareInstance m.heap c none) o) (fun x n begun => ownCell_bare begun x)
      fun x h h' cell copies later p body closure computed means getter =>
        have ⟨q, receiver, copied⟩ := copies p body closure computed means getter
        ⟨q, receiver, copied.adds later⟩
    refine ⟨{ n with heap := n.heap.setFields o ⟨cells⟩ }, ?_, adds.classes, ?_⟩
    · exact (Run.bind_of_done unscoped).trans (Run.bind_of_done done)
    · rintro distinct name init p body closure ⟨field, own, computed, declared, getter⟩ means
      obtain ⟨cell, found, copies⟩ := each distinct name init field own
      obtain ⟨q, receiver, copied⟩ := copies p body closure computed means ⟨getter.1, getter.2, getter.3, getter.4⟩
      refine ⟨cell, q, receiver, ?_, copied.content, ?_, copied.name, copied.declared.trans ?_, copied.cache⟩
      · exact (congrArg (fun o : Object => o.fields.find? name) held).trans found
      · exact ⟨copied.copied.plain, copied.copied.bound, copied.copied.yields, copied.copied.scope⟩
      · exact declared.symm.trans (congrArg Property.declared (adds.properties p getter.property).2.symm)
  · exact .inl ⟨_, rfl⟩

end Evaluator

end Treewalk
