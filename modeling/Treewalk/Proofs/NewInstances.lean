import Treewalk.Proofs.FieldStretch

/-!
Making an instance. The accessors of its computed fields are bound to it, for which scopes, functions and properties are
added; nothing is asked for and nothing that is there changes. What is true of each cell when it is made is true of it
when the instance has all of its fields.
-/

namespace Treewalk

namespace Heap

variable {h h' h'' : Heap}

/-- A class has the fields that it declares itself for its instances, whatever its superclasses have. -/
theorem instanceFields_own {c : Ref .cls} {name : String} {cell : Cell} (distinct : (h.cls c).fields.names.Nodup)
    (found : (h.cls c).fields.find? name = some cell) (own : cell.modifiers.static = false) :
    (h.instanceFields c).find? name = some (cell, (h.cls c).scope) := by
  let add (fields : NameMap (Cell × Ref .scope)) (x : String × Cell) : NameMap (Cell × Ref .scope) :=
    if x.2.modifiers.static then fields else fields.insert x.1 (x.2, (h.cls c).scope)
  have other (entries : List (String × Cell)) (fields : NameMap (Cell × Ref .scope))
      (absent : name ∉ entries.map Prod.fst) : (entries.foldl add fields).find? name = fields.find? name := by
    induction entries generalizing fields with
    | nil => rfl
    | cons first rest ih =>
      obtain ⟨different, absent⟩ : name ≠ first.1 ∧ name ∉ rest.map Prod.fst := by simpa using absent
      rw [List.foldl_cons, ih _ absent]
      simp only [add]
      split
      · rfl
      · exact NameMap.find?_insert_of_ne _ different _
  have placed (entries : List (String × Cell)) (fields : NameMap (Cell × Ref .scope))
      (distinct : (entries.map Prod.fst).Nodup) (member : (name, cell) ∈ entries) :
      (entries.foldl add fields).find? name = some (cell, (h.cls c).scope) := by
    induction entries generalizing fields with
    | nil => cases member
    | cons first rest ih =>
      obtain ⟨new, later⟩ := List.nodup_cons.mp distinct
      rw [List.foldl_cons]
      rcases List.mem_cons.mp member with rfl | member
      · rw [other rest _ new]
        simp only [add, own, Bool.false_eq_true, if_false, NameMap.find?_insert_self]
      · exact ih _ later member
  obtain ⟨above, line⟩ : ∃ above, h.lineage c = c :: above := ⟨_, rfl⟩
  rw [instanceFields, line, List.reverse_cons, List.foldl_append]
  exact placed _ _ distinct (NameMap.mem_of_find? found)

/-- Scopes, functions and properties have been added, and nothing else has happened. -/
structure Adds (h h' : Heap) : Prop where
  objects : h'.objects = h.objects
  classes : h'.classes = h.classes
  scopes : ∀ r : Ref .scope, r.index < h.scopes.size → r.index < h'.scopes.size ∧ h'.scope r = h.scope r
  functions : ∀ f : Ref .function, f.index < h.functions.size →
    f.index < h'.functions.size ∧ h'.function f = h.function f
  properties : ∀ p : Ref .property, p.index < h.properties.size →
    p.index < h'.properties.size ∧ h'.property p = h.property p

namespace Adds

theorem refl (h : Heap) : h.Adds h :=
  ⟨rfl, rfl, fun _ inside => ⟨inside, rfl⟩, fun _ inside => ⟨inside, rfl⟩, fun _ inside => ⟨inside, rfl⟩⟩

theorem trans (first : h.Adds h') (second : h'.Adds h'') : h.Adds h'' where
  objects := second.objects.trans first.objects
  classes := second.classes.trans first.classes
  scopes r inside :=
    have ⟨there, same⟩ := first.scopes r inside
    have ⟨later, still⟩ := second.scopes r there
    ⟨later, still.trans same⟩
  functions f inside :=
    have ⟨there, same⟩ := first.functions f inside
    have ⟨later, still⟩ := second.functions f there
    ⟨later, still.trans same⟩
  properties p inside :=
    have ⟨there, same⟩ := first.properties p inside
    have ⟨later, still⟩ := second.properties p there
    ⟨later, still.trans same⟩

theorem bound (adds : h.Adds h') {r : Ref .scope} {name : String} {cell : Cell} (found : h.here? r name = some cell) :
    h'.here? r name = some cell := by
  rw [here?, (adds.scopes r (lt_of_here? (by rw [found]; rfl))).2]
  exact found

theorem addScope (h : Heap) (s : Scope) : h.Adds (h.addScope s).2 :=
  { refl h with
    scopes := fun r inside => by
      rw [scope_addScope, if_neg (Nat.ne_of_lt inside)]
      exact ⟨by simp only [Heap.addScope, Array.size_push]; omega, rfl⟩ }

theorem addFunction (h : Heap) (f : Function) : h.Adds (h.addFunction f).2 :=
  { refl h with
    functions := fun g inside => by
      rw [function_addFunction, if_neg (Nat.ne_of_lt inside)]
      exact ⟨by simp only [Heap.addFunction, Array.size_push]; omega, rfl⟩ }

theorem addProperty (h : Heap) (p : Property) : h.Adds (h.addProperty p).2 :=
  { refl h with
    properties := fun q inside => by
      rw [property_addProperty, if_neg (Nat.ne_of_lt inside)]
      exact ⟨by simp only [Heap.addProperty, Array.size_push]; omega, rfl⟩ }

end Adds

end Heap

/-- A computation that always ends well and asks for nothing, and only adds scopes, functions and properties. -/
def Run.Adds (c : Run α) : Prop :=
  ∀ m, ∃ a n, c m = .done (.ok a n) ∧ m.heap.Adds n.heap

namespace Run.Adds

theorem pure (a : α) : (Pure.pure a : Run α).Adds :=
  fun m => ⟨a, m, rfl, .refl _⟩

theorem bind {c : Run α} {f : α → Run β} (first : c.Adds) (next : ∀ a, (f a).Adds) : (c >>= f).Adds := by
  intro m
  obtain ⟨a, n, done, adds⟩ := first m
  obtain ⟨b, n', last, adds'⟩ := next a n
  exact ⟨b, n', (Run.bind_of_done done).trans last, adds.trans adds'⟩

theorem reading (f : Heap → α) : (Run.reading f).Adds :=
  fun m => ⟨_, m, rfl, .refl _⟩

end Run.Adds

namespace Evaluator

theorem bind_adds (f : Function) (receiver : Value) : (bind f receiver).Adds := by
  unfold bind
  split
  · exact .bind (.reading _) fun _ => .bind (fun m => ⟨_, _, rfl, .addScope m.heap _⟩) fun _ => .pure _
  · exact .pure _
  · exact .pure _

theorem bindFunction_adds (f : Ref .function) (receiver : Value) : (bindFunction f receiver).Adds :=
  .bind (.reading _) fun g => .bind (bind_adds g receiver) fun _ m => ⟨_, _, rfl, .addFunction m.heap _⟩

theorem bindSetter_adds (setter : Option (Ref .function)) (receiver : Value) :
    (setter.mapM (bindFunction · receiver)).Adds := by
  cases setter with
  | none => exact .pure _
  | some f => exact .bind (bindFunction_adds f receiver) fun _ => .pure _

theorem bindProperty_adds (property : Property) (receiver : Value) : (bindProperty property receiver).Adds :=
  .bind (bindFunction_adds _ receiver) fun _ => .bind (bindSetter_adds _ receiver) fun _ => .pure _

/-- The type of an own cell is what the declared one means in a scope when the cell is made. -/
theorem ownCell_begins (init : Cell) (scope : Ref .scope) (m : Machine) :
    init.declared.mapM (typeIn · scope) m = .done (.ok (init.declared.map (m.heap.resolveType · scope)) m) := by
  cases init.declared <;> rfl

theorem ownCell_plain {init : Cell} {value : Value} (plain : init.content = .plain value) (scope : Ref .scope)
    (receiver : Value) (m : Machine) : ownCell init scope receiver m =
      .done (.ok { init with declared := init.declared.map (m.heap.resolveType · scope) } m) := by
  unfold ownCell
  rw [Run.bind_of_done (ownCell_begins init scope m), plain]
  rfl

/-- A computed cell gets a property of its own, as it is bound. -/
theorem ownCell_computed {init : Cell} {p : Ref .property} (computed : init.content = .computed p) (scope : Ref .scope)
    {receiver : Value} {m n : Machine} {bound : Property}
    (done : bindProperty (m.heap.property p) receiver m = .done (.ok bound n)) :
    let property := { bound with declared := init.declared.map (m.heap.resolveType · scope) }
    ownCell init scope receiver m =
      .done (.ok ⟨.computed (n.heap.addProperty property).1, property.modifiers, property.declared⟩
        { n with heap := (n.heap.addProperty property).2 }) := by
  unfold ownCell
  rw [Run.bind_of_done (ownCell_begins init scope m), computed]
  exact (Run.reading_bind _ _ m).trans (Run.bind_of_done done)

section

variable {h : Heap} {receiver : Value} {Q : Cell × Ref .scope → Heap → Cell → Prop}
  (made : ∀ x m, h.Adds m.heap → ∃ cell n, ownCell x.1 x.2 receiver m = .done (.ok cell n) ∧ m.heap.Adds n.heap ∧
    Q x n.heap cell)
  (later : ∀ x h h' cell, Q x h cell → h.Adds h' → Q x h' cell)

include made later

/-- By induction on the fields that are still to be made: a cell that has been made is not touched any more. -/
theorem ownCells_each (own : List (String × Cell × Ref .scope)) {m : Machine} (begun : h.Adds m.heap) :
    ∃ cells n, ownCells receiver own m = .done (.ok cells n) ∧ m.heap.Adds n.heap ∧
      ∀ name x, NameMap.findIn name own = some x → ∃ cell, NameMap.findIn name cells = some cell ∧ Q x n.heap cell := by
  induction own generalizing m with
  | nil => exact ⟨[], m, rfl, .refl _, fun _ _ found => by cases found⟩
  | cons first rest ih =>
    obtain ⟨key, first⟩ := first
    obtain ⟨cell, m', done, adds, known⟩ := made first m begun
    obtain ⟨cells, n, done', adds', others⟩ := ih (begun.trans adds)
    refine ⟨(key, cell) :: cells, n, ?_, adds.trans adds', fun name x found => ?_⟩
    · exact (Run.bind_of_done done).trans (Run.bind_of_done done')
    · unfold NameMap.findIn at found ⊢
      by_cases same : key = name
      · rw [if_pos same] at found ⊢
        cases found
        exact ⟨cell, rfl, later _ _ _ _ known adds'⟩
      · rw [if_neg same] at found ⊢
        exact others name x found

end

theorem object_of_bareInstance {h h' : Heap} {c : Ref .cls} {scope : Option (Ref .scope)}
    (adds : (bareInstance h c scope).Adds h') :
    h'.object ⟨h.objects.size⟩ = { cls := c, fields := .empty, templateScope := scope } := by
  rw [Heap.object, adds.objects]
  exact (h.object_addObject _ _).trans (if_pos rfl)

/-- A new instance has a cell for every field that its class declares itself, and what is true of the cell when it is
made is true of it then. -/
theorem makeInstance_own (c : Ref .cls) (scope : Option (Ref .scope)) (m : Machine)
    {Q : Cell × Ref .scope → Heap → Cell → Prop}
    (made : ∀ x n, (bareInstance m.heap c scope).Adds n.heap → ∃ cell n',
      ownCell x.1 x.2 (.object ⟨m.heap.objects.size⟩) n = .done (.ok cell n') ∧ n.heap.Adds n'.heap ∧ Q x n'.heap cell)
    (later : ∀ x h h' cell, Q x h cell → h.Adds h' → Q x h' cell) :
    ∃ (cells : List (String × Cell)) (n : Machine), makeInstance c scope m =
        .done (.ok ⟨m.heap.objects.size⟩ { n with heap := n.heap.setFields ⟨m.heap.objects.size⟩ ⟨cells⟩ }) ∧
      (bareInstance m.heap c scope).Adds n.heap ∧
      (n.heap.setFields ⟨m.heap.objects.size⟩ ⟨cells⟩).object ⟨m.heap.objects.size⟩ = ⟨c, ⟨cells⟩, scope⟩ ∧
      ((m.heap.cls c).fields.names.Nodup → ∀ name init, (m.heap.cls c).fields.find? name = some init →
        init.modifiers.static = false →
          ∃ cell, NameMap.findIn name cells = some cell ∧ Q (init, scope.getD (m.heap.cls c).scope) n.heap cell) := by
  let h := bareInstance m.heap c scope
  let o : Ref .object := ⟨m.heap.objects.size⟩
  obtain ⟨cells, n, done, adds, each⟩ :=
    ownCells_each made later (homes h c scope) (m := { m with heap := h }) (.refl h)
  have there : o.index < n.heap.objects.size := by
    rw [adds.objects]
    simp [h, o, bareInstance, Heap.addObject]
  refine ⟨cells, n, makeInstance_of_cells done, adds, ?_, fun distinct name init found own => each name _ ?_⟩
  · rw [Heap.object_setFields, if_pos ⟨rfl, there⟩, object_of_bareInstance adds]
  · have among := Heap.instanceFields_own (h := h) distinct found own
    rw [homes, NameMap.findIn_map name fun x : Cell × Ref .scope =>
      (x.1, if x.2 = (h.cls c).scope then scope.getD x.2 else x.2)]
    change Option.map _ ((h.instanceFields c).find? name) = _
    rw [among, Option.map_some, if_pos rfl]
    rfl

/-- Without a constructor, nothing more happens to the instance. -/
theorem runConstructor_none {o : Ref .object} {c : Ref .cls} {m : Machine} (none : m.heap.constructor? c = none)
    (args : List Value) (line : Line) :
    ∃ outcome, runConstructor o c args line m = .done outcome ∧ outcome.machine.heap = m.heap := by
  unfold runConstructor
  rw [Run.reading_bind, none]
  unfold Run.demand
  dsimp only
  split
  · exact ⟨_, rfl, rfl⟩
  · exact ⟨_, rfl, rfl⟩

end Evaluator

end Treewalk
