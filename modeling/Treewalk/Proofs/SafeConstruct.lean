import Treewalk.Proofs.Lineage
import Treewalk.Proofs.SafeMember

/-!
Making instances. The scope of an instance is a twin of the scope of its class: it has the same names and
stands inside the same scope. The fields of an instance are the instance fields of its class, with
accessors that are bound to it.
-/

namespace Treewalk

open Scoping Plan

namespace Heap

/-- A field that instances own is one of a class in the line of theirs, which declares it in its scope, and
not a static one. -/
theorem mem_instanceFields {h : Heap} {c : Ref .cls} {entry : String × Cell × Ref .scope}
    (member : entry ∈ (h.instanceFields c).entries) :
    ∃ ancestor ∈ h.lineage c, (entry.1, entry.2.1) ∈ (h.cls ancestor).fields.entries ∧
      entry.2.1.modifiers.static = false ∧ entry.2.2 = (h.cls ancestor).scope := by
  have inner (ancestor : Ref .cls) (cells : List (String × Cell)) (fields : NameMap (Cell × Ref .scope))
      (found : entry ∈ (cells.foldl (fun fields field =>
        if field.2.modifiers.static then fields
        else fields.insert field.1 (field.2, (h.cls ancestor).scope)) fields).entries) :
      entry ∈ fields.entries ∨ (entry.1, entry.2.1) ∈ cells ∧ entry.2.1.modifiers.static = false ∧
        entry.2.2 = (h.cls ancestor).scope := by
    induction cells generalizing fields with
    | nil => exact .inl found
    | cons first rest ih =>
      obtain ⟨name, cell⟩ := first
      rcases ih _ found with earlier | ⟨later, own⟩
      · dsimp only at earlier
        split at earlier
        · exact .inl earlier
        · rename_i own
          rcases NameMap.mem_insert earlier with rfl | old
          · exact .inr ⟨by simp, by simpa using own, rfl⟩
          · exact .inl old
      · exact .inr ⟨by simp [later], own⟩
  have outer (line : List (Ref .cls)) (fields : NameMap (Cell × Ref .scope))
      (found : entry ∈ (line.foldl (fun fields ancestor =>
        (h.cls ancestor).fields.entries.foldl (fun fields field =>
          if field.2.modifiers.static then fields
          else fields.insert field.1 (field.2, (h.cls ancestor).scope)) fields) fields).entries) :
      entry ∈ fields.entries ∨ ∃ ancestor ∈ line,
        (entry.1, entry.2.1) ∈ (h.cls ancestor).fields.entries ∧ entry.2.1.modifiers.static = false ∧
          entry.2.2 = (h.cls ancestor).scope := by
    induction line generalizing fields with
    | nil => exact .inl found
    | cons ancestor rest ih =>
      rcases ih _ found with earlier | ⟨further, among, own⟩
      · rcases inner ancestor _ fields earlier with old | own
        · exact .inl old
        · exact .inr ⟨ancestor, by simp, own⟩
      · exact .inr ⟨further, by simp [among], own⟩
  rcases outer _ _ member with absent | ⟨ancestor, among, own⟩
  · cases absent
  · exact ⟨ancestor, by simpa using among, own⟩

end Heap

namespace Evaluator

variable {view : View} {k : Permit} {w : World} {m : Machine}

/-- A name among bound templates has been bound before, or is a template and now bound to a type. -/
theorem bindTemplates_find? {names : NameMap Cell} {templates : List String} {types : List TypeDesc}
    {name : String} {cell : Cell} (found : (bindTemplates names templates types).find? name = some cell) :
    names.find? name = some cell ∨ name ∈ templates ∧ ∃ t ∈ types, cell = Cell.ofValue (.type t) := by
  unfold bindTemplates at found
  have listed : ∀ pair ∈ templates.zip types, pair.1 ∈ templates ∧ pair.2 ∈ types :=
    fun _ member => List.of_mem_zip member
  generalize templates.zip types = pairs at found listed
  induction pairs generalizing names with
  | nil => exact .inl found
  | cons pair rest ih =>
    rcases ih found fun x member => listed x (by simp [member]) with earlier | bound
    · rw [NameMap.find?_insert] at earlier
      split at earlier
      · rename_i same
        cases earlier
        obtain ⟨template, type⟩ := listed pair (by simp)
        exact .inr ⟨same ▸ template, _, type, rfl⟩
      · exact .inl earlier
    · exact .inr bound

theorem bindTemplates_contains {names : NameMap Cell} {templates : List String} {types : List TypeDesc}
    {name : String} : (bindTemplates names templates types).contains name = true ↔
      names.contains name = true ∨ name ∈ (templates.zip types).map Prod.fst := by
  unfold bindTemplates
  generalize templates.zip types = pairs
  induction pairs generalizing names with
  | nil => simp
  | cons pair rest ih =>
    rw [List.foldl_cons, ih, NameMap.contains_insert]
    simp only [Bool.or_eq_true, decide_eq_true_eq, List.map_cons, List.mem_cons]
    grind

theorem propertyCell_safe {ready : World → Function → Prop} {property : Property}
    (still : World.Lasting ready) (stage : Stage view k w m)
    (getter : w.FunctionIs (ready w) property.getter)
    (setter : ∀ f ∈ property.setter, w.FunctionIs (ready w) f) (cache : w.Known view property.cache) :
    Safe view k m.scope (fun w' cell => w'.CellKnown view (ready w') cell ∧
      cell.modifiers = property.modifiers ∧
      (∃ p, cell.content = .computed p) ∧ w.Untouched w') w (propertyCell property m) := by
  have grows := Heap.Grows.addProperty k.Allows w.heap property
  have leads : w.Leads k (w.set (w.heap.addProperty property).2) := .set grows rfl
  refine .allocate stage leads (stage.sound.addProperty cache) (by rw [stage.heap]; rfl) fun stage₁ => ?_
  have last : (m.heap.addProperty property).1 = ⟨w.heap.properties.size⟩ := by
    rw [← stage.heap]
    rfl
  rw [last]
  have held : (w.set (w.heap.addProperty property).2).heap.property ⟨w.heap.properties.size⟩ = property := by
    rw [World.set, Heap.property_addProperty, if_pos rfl]
  refine .pure stage₁ ⟨?_, rfl, ⟨_, rfl⟩, rfl, rfl⟩
  refine ⟨by simp [World.set, Heap.addProperty], ?_⟩
  rw [held]
  exact ⟨rfl, getter.mono leads fun f => still _ _ _ f leads,
    fun f member => (setter f member).mono leads fun f => still _ _ _ f leads⟩

theorem bindProperty_safe {property : Property} {receiver : Value} (stage : Stage view k w m)
    (getter : w.FunctionIs (w.Awaits view) property.getter)
    (setter : ∀ f ∈ property.setter, w.FunctionIs (w.Awaits view) f) (known : w.Known view receiver)
    (receives : receiver.Receives) :
    Safe view k m.scope (fun w' bound => (w'.FunctionIs (w'.Closed view) bound.getter ∧
      ∀ f ∈ bound.setter, w'.FunctionIs (w'.Closed view) f) ∧
      bound.cache = property.cache ∧ bound.modifiers = property.modifiers ∧ w.Untouched w') w
      (bindProperty property receiver m) := by
  refine .bind stage (bindFunction_safe stage.calm getter known receives) ?_
  rintro w₁ m₁ get stage₁ leads₁ - ⟨getClosed, same₁⟩
  refine .bind (P := fun w' (bound : Option (Ref .function)) =>
    (∀ f ∈ bound, w'.FunctionIs (w'.Closed view) f) ∧ w₁.Untouched w') stage₁ ?_ ?_
  · refine .mapM stage₁.calm (fun _ => ⟨by simp, .refl w₁⟩) fun f member => ?_
    have awaits := (setter f member).mono leads₁ fun _ => World.Awaits.mono leads₁
    refine (bindFunction_safe stage₁.calm awaits (known.mono leads₁) receives).weaken ?_
    exact fun w' bound closed => ⟨by simpa using closed.1, closed.2⟩
  · rintro w₂ m₂ set stage₂ leads₂ - ⟨setClosed, same₂⟩
    refine .pure stage₂ ⟨⟨?_, setClosed⟩, rfl, rfl, same₁.trans same₂⟩
    exact getClosed.mono leads₂ fun _ => World.Closed.mono leads₂

theorem boundCell_safe {cell : Cell} {p : Ref .property} {receiver : Value} (stage : Stage view k w m)
    (known : w.CellKnown view (w.Awaits view) cell) (computed : cell.content = .computed p)
    (receiverKnown : w.Known view receiver) (receives : receiver.Receives) (edit : Property → Property)
    (same : ∀ property, (edit property).getter = property.getter ∧
      (edit property).setter = property.setter ∧ (edit property).cache = property.cache ∧
      (edit property).modifiers = property.modifiers) :
    Safe view k m.scope (fun w' own => w'.CellKnown view (w'.Closed view) own ∧
      own.modifiers = cell.modifiers ∧ (∃ q, own.content = .computed q) ∧ w.Untouched w') w
      ((Run.reading (·.property p) >>= fun property => bindProperty property receiver >>= fun bound =>
        propertyCell (edit bound)) m) := by
  unfold World.CellKnown at known
  rw [computed] at known
  obtain ⟨inside, sameCell, getter, setter⟩ := known
  refine .reading ?_
  rw [← stage.heap]
  refine .bind stage (bindProperty_safe stage.calm getter setter receiverKnown receives) ?_
  rintro w₁ m₁ bound stage₁ leads₁ - ⟨⟨getClosed, setClosed⟩, cache, modifiers, untouched₁⟩
  obtain ⟨sameGetter, sameSetter, sameCache, sameModifiers⟩ := same bound
  refine (propertyCell_safe (World.closed_lasting view) stage₁ ?_ ?_ ?_).weaken ?_
  · rw [sameGetter]
    exact getClosed
  · rw [sameSetter]
    exact setClosed
  · rw [sameCache, cache]
    exact (stage.sound.caches p inside).mono leads₁
  · rintro w₂ own ⟨known, sameOwn, ⟨q, computed⟩, untouched₂⟩
    exact ⟨known, by rw [sameOwn, sameModifiers, modifiers, sameCell], ⟨q, computed⟩, untouched₁.trans untouched₂⟩

theorem resolvedTypes_safe (stage : Stage view k w m) (declared : Option TypeDesc)
    (scope : Ref .scope) :
    Safe view k m.scope (fun w' _ => w' = w) w (declared.mapM (typeIn · scope) m) :=
  .mapM stage (fun _ => rfl) fun _ _ => .heap (.pure stage rfl)

theorem ownCell_safe {cell : Cell} {receiver : Value} (stage : Stage view k w m)
    (known : w.CellKnown view (w.Awaits view) cell) (scope : Ref .scope)
    (receiverKnown : w.Known view receiver) (receives : receiver.Receives) :
    Safe view k m.scope (fun w' own => w'.CellKnown view (w'.Closed view) own ∧ w.Untouched w') w
      (ownCell cell scope receiver m) := by
  refine .bind stage (resolvedTypes_safe stage.calm cell.declared scope) ?_
  rintro w₁ m₁ declared stage₁ - - rfl
  cases content : cell.content with
  | plain value =>
    unfold World.CellKnown at known
    rw [content] at known
    exact .pure stage₁ ⟨by simpa [World.CellKnown, content] using known, .refl w₁⟩
  | computed p =>
    refine (boundCell_safe stage₁ known content receiverKnown receives
      (fun property => { property with declared := declared }) fun _ => ⟨rfl, rfl, rfl, rfl⟩).weaken ?_
    exact fun w' own held => ⟨held.1, held.2.2.2⟩

theorem ownCells_safe {receiver : Value} {fields : List (String × Cell × Ref .scope)}
    (stage : Stage view k w m)
    (known : ∀ x ∈ fields, w.CellKnown view (w.Awaits view) x.2.1)
    (receiverKnown : w.Known view receiver) (receives : receiver.Receives) :
    Safe view k m.scope (fun w' cells =>
      (∀ x ∈ cells, w'.CellKnown view (w'.Closed view) x.2) ∧ w.Untouched w') w
      (ownCells receiver fields m) := by
  induction fields generalizing k w m with
  | nil => exact .pure stage ⟨by simp, .refl w⟩
  | cons field rest ih =>
    obtain ⟨name, cell, scope⟩ := field
    have first := known (name, cell, scope) (by simp)
    refine .bind stage (ownCell_safe stage.calm first scope receiverKnown receives) ?_
    rintro w₁ m₁ own stage₁ leads₁ - ⟨ownKnown, untouched₁⟩
    refine .bind stage₁ (ih stage₁.calm (fun x member => ?_) (receiverKnown.mono leads₁)) ?_
    · exact (known x (by simp [member])).mono leads₁ fun _ => World.Awaits.mono leads₁
    · rintro w₂ m₂ others stage₂ leads₂ - ⟨othersKnown, untouched₂⟩
      refine .pure stage₂ ⟨?_, untouched₁.trans untouched₂⟩
      intro x member
      rcases List.mem_cons.mp member with rfl | member
      · exact ownKnown.mono leads₂ fun _ => World.Closed.mono leads₂
      · exact othersKnown x member

theorem typeArguments_safe {values : List Value} (stage : Stage view k w m)
    (known : view.typed → ∀ value ∈ values, w.Known view value) (line : Line) :
    Safe view k m.scope (fun w' types => w' = w ∧ (view.typed → ∀ t ∈ types, t.Denotable)) w
      (typeArguments line values m) := by
  induction values generalizing k w m with
  | nil => exact .pure stage ⟨rfl, by simp⟩
  | cons value rest ih =>
    refine .bind stage (typeArgument_safe stage.calm (fun typed => known typed value (by simp)) line) ?_
    rintro w₁ m₁ t stage₁ - - ⟨rfl, denotable⟩
    refine .bind stage₁ (ih stage₁.calm fun typed x member => known typed x (by simp [member])) ?_
    rintro w₂ m₂ types stage₂ - - ⟨rfl, others⟩
    exact .pure stage₂ ⟨rfl, fun typed => by simpa using ⟨denotable typed, others typed⟩⟩

/-- A scope that an instance may have beside the scope of its class. -/
def Twin (w : World) (scope twin : Ref .scope) : Prop :=
  twin ≠ .globals ∧ scope ≠ .globals ∧
    (w.heap.scope twin).enclosing = (w.heap.scope scope).enclosing ∧
    ∃ decl, w.siteOf? twin = some (.cls decl) ∧ w.siteOf? scope = some (.cls decl)

theorem templateScope_safe {c : Class} {generics : List Value} (stage : Stage view k w m)
    (known : w.ClassKnown view c) (genericsKnown : view.typed → ∀ value ∈ generics, w.Known view value)
    (line : Line) :
    Safe view k m.scope (fun w' made => (∀ r ∈ made, Twin w' c.scope r) ∧ w.Untouched w') w
      (templateScope c generics line m) := by
  refine .ite (fun _ => .pure stage ⟨by simp, .refl w⟩) fun some => ?_
  have templated : c.templates ≠ [] := by simpa using some
  obtain ⟨inner, decl, site, bound⟩ := known.scope templated
  refine .bind stage (typeArguments_safe stage.calm genericsKnown line) ?_
  rintro w₁ m₁ types stage₁ - - ⟨rfl, denotable⟩
  refine .reading ?_
  rw [← stage₁.heap]
  let twin : Scope :=
    { w₁.heap.scope c.scope with names := bindTemplates (w₁.heap.scope c.scope).names c.templates types }
  have names (name : String) :
      (twin.names.find? name).isSome = (Place.classFrame decl).contains name := by
    rw [← stage.sound.classScopes c.scope decl site name, Bool.eq_iff_iff]
    refine bindTemplates_contains.trans ⟨?_, .inl⟩
    rintro (here | template)
    · exact here
    · obtain ⟨pair, member, rfl⟩ := List.mem_map.mp template
      have declared := bound _ (List.of_mem_zip member).1
      rwa [← stage.sound.classScopes c.scope decl site] at declared
  have sound : (w₁.opened (.cls decl) twin).Sound view := by
    refine stage.sound.opened ?_ (fun name cell found => ?_) (fun name cell found => ?_)
      fun other same => by cases same; exact names
    · refine stage.sound.inner c.scope ?_ (stage.sound.inside site)
      exact Nat.pos_of_ne_zero fun zero => inner (Ref.ext_index zero)
    · rcases bindTemplates_find? found with old | ⟨-, t, among, rfl⟩
      · exact stage.sound.cells c.scope name cell old
      · exact ⟨fun typed => denotable typed t among, Heap.admits_free _ rfl rfl rfl⟩
    · rcases bindTemplates_find? found with old | ⟨member, -⟩
      · obtain ⟨_, opened, serves⟩ := stage.sound.serves c.scope name cell old
        rwa [Option.some.inj (opened.symm.trans site)] at serves
      · exact Site.serves_ordinary (known.templates name member).1
  refine .map (.allocated (World.leads_opened k w₁ (.cls decl) twin) sound ?_ ⟨?_, rfl, rfl⟩)
  · rw [← stage₁.heap]
    rfl
  · intro r made
    have last : r = ⟨w₁.heap.scopes.size⟩ := by
      rw [stage₁.heap]
      exact (Option.some.inj made).symm
    subst last
    have leads := World.leads_opened k w₁ (.cls decl) twin
    refine ⟨?_, inner, ?_, decl, World.siteOf?_opened stage.sound _ _, leads.sites _ _ site⟩
    · intro same
      exact absurd (congrArg Ref.index same) (Nat.ne_of_gt stage.sound.globals)
    · rw [World.scope_opened, leads.grows.enclosing _ (stage.sound.inside site)]

theorem fillFields_safe {o : Ref .object} {c : Ref .cls} (stage : Stage view k w m)
    (known : w.Known view (.object o)) (inside : c.index < w.heap.classes.size)
    (empty : (w.heap.object o).fields = .empty) (scope : Option (Ref .scope)) :
    Safe view k m.scope (fun _ _ => True) w (fillFields o c scope m) := by
  refine .heap ?_
  rw [← stage.heap]
  refine .bind stage (ownCells_safe stage.calm (fun x member => ?_) known trivial) ?_
  · obtain ⟨field, among, rfl⟩ := List.mem_map.mp member
    obtain ⟨ancestor, line, own, dynamic, -⟩ := Heap.mem_instanceFields among
    have fieldKnown := (stage.sound.ancestor inside line).fields _ own
    unfold World.FieldKnown at fieldKnown
    rw [if_neg (by simp [dynamic])] at fieldKnown
    exact fieldKnown
  · rintro w₁ m₁ cells stage₁ leads₁ - ⟨cellsKnown, untouched⟩
    have still : (w₁.heap.object o).fields = .empty := by
      rw [Heap.object, untouched.2]
      exact empty
    refine .updated (.set (.setFields still ⟨cells⟩) rfl) (stage₁.sound.setFields still cellsKnown) ?_ trivial
    rw [stage₁.heap]
    rfl

/-- The constructor of a new instance yields the instance, if it is one that yields its receiver. -/
theorem runConstructor_yields {o : Ref .object} {c : Ref .cls} {args : List Value}
    (stage : Stage view k w m) (known : w.Known view (.object o))
    (inside : c.index < w.heap.classes.size) (argsKnown : ∀ value ∈ args, w.Known view value)
    (line : Line) : Safe view k m.scope (fun w' value => w'.Known view value ∧
      ((∀ f ∈ w.heap.constructor? c, (w.heap.function f).Constructs) → value = .object o)) w
      (runConstructor o c args line m) := by
  refine .reading ?_
  rw [← stage.heap]
  cases found : w.heap.constructor? c with
  | none => exact .demand stage line _ fun _ => .pure stage ⟨known, fun _ => rfl⟩
  | some method =>
    refine (callMethod_yields stage (stage.sound.findMethod? inside found) known trivial argsKnown line).weaken ?_
    exact fun w' value yielded => ⟨yielded.1, fun constructs => yielded.2 (constructs method rfl)⟩

def Made (w w' : World) (c : Ref .cls) (value : Value) : Prop :=
  ∃ o, value = .object o ∧ o.index = w.heap.objects.size ∧ o.index < w'.heap.objects.size ∧
    (w'.heap.object o).cls = c

/-- Making an instance yields the new instance, unless its constructor was supplied by an interface. -/
theorem construct_yields {c : Ref .cls} {args generics : List Value} (stage : Stage view k w m)
    (known : w.Known view (.cls c)) (argsKnown : ∀ value ∈ args, w.Known view value)
    (genericsKnown : view.typed → ∀ value ∈ generics, w.Known view value) (line : Line) :
    Safe view k m.scope (fun w' value => w'.Known view value ∧
      ((∀ f ∈ w.heap.constructor? c, ¬w.heap.Supplies f) → Made w w' c value)) w
      (construct c args generics line m) := by
  refine .reading (.demand stage line _ fun _ => ?_)
  rw [← stage.heap]
  refine .bind stage (templateScope_safe stage.calm (stage.sound.classes c known) genericsKnown line) ?_
  rintro w₁ m₁ scope stage₁ leads₁ - ⟨twin, untouched⟩
  have sameClass : w₁.heap.cls c = w.heap.cls c := by rw [Heap.cls, Heap.cls, untouched.1]
  let object : Object := { cls := c, fields := .empty, templateScope := scope }
  have objectKnown : w₁.ObjectKnown view object :=
    ⟨known.mono leads₁, fun _ absent => (by cases absent), fun r member => sameClass ▸ twin r member⟩
  have leads₂ (k : Permit) : w₁.Leads k (w₁.set (w₁.heap.addObject object).2) := .set (.addObject _ _ object) rfl
  refine .allocate stage₁ (leads₂ k) (stage₁.sound.addObject objectKnown) (by rw [stage₁.heap]; rfl) ?_
  intro stage₂
  have last : (m₁.heap.addObject object).1 = ⟨w₁.heap.objects.size⟩ := by
    rw [← stage₁.heap]
    rfl
  rw [last]
  generalize made : w₁.set (w₁.heap.addObject object).2 = w₂ at stage₂ leads₂ ⊢
  have classKnown : w₂.Known view (.cls c) := (known.mono leads₁).mono (leads₂ k)
  have knownObject : w₂.Known view (.object ⟨w₁.heap.objects.size⟩) := by
    simp [← made, World.set, Heap.addObject, World.Known]
  have empty : (w₂.heap.object ⟨w₁.heap.objects.size⟩).fields = .empty := by
    rw [← made, World.set, Heap.object_addObject, if_pos rfl]
  refine .bind stage₂ (fillFields_safe stage₂.calm knownObject classKnown empty scope) ?_
  intro w₃ m₃ _ stage₃ leads₃ _ _
  refine (runConstructor_yields stage₃ (knownObject.mono leads₃) (classKnown.mono leads₃)
    (fun value member => (((argsKnown value member).mono leads₁).mono (leads₂ k)).mono leads₃) line).weakenLater
    (.refl k w₃) fun w₄ value leads₄ yielded => ⟨yielded.1, fun own => ?_⟩
  have before : w.heap.Grows (fun _ _ => True) w₃.heap :=
    (leads₁.grows.mono fun _ _ _ => trivial).trans (((leads₂ k).grows.mono fun _ _ _ => trivial).trans
      (leads₃.grows.mono fun _ _ _ => trivial))
  have constructs (f : Ref .function) (found : f ∈ w₃.heap.constructor? c) :
      (w₃.heap.function f).Constructs := by
    rw [Heap.constructor?, Heap.findMethod?_stays stage.sound.linked known before] at found
    have method := stage.sound.methodKnown known found
    rw [(before.functions f method.1.1).2]
    exact (method.2 rfl).resolve_right (own f found)
  have stays := leads₄.grows.objects _ (knownObject.mono leads₃)
  have filled := leads₃.grows.objects _ knownObject
  refine ⟨_, yielded.2 constructs, ?_, stays.1, ?_⟩
  · exact congrArg Array.size untouched.2
  · rw [stays.2.cls, filled.2.cls, ← made, World.set, Heap.object_addObject, if_pos rfl]

theorem construct_safe {c : Ref .cls} {args generics : List Value} (stage : Stage view k w m)
    (known : w.Known view (.cls c)) (argsKnown : ∀ value ∈ args, w.Known view value)
    (genericsKnown : ∀ value ∈ generics, w.Known view value) (line : Line) :
    Safe view k m.scope (World.Known view) w (construct c args generics line m) :=
  (construct_yields stage known argsKnown (fun _ => genericsKnown) line).weaken fun _ _ => And.left

end Evaluator

end Treewalk
