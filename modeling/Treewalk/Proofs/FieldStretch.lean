import Treewalk.Proofs.SafeConstruct
import Treewalk.Proofs.Stretch

/-!
What a stretch of a run does to classes and instances. Instances are made, each with all the fields that its
class and the superclasses have for it; at the end of a stretch, a field of an instance or of a class may be
written, or a class may be declared. A new instance has its fields with the initial values from the classes.
-/

namespace Treewalk

/-- A type that is a name, which may be bound to another type. -/
def TypeDesc.isName (t : TypeDesc) : Bool :=
  t.kind = .object && !t.isNull && !t.isFunction

theorem Heap.resolveType_of_not_name {t : TypeDesc} (other : t.isName = false) (h : Heap) (r : Ref .scope) :
    h.resolveType t r = t := by
  unfold resolveType
  rw [if_pos]
  unfold TypeDesc.isName at other
  by_cases object : t.kind = .object
  · simp only [object, decide_true, Bool.true_and, Bool.and_eq_false_iff, Bool.not_eq_false'] at other
    exact .inr other
  · exact .inl object

/-- A cell of an instance comes from one of a class: it holds the initial value, and its type is what the type
there has been resolved to. -/
def Cell.Stems (init cell : Cell) : Prop :=
  ∀ value, cell.content = .plain value → init.content = .plain value ∧
    ∀ t ∈ cell.declared, ∃ t₀ ∈ init.declared, t₀.isName = false → t = t₀

namespace Heap

/-- A field of an instance is as a class has it for new instances. -/
def Stock (h : Heap) (o : Ref .object) (x : String × Cell) : Prop :=
  ∃ d ∈ h.lineage (h.object o).cls, ∃ init, (x.1, init) ∈ (h.cls d).fields.entries ∧
    init.modifiers.static = false ∧ init.Stems x.2

def Owns (h : Heap) (o : Ref .object) : Prop :=
  ∀ d ∈ h.lineage (h.object o).cls, ∀ x ∈ (h.cls d).fields.entries, x.2.modifiers.static = false →
    (h.object o).fields.contains x.1 = true

structure Equipped (h : Heap) (o : Ref .object) : Prop where
  stock : ∀ x ∈ (h.object o).fields.entries, h.Stock o x
  owns : h.Owns o

/-- Instances are made, and nothing else happens to classes and instances. -/
structure Makes (h h' : Heap) : Prop where
  classes : h'.classes = h.classes
  size : h.objects.size ≤ h'.objects.size
  objects : ∀ o, h'.object o = h.object o ∨ h.objects.size ≤ o.index ∧ h'.Equipped o

theorem lineage_of_superclass {h h' : Heap} (same : ∀ c, (h'.cls c).superclass = (h.cls c).superclass)
    (c : Ref .cls) : h'.lineage c = h.lineage c := by
  have from' (fuel : Nat) (c : Ref .cls) : h'.lineageFrom fuel c = h.lineageFrom fuel c := by
    induction fuel generalizing c with
    | zero => rfl
    | succ fuel ih =>
      unfold lineageFrom
      rw [same]
      cases (h.cls c).superclass with
      | none => rfl
      | some parent => simp only [ih]
  exact from' _ c

section

variable {h h' h'' : Heap} {o : Ref .object}

theorem cls_of_classes (classes : h'.classes = h.classes) (c : Ref .cls) : h'.cls c = h.cls c := by
  rw [cls, cls, classes]

theorem lineage_of_classes (classes : h'.classes = h.classes) (c : Ref .cls) : h'.lineage c = h.lineage c :=
  lineage_of_superclass (fun c => by rw [cls_of_classes classes]) c

theorem Stock.same (classes : h'.classes = h.classes) (object : (h'.object o).cls = (h.object o).cls)
    {x : String × Cell} (stock : h.Stock o x) : h'.Stock o x := by
  obtain ⟨d, line, init, field, own, stems⟩ := stock
  refine ⟨d, ?_, init, ?_, own, stems⟩
  · rwa [lineage_of_classes classes, object]
  · rwa [cls_of_classes classes]

theorem Owns.same (classes : h'.classes = h.classes) (object : (h'.object o).cls = (h.object o).cls)
    (fields : ∀ name, (h.object o).fields.contains name = true → (h'.object o).fields.contains name = true)
    (owns : h.Owns o) : h'.Owns o := by
  intro d line x field own
  rw [lineage_of_classes classes, object] at line
  rw [cls_of_classes classes] at field
  exact fields _ (owns d line x field own)

theorem Equipped.same (classes : h'.classes = h.classes) (object : h'.object o = h.object o)
    (equipped : h.Equipped o) : h'.Equipped o where
  stock x field := by
    rw [object] at field
    exact (equipped.stock x field).same classes (by rw [object])
  owns := equipped.owns.same classes (by rw [object]) fun _ there => by rwa [object]

namespace Makes

theorem refl (h : Heap) : h.Makes h :=
  ⟨rfl, Nat.le_refl _, fun _ => .inl rfl⟩

theorem trans (first : h.Makes h') (second : h'.Makes h'') : h.Makes h'' where
  classes := second.classes.trans first.classes
  size := Nat.le_trans first.size second.size
  objects o := by
    rcases second.objects o with same | ⟨new, equipped⟩
    · rw [same]
      exact (first.objects o).imp_right fun made => ⟨made.1, made.2.same second.classes same⟩
    · exact .inr ⟨Nat.le_trans first.size new, equipped⟩

theorem same (makes : h.Makes h') (objects : h''.objects = h'.objects) (classes : h''.classes = h'.classes) :
    h.Makes h'' :=
  makes.trans ⟨classes, Nat.le_of_eq (by rw [objects]), fun o => .inl (by rw [object, object, objects])⟩

theorem field (makes : h.Makes h') {x : String × Cell} (field : x ∈ (h'.object o).fields.entries) :
    h'.object o = h.object o ∨ h'.Stock o x :=
  (makes.objects o).imp_right fun made => made.2.stock x field

theorem old (makes : h.Makes h') (there : o.index < h.objects.size) : h'.object o = h.object o :=
  (makes.objects o).resolve_right fun made => Nat.not_le_of_lt there made.1

theorem owns (makes : h.Makes h') (owned : h.Owns o) : h'.Owns o := by
  rcases makes.objects o with same | ⟨-, equipped⟩
  · exact owned.same makes.classes (by rw [same]) fun _ there => by rwa [same]
  · exact equipped.owns

end Makes

end

end Heap

/-- A value was computed in the past, and conformed to a type as it was then meant in a scope. -/
def Computed (past : List Event) (value : Value) (t : TypeDesc) (scope : Ref .scope) : Prop :=
  ∃ e m n, .ended (.expr e) m (.ok value n) ∈ past ∧ n.heap.conforms value (n.heap.resolveType t scope) = true

/-- The initial values of instance fields were checked when they had been computed. -/
def CellsChecked (past : List Event) (scope : Ref .scope) (cells : List (String × Cell)) : Prop :=
  ∀ x ∈ cells, x.2.modifiers.static = false → ∀ value, x.2.content = .plain value →
    ∀ t ∈ x.2.declared, value = .nil ∨ Computed past value t scope

/-- The fields of a class have a name each, and their initial values were checked in its scope. -/
structure Class.Checked (past : List Event) (c : Class) : Prop where
  distinct : c.fields.names.Nodup
  initial : CellsChecked past c.scope c.fields.entries

/-- What a stretch does to classes and instances. -/
inductive Heap.Stretch (past : List Event) (h h' : Heap) : Prop where
  | made (makes : h.Makes h')
  | written {mid : Heap} {o : Ref .object} {name : String} {cell : Cell} {value : Value} (makes : h.Makes mid)
      (found : (mid.object o).fields.find? name = some cell)
      (wrote : mid.writeCell cell name value = .ok (.stored { cell with content := .plain value }))
      (last : h' = mid.setField o name { cell with content := .plain value })
  | shared {mid : Heap} {owner : Ref .cls} {name : String} {cell : Cell} {value : Value} (makes : h.Makes mid)
      (found : (mid.cls owner).fields.find? name = some cell)
      (static : cell.modifiers.static = true ∨
        ∃ o, owner ∈ mid.lineage (mid.object o).cls ∧ (mid.object o).fields.find? name = none)
      (last : h' = mid.setClassField owner name { cell with content := .plain value })
  | declared (objects : ∀ o, h'.object o = h.object o)
      (old : ∀ c : Ref .cls, c.index ≠ h.classes.size → h'.cls c = h.cls c)
      (checked : (h'.cls ⟨h.classes.size⟩).Checked past)

theorem Heap.Makes.narrow : Local Stretch Makes where
  refl := .refl
  within _ _ _ := .made
  same makes := makes.same

/-! Making instances. -/

/-- A computation that neither stops short nor asks for anything, and leaves classes and instances as they are. -/
def Run.Still (Q : α → Prop) (c : Run α) : Prop :=
  ∀ m, ∃ a m', c m = .done (.ok a m') ∧ m'.heap.objects = m.heap.objects ∧ m'.heap.classes = m.heap.classes ∧ Q a

namespace Run.Still

theorem pure {Q : α → Prop} {a : α} (holds : Q a) : (Pure.pure a : Run α).Still Q :=
  fun m => ⟨a, m, rfl, rfl, rfl, holds⟩

theorem bind {P : α → Prop} {Q : β → Prop} {c : Run α} {f : α → Run β} (first : c.Still P)
    (next : ∀ a, P a → (f a).Still Q) : (c >>= f).Still Q := by
  intro m
  obtain ⟨a, m', done, objects, classes, holds⟩ := first m
  obtain ⟨b, m'', last, objects', classes', reached⟩ := next a holds m'
  refine ⟨b, m'', ?_, objects'.trans objects, classes'.trans classes, reached⟩
  change (c m).andThen _ = _
  rw [done]
  exact last

theorem weaken {P Q : α → Prop} {c : Run α} (still : c.Still P) (weaker : ∀ a, P a → Q a) : c.Still Q := by
  intro m
  obtain ⟨a, m', done, objects, classes, holds⟩ := still m
  exact ⟨a, m', done, objects, classes, weaker a holds⟩

theorem reading (f : Heap → α) : (Run.reading f).Still fun _ => True :=
  fun m => ⟨_, m, rfl, rfl, rfl, trivial⟩

theorem addScope (s : Scope) : (Run.allocate (·.addScope s)).Still fun _ => True :=
  fun _ => ⟨_, _, rfl, rfl, rfl, trivial⟩

theorem addFunction (f : Function) : (Run.allocate (·.addFunction f)).Still fun _ => True :=
  fun _ => ⟨_, _, rfl, rfl, rfl, trivial⟩

end Run.Still

namespace Evaluator

theorem bindFunction_still (f : Ref .function) (receiver : Value) :
    (bindFunction f receiver).Still fun _ => True := by
  have bound (g : Function) : (bind g receiver).Still fun _ => True := by
    unfold bind
    split
    · exact .bind (.reading _) fun _ _ => .bind (.addScope _) fun _ _ => .pure trivial
    · exact .pure trivial
    · exact .pure trivial
  exact .bind (.reading _) fun g _ => .bind (bound g) fun _ _ => .addFunction _

theorem boundCell_still (property : Property) (receiver : Value) (f : Property → Property) :
    (bindProperty property receiver >>= fun bound => propertyCell (f bound)).Still
      fun cell => ∃ p, cell.content = .computed p := by
  have setter : (property.setter.mapM (bindFunction · receiver)).Still fun _ => True := by
    cases property.setter with
    | none => exact .pure trivial
    | some f => exact .bind (bindFunction_still f receiver) fun _ _ => .pure trivial
  have bound : (bindProperty property receiver).Still fun _ => True :=
    .bind (bindFunction_still _ receiver) fun _ _ => .bind setter fun _ _ => .pure trivial
  exact .bind bound fun _ _ m => ⟨_, _, rfl, rfl, rfl, _, rfl⟩

theorem resolved_still (declared : Option TypeDesc) (scope : Ref .scope) :
    (declared.mapM (typeIn · scope)).Still
      fun types => ∀ t ∈ types, ∃ t₀ ∈ declared, t₀.isName = false → t = t₀ := by
  cases declared with
  | none => exact .pure (by simp)
  | some t₀ =>
    intro m
    refine ⟨some (m.heap.resolveType t₀ scope), m, rfl, rfl, rfl, ?_⟩
    rintro t ⟨⟩
    exact ⟨t₀, rfl, fun other => Heap.resolveType_of_not_name other m.heap scope⟩

theorem ownCell_still (init : Cell) (scope : Ref .scope) (receiver : Value) :
    (ownCell init scope receiver).Still init.Stems := by
  refine .bind (resolved_still init.declared scope) fun types resolved => ?_
  cases content : init.content with
  | plain value => exact .pure fun _ held => ⟨content.trans held, resolved⟩
  | computed p =>
    refine .bind (.reading _) fun property _ => ?_
    refine (boundCell_still property receiver _).weaken fun cell computed value held => ?_
    obtain ⟨q, computed⟩ := computed
    rw [computed] at held
    cases held

theorem ownCells_still (receiver : Value) (own : List (String × Cell × Ref .scope)) :
    (ownCells receiver own).Still fun cells =>
      (∀ y ∈ cells, ∃ x ∈ own, y.1 = x.1 ∧ x.2.1.Stems y.2) ∧ ∀ x ∈ own, ∃ y ∈ cells, y.1 = x.1 := by
  induction own with
  | nil => exact .pure (by simp)
  | cons first rest ih =>
    obtain ⟨name, init, scope⟩ := first
    refine .bind (ownCell_still init scope receiver) fun cell stems => .bind ih fun cells others => ?_
    refine .pure ⟨fun y member => ?_, fun x member => ?_⟩
    · rcases List.mem_cons.mp member with rfl | member
      · exact ⟨_, List.mem_cons_self, rfl, stems⟩
      · obtain ⟨x, there, same⟩ := others.1 y member
        exact ⟨x, List.mem_cons_of_mem _ there, same⟩
    · rcases List.mem_cons.mp member with rfl | member
      · exact ⟨_, List.mem_cons_self, rfl⟩
      · obtain ⟨y, there, same⟩ := others.2 x member
        exact ⟨y, List.mem_cons_of_mem _ there, same⟩

end Evaluator

/-- What one member of a list brings about, and the others do not undo. -/
theorem foldl_of_mem {P : β → Prop} {f : β → α → β} {l : List α} {a : α} (kept : ∀ b a, P b → P (f b a))
    (member : a ∈ l) (enters : ∀ b, P (f b a)) (b : β) : P (l.foldl f b) := by
  induction l generalizing b with
  | nil => cases member
  | cons first rest ih =>
    rcases List.mem_cons.mp member with rfl | member
    · exact List.foldlRecOn rest f (enters b) fun b held a _ => kept b a held
    · exact ih member (f b first)

theorem Heap.instanceFields_contains {h : Heap} {c d : Ref .cls} (line : d ∈ h.lineage c) {x : String × Cell}
    (field : x ∈ (h.cls d).fields.entries) (own : x.2.modifiers.static = false) :
    (h.instanceFields c).contains x.1 = true := by
  have kept (scope : Ref .scope) (fields : NameMap (Cell × Ref .scope)) (y : String × Cell)
      (there : fields.contains x.1 = true) :
      (if y.2.modifiers.static then fields else fields.insert y.1 (y.2, scope)).contains x.1 = true := by
    split
    · exact there
    · rw [NameMap.contains_insert, there, Bool.or_true]
  let holds (fields : NameMap (Cell × Ref .scope)) : Prop := fields.contains x.1 = true
  refine foldl_of_mem (P := holds) ?_ (List.mem_reverse.mpr line) ?_ .empty
  · intro fields ancestor there
    exact List.foldlRecOn _ _ there fun fields held y _ => kept _ fields y held
  · intro fields
    refine foldl_of_mem (P := holds) (kept _) field (fun fields => ?_) fields
    simp [holds, own, NameMap.contains_insert]

namespace Evaluator

def makeInstance (c : Ref .cls) (scope : Option (Ref .scope)) : Run (Ref .object) := do
  let o ← Run.allocate (·.addObject { cls := c, fields := .empty, templateScope := scope })
  fillFields o c scope
  return o

def bareInstance (h : Heap) (c : Ref .cls) (scope : Option (Ref .scope)) : Heap :=
  (h.addObject { cls := c, fields := .empty, templateScope := scope }).2

/-- The fields of the class of a new instance, each with the scope in which its type is resolved. -/
def homes (h : Heap) (c : Ref .cls) (scope : Option (Ref .scope)) : List (String × Cell × Ref .scope) :=
  (h.instanceFields c).entries.map fun x => (x.1, x.2.1, if x.2.2 = (h.cls c).scope then scope.getD x.2.2 else x.2.2)

theorem makeInstance_of_cells {c : Ref .cls} {scope : Option (Ref .scope)} {m n : Machine} {cells : List (String × Cell)}
    (done : ownCells (.object ⟨m.heap.objects.size⟩) (homes (bareInstance m.heap c scope) c scope)
      { m with heap := bareInstance m.heap c scope } = .done (.ok cells n)) :
    makeInstance c scope m =
      .done (.ok ⟨m.heap.objects.size⟩ { n with heap := n.heap.setFields ⟨m.heap.objects.size⟩ ⟨cells⟩ }) := by
  change ((ownCells (.object ⟨m.heap.objects.size⟩) (homes (bareInstance m.heap c scope) c scope)
    { m with heap := bareInstance m.heap c scope }).andThen _).andThen _ = _
  rw [done]
  rfl

theorem construct_eq (c : Ref .cls) (args generics : List Value) (line : Line) :
    construct c args generics line = Run.reading (·.cls c) >>= fun cls =>
      Run.demand (generics.length = cls.templates.length) line
        (.genericCount cls.name cls.templates.length generics.length) >>= fun _ =>
      templateScope cls generics line >>= fun scope =>
      makeInstance c scope >>= fun o => runConstructor o c args line := by
  unfold makeInstance
  simp only [Run.bind_assoc]
  rfl

theorem equipped_of_cells {h h' : Heap} {o : Ref .object} {c : Ref .cls} {cells : List (String × Cell)}
    {home : String × Cell × Ref .scope → Ref .scope} (fields : (h'.object o).fields = ⟨cells⟩)
    (cls : (h'.object o).cls = c) (classes : h'.classes = h.classes)
    (stems : ∀ y ∈ cells, ∃ x ∈ (h.instanceFields c).entries.map fun x => (x.1, x.2.1, home x),
      y.1 = x.1 ∧ x.2.1.Stems y.2)
    (complete : ∀ x ∈ (h.instanceFields c).entries.map fun x => (x.1, x.2.1, home x), ∃ y ∈ cells, y.1 = x.1) :
    h'.Equipped o where
  stock y member := by
    rw [fields] at member
    obtain ⟨x, among, same, stem⟩ := stems y member
    obtain ⟨entry, there, rfl⟩ := List.mem_map.mp among
    obtain ⟨d, line, field, own, -⟩ := Heap.mem_instanceFields there
    refine ⟨d, ?_, entry.2.1, ?_, own, stem⟩
    · rwa [Heap.lineage_of_classes classes, cls]
    · rw [Heap.cls_of_classes classes, same]
      exact field
  owns d line x field own := by
    rw [Heap.lineage_of_classes classes, cls] at line
    rw [Heap.cls_of_classes classes] at field
    obtain ⟨entry, found⟩ := Option.isSome_iff_exists.mp (Heap.instanceFields_contains line field own)
    obtain ⟨y, there, same⟩ := complete _ (List.mem_map_of_mem (NameMap.mem_of_find? found))
    rw [fields, ← same]
    exact NameMap.contains_of_mem there

theorem makeInstance_makes (c : Ref .cls) (scope : Option (Ref .scope)) (m : Machine) :
    ∃ o m', makeInstance c scope m = .done (.ok o m') ∧ m.heap.Makes m'.heap := by
  let h := bareInstance m.heap c scope
  let o : Ref .object := ⟨m.heap.objects.size⟩
  obtain ⟨cells, m', done, objects, classes, stems, complete⟩ :=
    ownCells_still (.object o) (homes h c scope) { m with heap := h }
  have there : o.index < m'.heap.objects.size := by
    rw [objects]
    simp [h, o, bareInstance, Heap.addObject]
  have object (r : Ref .object) : m'.heap.object r = h.object r := by rw [Heap.object, Heap.object, objects]
  refine ⟨o, _, makeInstance_of_cells done, classes, ?_, fun r => ?_⟩
  · simp [Heap.setFields, objects, h, bareInstance, Heap.addObject]
  · have held := m'.heap.object_setFields o r ⟨cells⟩
    rw [object, show h = (m.heap.addObject _).2 from rfl, Heap.object_addObject] at held
    by_cases new : r = o
    · right
      subst new
      rw [if_pos ⟨rfl, there⟩, if_pos rfl] at held
      have fields : ((m'.heap.setFields o ⟨cells⟩).object o).fields = ⟨cells⟩ := by rw [held]
      have cls : ((m'.heap.setFields o ⟨cells⟩).object o).cls = c := by rw [held]
      exact ⟨Nat.le_refl _, equipped_of_cells fields cls classes stems complete⟩
    · left
      have other : r.index ≠ m.heap.objects.size := fun same => new (Ref.ext_index same)
      rwa [if_neg fun both => new (Ref.ext_index both.1.symm), if_neg other] at held

theorem construct_keeps (c : Ref .cls) (args generics : List Value) (line : Line) :
    (construct c args generics line).Keeps Heap.Stretch Heap.Makes := by
  have comp := keeps_compositional Heap.Makes.narrow
  have made (scope : Option (Ref .scope)) : (makeInstance c scope).Keeps Heap.Stretch Heap.Makes := by
    intro past h m begun
    obtain ⟨o, m', done, makes⟩ := makeInstance_makes c scope m
    rw [done]
    exact begun.trans makes
  rw [construct_eq]
  refine comp.bind (comp.reading _) fun cls => comp.bind (comp.demand _ line _) fun _ => ?_
  refine comp.bind (comp.templateScope cls generics line) fun scope => ?_
  exact comp.bind (made scope) fun o => comp.runConstructor o c args line

end Evaluator

/-! Writing fields. -/

/-- All that a plan does is stretches, its end included. -/
def Plan.Stretches (past : List Event) (h : Heap) (plan : Plan α) : Prop :=
  plan.Goes Heap.Stretch (fun past h outcome => Heap.Stretch past h outcome.machine.heap) past h

variable {past : List Event} {h : Heap} {m : Machine}

theorem Run.Keeps.stretches {c : Run α} (keeps : c.Keeps Heap.Stretch Heap.Makes) (begun : h.Makes m.heap) :
    (c m).Stretches past h :=
  (keeps past h m begun).weaken fun _ _ _ => .made

theorem Plan.Stretches.raise (begun : h.Makes m.heap) (line : Line) (fault : Fault) :
    ((Run.raise line fault : Run α) m).Stretches past h :=
  .made begun

namespace Evaluator

theorem writeProperty_keeps (p : Ref .property) (value : Value) (line : Line) :
    (writeProperty p value line).Keeps Heap.Stretch Heap.Makes :=
  (keeps_compositional Heap.Makes.narrow).writeProperty p value line

theorem setOfClass_stretches (begun : h.Makes m.heap) {owner : Ref .cls} {cell : Cell} {name : Name} (value : Value)
    (found : (m.heap.cls owner).fields.find? name.text = some cell)
    (static : cell.modifiers.static = true ∨
      ∃ o, owner ∈ m.heap.lineage (m.heap.object o).cls ∧ (m.heap.object o).fields.find? name.text = none) :
    (setOfClass owner cell name value m).Stretches past h := by
  change ((Run.orRaise name.line (m.heap.writeCell cell name.text value) >>= _) m).Stretches past h
  cases wrote : m.heap.writeCell cell name.text value with
  | error fault => exact .raise begun name.line fault
  | ok write =>
    cases write with
    | stored written =>
      obtain ⟨-, rfl, -⟩ := Heap.writeCell_stored wrote
      exact .shared begun found static rfl
    | computed p => exact (writeProperty_keeps p value name.line).stretches begun

theorem ownedField_cases (c : Ref .cls) (name : Name) (m : Machine) :
    (∃ fault, ownedField c name m = Run.raise name.line fault m) ∨
      ∃ owner cell, ownedField c name m = .done (.ok (owner, cell) m) ∧
        m.heap.fieldOwner? c name.text = some owner ∧ (m.heap.cls owner).fields.find? name.text = some cell := by
  unfold ownedField
  rw [Run.heap_bind]
  cases nearest : m.heap.fieldOwner? c name.text with
  | none => exact .inl ⟨_, rfl⟩
  | some owner =>
    cases found : (m.heap.cls owner).fields.find? name.text with
    | none =>
      left
      simp only [found]
      exact ⟨_, rfl⟩
    | some cell =>
      right
      simp only [found]
      exact ⟨owner, cell, rfl, rfl, found⟩

theorem setOfObject_stretches (begun : h.Makes m.heap) (o : Ref .object) (name : Name) (value : Value) :
    (setOfObject o name value m).Stretches past h := by
  unfold setOfObject
  rw [Run.reading_bind]
  cases found : (m.heap.object o).fields.find? name.text with
  | some cell =>
    change ((Run.orRaise name.line (m.heap.writeCell cell name.text value) >>= _) m).Stretches past h
    cases wrote : m.heap.writeCell cell name.text value with
    | error fault => exact .raise begun name.line fault
    | ok write =>
      cases write with
      | stored written =>
        obtain ⟨-, rfl, -⟩ := Heap.writeCell_stored wrote
        exact .written begun found wrote rfl
      | computed p => exact (writeProperty_keeps p value name.line).stretches begun
  | none =>
    change ((ownedField (m.heap.object o).cls name m).andThen _).Stretches past h
    rcases ownedField_cases (m.heap.object o).cls name m with ⟨fault, stops⟩ | ⟨owner, cell, owned, nearest, there⟩
    · rw [stops]
      exact .raise begun name.line fault
    · have line : owner ∈ m.heap.lineage (m.heap.object o).cls := List.mem_of_find?_eq_some nearest
      rw [owned]
      -- The warning does not touch the heap.
      change (setOfClass owner cell name value { m with err := _, warnings := _ }).Stretches past h
      refine setOfClass_stretches ?_ value ?_ (.inr ⟨o, ?_, ?_⟩)
      all_goals assumption

theorem setMember_stretches (begun : h.Makes m.heap) (target : Value) (name : Name) (value : Value)
    (qualified : Bool) : (setMember target name value qualified m).Stretches past h := by
  cases target with
  | object o =>
    cases qualified with
    | true => exact .raise begun name.line _
    | false => exact setOfObject_stretches begun o name value
  | cls c =>
    change ((ownedField c name m).andThen _).Stretches past h
    rcases ownedField_cases c name m with ⟨fault, stops⟩ | ⟨owner, cell, owned, -, there⟩
    · rw [stops]
      exact .raise begun name.line fault
    · rw [owned]
      change ((if cell.modifiers.static = true then setOfClass owner cell name value else _ : Run Unit) m).Stretches past h
      split
      · rename_i static
        exact setOfClass_stretches begun value there (.inl static)
      · exact .raise begun name.line _
  | enumeration e => exact .raise begun name.line _
  | _ => exact .raise begun name.line _

theorem setProperty_stretches (begun : h.Makes m.heap) (object : Expr) (name : Name) (site : AssignSite)
    (value : Option Expr) (qualified : Bool) : (setProperty object name site value qualified m).Stretches past h := by
  have comp := keeps_compositional Heap.Makes.narrow
  refine (comp.memberValue object name site value qualified past h m begun).bind (fun more h' x m' begun' => ?_)
    fun _ _ _ _ => .made
  exact (setMember_stretches begun' x.1 name x.2 qualified).bind (fun _ _ _ _ done => done) fun _ _ _ _ done => done

end Evaluator

/-! Declaring classes. -/

structure Heap.Idle (h later : Heap) : Prop where
  objects : later.objects = h.objects
  classes : later.classes = h.classes

theorem Heap.Idle.makes {later : Heap} (idle : h.Idle later) : h.Makes later :=
  (Makes.refl h).same idle.objects idle.classes

theorem Heap.Idle.narrow : Local Stretch Idle where
  refl _ := ⟨rfl, rfl⟩
  within _ _ _ idle := .made idle.makes
  same idle objects classes := ⟨objects.trans idle.objects, classes.trans idle.classes⟩

theorem CellsChecked.mono {scope : Ref .scope} {cells : List (String × Cell)} (checked : CellsChecked past scope cells)
    (more : List Event) : CellsChecked (past ++ more) scope cells := by
  intro x member own value plain t typed
  refine (checked x member own value plain t typed).imp_right ?_
  rintro ⟨e, m, n, ended, conforms⟩
  exact ⟨e, m, n, List.mem_append_left _ ended, conforms⟩

theorem Class.Checked.mono {c : Class} (checked : c.Checked past) (more : List Event) : c.Checked (past ++ more) :=
  ⟨checked.distinct, checked.initial.mono more⟩

/-- Classes and instances stay as they are, and the result is right in view of what has happened. -/
def Plan.Gives (Q : List Event → α → Prop) (past : List Event) (h : Heap) (plan : Plan α) : Prop :=
  plan.Goes Heap.Stretch (fun past h outcome => h.Idle outcome.machine.heap ∧
    ∀ a m, outcome = .ok a m → Q past a) past h

namespace Plan.Gives

variable {Q : List Event → α → Prop} {P : List Event → β → Prop}

theorem bind {c : Run α} {f : α → Run β} (first : (c m).Gives Q past h)
    (next : ∀ more h' a m', h'.Idle m'.heap → Q (past ++ more) a → (f a m').Gives P (past ++ more) h') :
    ((c >>= f) m).Gives P past h := by
  refine Plan.Goes.bind first (fun more h' a m' reached => next more h' a m' reached.1 (reached.2 a m' rfl)) ?_
  exact fun more h' reason m' reached => ⟨reached.1, fun _ _ same => by cases same⟩

theorem pure {a : α} (idle : h.Idle m.heap) (holds : Q past a) : ((Pure.pure a : Run α) m).Gives Q past h :=
  ⟨idle, fun _ _ same => by cases same; exact holds⟩

theorem raise (idle : h.Idle m.heap) (line : Line) (fault : Fault) :
    ((Run.raise line fault : Run α) m).Gives Q past h :=
  ⟨idle, fun _ _ same => by cases same⟩

theorem of_keeps {c : Run α} (keeps : c.Keeps Heap.Stretch Heap.Idle) (idle : h.Idle m.heap) :
    (c m).Gives (fun _ _ => True) past h :=
  (keeps past h m idle).weaken fun _ _ _ reached => ⟨reached, fun _ _ _ => trivial⟩

theorem of_still {Q : α → Prop} {c : Run α} (still : c.Still Q) (idle : h.Idle m.heap) :
    (c m).Gives (fun _ a => Q a) past h := by
  obtain ⟨a, m', done, objects, classes, holds⟩ := still m
  rw [done]
  exact ⟨Heap.Idle.narrow.same idle objects classes, fun _ _ same => by cases same; exact holds⟩

theorem inScope {c : Run α} {scope : Ref .scope} (inner : (c { m with scope := scope }).Gives Q past h) :
    (Run.inScope scope c m).Gives Q past h := by
  refine Plan.Goes.andThen inner fun more h' outcome reached => ?_
  cases outcome with
  | error reason m' => exact ⟨reached.1, fun _ _ same => by cases same⟩
  | ok a m' => exact ⟨reached.1, fun _ _ same => by cases same; exact reached.2 a m' rfl⟩

end Plan.Gives

theorem Plan.Stretches.after {Q : List Event → α → Prop} {c : Run α} {f : α → Run β}
    (first : (c m).Gives Q past h)
    (next : ∀ more h' a m', h'.Idle m'.heap → Q (past ++ more) a → (f a m').Stretches (past ++ more) h') :
    ((c >>= f) m).Stretches past h :=
  Plan.Goes.bind first (fun more h' a m' reached => next more h' a m' reached.1 (reached.2 a m' rfl))
    fun _ _ _ _ reached => .made reached.1.makes

namespace Evaluator

theorem initialValue_gives (idle : h.Idle m.heap) (decl : VarDecl) (scope : Ref .scope) :
    (initialValue decl scope m).Gives
      (fun past x => ∀ t ∈ decl.declared, x.1 = .nil ∨ Computed past x.1 t scope) past h := by
  unfold initialValue option
  cases decl.initializer with
  | none => exact .pure idle fun _ _ => .inl rfl
  | some e =>
    refine ⟨.made idle.makes, fun more outcome ended => ?_⟩
    have begun (n : Machine) : n.heap.Idle n.heap := ⟨rfl, rfl⟩
    cases outcome with
    | error reason n => exact ⟨begun n, fun _ _ same => by cases same⟩
    | ok value n =>
      let declared := decl.declared.map fun t => n.heap.resolveType t scope
      change Plan.Gives _ _ n.heap ((Run.orRaise decl.name.line (n.heap.checkType declared decl.name.text value) >>=
        fun _ => Run.orRaise decl.name.line (Heap.checkRange decl.modifiers decl.name.text value) >>= fun _ =>
          Pure.pure (value, declared)) n)
      cases typed : n.heap.checkType declared decl.name.text value with
      | error fault => exact .raise (begun n) _ _
      | ok _ =>
        cases Heap.checkRange decl.modifiers decl.name.text value with
        | error fault => exact .raise (begun n) _ _
        | ok _ =>
          refine .pure (begun n) fun t annotated => .inr ⟨e, m, n, List.mem_append_right _ ended, ?_⟩
          have meant : declared = some (n.heap.resolveType t scope) := by
            simp only [declared, Option.mem_def.mp annotated, Option.map_some]
          exact Heap.conforms_of_checkType typed _ meant

theorem fieldCell_gives (idle : h.Idle m.heap) (scope : Ref .scope) (field : Field) :
    (fieldCell scope field m).Gives (fun past x => CellsChecked past scope [x]) past h := by
  cases field with
  | var decl =>
    refine .bind (initialValue_gives idle decl scope) fun more h' x m' idle' computed => ?_
    refine .pure idle' fun y member own value plain t annotated => ?_
    obtain rfl := List.mem_singleton.mp member
    simp only at own plain annotated
    rw [if_neg (by simp [own])] at annotated
    cases plain
    exact computed t annotated
  | property decl =>
    have made (t : TypeDesc) : (declaredProperty decl scope t >>= propertyCell).Still
        fun cell => ∃ p, cell.content = .computed p := by
      have setter : (decl.setter.mapM fun f => Run.allocate (·.addFunction (.ofDecl f scope false))).Still
          fun _ => True := by
        cases decl.setter with
        | none => exact .pure trivial
        | some f => exact .bind (.addFunction _) fun _ _ => .pure trivial
      have property : (declaredProperty decl scope t).Still fun _ => True :=
        .bind (.addFunction _) fun _ _ => .bind setter fun _ _ => .pure trivial
      exact .bind property fun _ _ m => ⟨_, _, rfl, rfl, rfl, _, rfl⟩
    have cell : (fieldProperty scope decl).Still fun cell => ∃ p, cell.content = .computed p := by
      unfold fieldProperty
      split
      · exact .bind (.reading _) fun t _ => made t
      · exact made decl.declared
    refine .bind (.of_still cell idle) fun more h' cell m' idle' computed => ?_
    refine .pure idle' fun y member own value plain t annotated => ?_
    obtain rfl := List.mem_singleton.mp member
    obtain ⟨p, computed⟩ := computed
    rw [show cell.content = .plain value from plain] at computed
    cases computed

theorem fieldCells_gives (idle : h.Idle m.heap) (scope : Ref .scope) (fields : List Field) {cells : NameMap Cell}
    (distinct : cells.names.Nodup) (checked : CellsChecked past scope cells.entries) :
    (fieldCells scope fields cells m).Gives
      (fun past cells => cells.names.Nodup ∧ CellsChecked past scope cells.entries) past h := by
  induction fields generalizing past h m cells with
  | nil => exact .pure idle ⟨distinct, checked⟩
  | cons field rest ih =>
    refine .bind (fieldCell_gives idle scope field) fun more h' x m' idle' first => ?_
    refine ih idle' (NameMap.nodup_insert distinct _ _) fun y member => ?_
    rcases NameMap.mem_insert member with rfl | member
    · exact first _ (by simp)
    · exact checked.mono more y member

theorem declaredClass_gives (idle : h.Idle m.heap) (decl : ClassDecl) (superclass : Ref .cls)
    (interfaces : List (Ref .interface)) (scope : Ref .scope) :
    (declaredClass decl superclass interfaces scope m).Gives (fun past cls => cls.Checked past) past h := by
  have comp := keeps_compositional Heap.Idle.narrow
  have fields {past : List Event} {h : Heap} {m : Machine} (idle : h.Idle m.heap) :
      (Run.inScope scope (fieldCells scope decl.fields .empty) m).Gives
        (fun past cells => cells.names.Nodup ∧ CellsChecked past scope cells.entries) past h := by
    refine .inScope (fieldCells_gives ?_ scope decl.fields List.nodup_nil fun _ member => by cases member)
    exact idle
  refine .bind (.of_keeps (comp.declaredMethods _ scope interfaces _ _) idle) fun _ _ declared _ idle _ => ?_
  refine .bind (.of_keeps comp.heap idle) fun _ _ found _ idle _ => .bind (fields idle) fun _ _ cells _ idle checked => ?_
  refine .bind (.of_keeps comp.heap idle) fun more _ later _ idle _ => ?_
  refine .bind (.of_keeps (comp.orRaise _ _) idle) fun more' _ _ _ idle _ => .pure idle ?_
  exact ⟨checked.1, (checked.2.mono more).mono more'⟩

/-- Binding changes no names, and what it adds to the fields of a class is computed. -/
theorem bindStatics_still (receiver : Value) (cells : List (String × Cell)) :
    (bindStatics receiver cells).Still fun bound => bound.map Prod.fst = cells.map Prod.fst ∧
      ∀ y ∈ bound, ∀ value, y.2.content = .plain value → y ∈ cells := by
  induction cells with
  | nil => exact .pure (by simp)
  | cons first rest ih =>
    obtain ⟨name, cell⟩ := first
    have bound : (bindStatic receiver cell).Still fun other => other = cell ∨ ∃ p, other.content = .computed p := by
      unfold bindStatic
      split
      · exact .pure (.inl rfl)
      · split
        · exact .bind (.reading _) fun property _ => (boundCell_still property receiver id).weaken fun _ => .inr
        · exact .pure (.inl rfl)
    refine .bind bound fun other origin => .bind ih fun others ⟨names, kept⟩ => ?_
    refine .pure ⟨by simp [names], fun y member value plain => ?_⟩
    rcases List.mem_cons.mp member with rfl | member
    · rcases origin with rfl | ⟨p, computed⟩
      · exact List.mem_cons_self
      · rw [show other.content = .plain value from plain] at computed
        cases computed
    · exact List.mem_cons_of_mem _ (kept y member value plain)

theorem addClass_declares {cls : Class} (checked : cls.Checked past) (m : Machine) :
    ∃ c m', addClass cls m = .done (.ok c m') ∧ m'.heap.objects = m.heap.objects ∧
      (∀ r : Ref .cls, r.index ≠ m.heap.classes.size → m'.heap.cls r = m.heap.cls r) ∧
        (m'.heap.cls ⟨m.heap.classes.size⟩).Checked past := by
  let h := (m.heap.addClass { cls with fields := .empty }).2
  let c : Ref .cls := ⟨m.heap.classes.size⟩
  obtain ⟨cells, m', done, objects, classes, names, kept⟩ := bindStatics_still (.cls c) cls.fields.entries { m with heap := h }
  have there : c.index < m'.heap.classes.size := by
    rw [classes]
    simp [h, c, Heap.addClass]
  have held (r : Ref .cls) : (m'.heap.setClassFields c ⟨cells⟩).cls r =
      if c.index = r.index ∧ r.index < m'.heap.classes.size then
        { (if r.index = m.heap.classes.size then { cls with fields := .empty } else m.heap.cls r) with
          fields := ⟨cells⟩ }
      else if r.index = m.heap.classes.size then { cls with fields := .empty } else m.heap.cls r := by
    rw [Heap.cls_setClassFields, Heap.cls_of_classes classes, Heap.cls_addClass]
  refine ⟨c, { m' with heap := m'.heap.setClassFields c ⟨cells⟩ }, ?_, objects, fun r other => ?_, ?_⟩
  · change ((bindStatics (.cls c) cls.fields.entries { m with heap := h }).andThen _) = _
    rw [done]
    rfl
  · rw [held, if_neg fun both => other both.1.symm, if_neg other]
  · rw [held, if_pos ⟨rfl, there⟩, if_pos rfl]
    refine ⟨?_, fun x member own value plain => checked.initial x (kept x member value plain) own value plain⟩
    change (cells.map Prod.fst).Nodup
    rw [names]
    exact checked.distinct

theorem declareClass_stretches (idle : h.Idle m.heap) (decl : ClassDecl) : (declareClass decl m).Stretches past h := by
  have comp := keeps_compositional Heap.Idle.narrow
  have define (r : Ref .scope) (name : String) (cell : Cell) :
      (Run.update (·.define r name cell)).Keeps Heap.Stretch Heap.Idle :=
    fun _ _ _ idle => Heap.Idle.narrow.same idle rfl rfl
  refine .after (.of_keeps (comp.evalSuperclass decl) idle) fun _ _ superclass _ idle _ => ?_
  refine .after (.of_keeps (comp.evalInterfaces _ _) idle) fun _ _ interfaces _ idle _ => ?_
  refine .after (.of_keeps comp.currentScope idle) fun _ _ outer _ idle _ => ?_
  refine .after (.of_keeps (define outer _ _) idle) fun _ _ _ _ idle _ => ?_
  refine .after (.of_keeps (comp.addScope _) idle) fun _ _ scope _ idle _ => ?_
  refine .after (declaredClass_gives idle decl superclass interfaces scope) fun _ h' cls m' idle checked => ?_
  obtain ⟨c, last, done, objects, old, new⟩ := addClass_declares checked m'
  change ((addClass cls m').andThen _).Stretches _ _
  rw [done]
  rw [idle.classes] at old new
  refine .declared (fun o => ?_) (fun r other => (old r other).trans (Heap.cls_of_classes idle.classes r)) new
  change last.heap.object o = _
  rw [Heap.object, Heap.object, objects, idle.objects]

end Evaluator

/-! Whole activities. -/

namespace Evaluator

theorem evalExpr_stretches (begun : h.Makes m.heap) (e : Expr) : (evalExpr e m).Stretches past h := by
  have comp := keeps_compositional Heap.Makes.narrow
  by_cases sets : ∃ object name site value, e = .set object name site value ∨ e = .staticSet object name site value
  · obtain ⟨object, name, site, value, rfl | rfl⟩ := sets
    · exact setProperty_stretches begun object name site value false
    · exact setProperty_stretches begun object name site value true
  · refine Run.Keeps.stretches (comp.evalExpr (fun ref site value _ => ?_) ?_ construct_keeps) begun
    · refine comp.assign (comp.writeVariable fun _ _ _ => ?_) ref site value
      exact .update Heap.Makes.narrow (fun _ => rfl) fun _ => rfl
    · exact fun object name site value _ is => absurd ⟨object, name, site, value, is⟩ sets

theorem block_keeps (scope : Ref .scope) (body : List Stmt) : (block scope body).Keeps Heap.Stretch Heap.Makes :=
  .inScope scope ((keeps_compositional Heap.Makes.narrow).stmts fun _ _ => .ask Heap.Makes.narrow _)

theorem define_keeps (r : Ref .scope) (name : String) (cell : Cell) :
    (Run.update (·.define r name cell)).Keeps Heap.Stretch Heap.Makes :=
  .update Heap.Makes.narrow (fun _ => rfl) fun _ => rfl

theorem evalStmt_stretches (s : Stmt) (fuel : Nat) (m : Machine) : (evalStmt fuel s m).Stretches past m.heap := by
  have comp := keeps_compositional Heap.Makes.narrow
  by_cases isClass : ∃ decl, s = .classDecl decl
  · obtain ⟨decl, rfl⟩ := isClass
    exact Plan.Goes.bind (declareClass_stretches ⟨rfl, rfl⟩ decl) (fun _ _ _ _ done => done) fun _ _ _ _ done => done
  · refine Run.Keeps.stretches ?_ (.refl m.heap)
    cases declares : s.declares? with
    | some name =>
      exact comp.evalDeclaration (by rw [declares]; rfl) define_keeps (fun decl is => absurd ⟨decl, is⟩ isClass) fuel
    | none =>
      refine comp.evalStmt declares (fun s => .ask Heap.Makes.narrow _) (fun names body => ?_)
        (fun body _ => comp.iteration define_keeps block_keeps body _) (fun _ _ => .catching) fuel
      exact comp.bind comp.currentScope fun _ => comp.bind (comp.addScope _) fun scope => block_keeps scope body

end Evaluator

/-- Whatever is done in a run is done in such stretches. -/
theorem activities_stretch : Activity.Goes Heap.Stretch := by
  have comp := keeps_compositional Heap.Makes.narrow
  intro a fuel m past
  cases a with
  | expr e => exact Evaluator.evalExpr_stretches (.refl m.heap) e
  | stmt s => exact Evaluator.evalStmt_stretches s fuel m
  | call f args generics line =>
    refine Run.Keeps.stretches (comp.callFunction (fun body closure _ cells => ?_) args generics line) (.refl m.heap)
    exact comp.bind (comp.addScope _) fun scope => Evaluator.block_keeps scope body
  | text value => exact Run.Keeps.stretches (comp.textOf value) (.refl m.heap)

end Treewalk
