import Treewalk.Proofs.Lineage
import Treewalk.Proofs.SafeDeclare

/-!
Classes and interfaces. The scope of a class stands around its methods and accessors but for the scope
that binds `this`; static properties are bound once the class is in the heap.
-/

namespace Treewalk

open Scoping Plan

/-- A field of a class that is not in the heap yet, so that no property of it is bound. -/
def World.FieldMade (view : View) (w : World) (cell : Cell) : Prop :=
  match cell.content with
  | .plain _ => w.FieldKnown view cell
  | .computed _ => w.CellKnown view (w.Awaits view) cell

theorem World.FieldMade.mono {view : View} {k : Permit} {w w' : World} (sound : w.Sound view)
    (leads : w.Leads k w') {cell : Cell} (made : w.FieldMade view cell) : w'.FieldMade view cell := by
  unfold FieldMade at made ⊢
  split
  · rename_i plain
    rw [plain] at made
    exact made.mono sound leads
  · rename_i computed
    rw [computed] at made
    exact made.mono leads fun _ => Awaits.mono leads

namespace Evaluator

variable {view : View} {k : Permit} {w : World} {m : Machine} {p q : Place}

theorem evalSuperclass_safe {decl : ClassDecl} (stage : Stage view k w m)
    (stands : ∀ ref ∈ decl.superclass, At view q (.expr (.use ref)))
    (around : view.strict → w.Stands q.levels m.scope) :
    Safe view k m.scope (fun w' c => c.index < w'.heap.classes.size) w (evalSuperclass decl m) := by
  unfold evalSuperclass
  cases found : decl.superclass with
  | none => exact .pure stage stage.sound.root
  | some ref =>
    refine .bind stage (.eval stage.calm (stands ref found) around) ?_
    intro w₁ m₁ value stage₁ _ _ known
    cases value with
    | cls c => exact .demand stage₁ _ _ fun _ => .pure stage₁ known
    | _ => exact .raise stage₁ _ _

theorem evalInterfaces_safe {refs : List Reference} (stage : Stage view k w m) (name : Name)
    (stands : ∀ ref ∈ refs, At view q (.expr (.use ref))) (around : view.strict → w.Stands q.levels m.scope) :
    Safe view k m.scope (fun w' found => ∀ i ∈ found, i.index < w'.heap.interfaces.size) w
      (evalInterfaces name refs m) := by
  induction refs generalizing k w m with
  | nil => exact .pure stage (by simp)
  | cons ref rest ih =>
    refine .bind stage (.eval stage.calm (stands ref (by simp)) around) ?_
    intro w₁ m₁ value stage₁ leads₁ same₁ known
    cases value with
    | interface i =>
      refine .bind stage₁ (ih stage₁.calm (fun ref member => stands ref (by simp [member]))
        fun asked => same₁ ▸ (around asked).mono leads₁) ?_
      intro w₂ m₂ others stage₂ leads₂ _ inside
      refine .pure stage₂ fun j member => ?_
      rcases List.mem_cons.mp member with rfl | member
      · exact known.mono leads₂
      · exact inside j member
    | _ => exact .heap (.raise stage₁ _ _)

/-- What an interface has for a method can be a method of a class, under any name. -/
theorem supplied_known (sound : w.Sound view) {interfaces : List (Ref .interface)}
    (inside : ∀ i ∈ interfaces, i.index < w.heap.interfaces.size) {i : Ref .interface}
    (among : i ∈ interfaces) {x : String × Ref .function}
    (member : x ∈ (w.heap.interface i).methods.entries) (name : String) :
    w.MethodKnown view (name, x.2) :=
  ⟨(sound.interfaces i (inside i among)).methods x member, fun _ => .inr ⟨i, inside i among, x.1, member⟩⟩

theorem methodKnown_ofDecl {decl : FunctionDecl} {scope : Ref .scope} {f : Ref .function}
    (held : w.FunctionIs (fun g => w.Awaits view g ∧
      g = .ofDecl decl scope (decl.name.text = constructorName)) f)
    (bodied : (Function.ofDecl decl scope (decl.name.text = constructorName)).hasBody = true) :
    w.MethodKnown view (decl.name.text, f) := by
  refine ⟨⟨held.1, held.2.1⟩, fun named => .inl ?_⟩
  rw [held.2.2]
  refine ⟨by simpa [Function.ofDecl] using named, ?_⟩
  cases body : decl.body with
  | none => simp [Function.hasBody, Function.ofDecl, body] at bodied
  | some statements => exact ⟨statements, scope, by simp [Function.ofDecl, body]⟩

theorem declaredMethod_safe {decl : FunctionDecl} {scope : Ref .scope} {role : FunctionRole} {owner : Name}
    {interfaces : List (Ref .interface)} (stage : Stage view k w m)
    (stands : At view (q.receiver owner) (.function role decl)) (around : view.strict → w.Stands q.levels scope)
    (inside : ∀ i ∈ interfaces, i.index < w.heap.interfaces.size) (className : String) :
    Safe view k m.scope (fun w' f => w'.MethodKnown view (decl.name.text, f)) w
      (declaredMethod className scope interfaces decl m) := by
  refine .orRaise stage _ fun _ _ => .ite (fun bodied => ?_) fun _ => .heap ?_
  · have awaits := World.awaits_ofDecl stands around (decl.name.text = constructorName)
    have lasting : World.Lasting fun w g => w.Awaits view g ∧
        g = .ofDecl decl scope (decl.name.text = constructorName) :=
      fun _ _ _ f leads held => ⟨World.awaits_lasting view _ _ _ f leads held.1, held.2⟩
    refine (made_safe lasting awaits.rooted stage ⟨awaits, rfl⟩).weaken ?_
    exact fun w' f held => methodKnown_ofDecl held bodied
  · rw [← stage.heap]
    cases found : interfaces.findSome? (w.heap.defaultFor? (.ofDecl decl scope _)) with
    | none => exact .raise stage _ _
    | some supplied =>
      obtain ⟨i, among, given⟩ := List.exists_of_findSome?_eq_some found
      have member := NameMap.mem_of_find? (Option.eq_some_of_filter_eq_some given)
      exact .pure stage (supplied_known stage.sound inside among member _)

theorem declaredMethods_safe {decls : List FunctionDecl} {scope : Ref .scope} {owner : Name}
    {interfaces : List (Ref .interface)} {methods : NameMap (Ref .function)} (stage : Stage view k w m)
    (stands : ∀ decl ∈ decls, ∃ role, At view (q.receiver owner) (.function role decl))
    (around : view.strict → w.Stands q.levels scope)
    (inside : ∀ i ∈ interfaces, i.index < w.heap.interfaces.size)
    (known : ∀ x ∈ methods.entries, w.MethodKnown view x) (className : String) :
    Safe view k m.scope (fun w' made => ∀ x ∈ made.entries, w'.MethodKnown view x) w
      (declaredMethods className scope interfaces decls methods m) := by
  induction decls generalizing k w m methods with
  | nil => exact .pure stage known
  | cons decl rest ih =>
    obtain ⟨role, first⟩ := stands decl (by simp)
    refine .bind stage (declaredMethod_safe stage.calm first around inside className) ?_
    intro w₁ m₁ method stage₁ leads₁ _ own
    refine ih stage₁ (fun decl member => stands decl (by simp [member]))
      (fun asked => (around asked).mono leads₁)
      (fun i member => (leads₁.grows.interfaces i (inside i member)).1) fun x member => ?_
    rcases NameMap.mem_insert member with rfl | member
    · exact own
    · exact (known x member).mono leads₁

theorem mem_addDefaults {h : Heap} {superclass : Ref .cls} {interfaces : List (Ref .interface)}
    {methods : NameMap (Ref .function)} {x : String × Ref .function}
    (member : x ∈ (addDefaults h superclass interfaces methods).entries) :
    x ∈ methods.entries ∨ ∃ i ∈ interfaces, x ∈ (h.interface i).methods.entries := by
  have among (supplied : List (String × Ref .function)) (methods : NameMap (Ref .function))
      (found : x ∈ (supplied.foldl (fun methods entry =>
        if methods.contains entry.1 || (h.findMethod? superclass entry.1).isSome then methods
        else methods.insert entry.1 entry.2) methods).entries) : x ∈ methods.entries ∨ x ∈ supplied := by
    induction supplied generalizing methods with
    | nil => exact .inl found
    | cons first rest ih =>
      obtain ⟨name, f⟩ := first
      rcases ih _ found with earlier | later
      · dsimp only at earlier
        split at earlier
        · exact .inl earlier
        · rcases NameMap.mem_insert earlier with rfl | old
          · exact .inr (by simp)
          · exact .inl old
      · exact .inr (by simp [later])
  rcases among _ methods member with own | supplied
  · exact .inl own
  · obtain ⟨i, listed, default⟩ := List.mem_flatMap.mp supplied
    exact .inr ⟨i, listed, (List.mem_filter.mp default).1⟩

theorem fieldCell_safe {field : Field} {scope : Ref .scope} {owner : Name} (stage : Stage view k w m)
    (stands : ∀ part ∈ field.parts q (q.receiver owner), At view part.1 part.2)
    (around : view.strict → w.Stands q.levels m.scope) (own : view.strict → w.Stands q.levels scope) :
    Safe view k m.scope (fun w' made => w'.FieldMade view made.2) w (fieldCell scope field m) := by
  cases field with
  | var decl =>
    refine .bind stage (initialValue_safe stage.calm (fun e member => stands (q, .expr e) ?_) around scope) ?_
    · simp_all [Field.parts, VarDecl.parts]
    · rintro w₁ m₁ ⟨value, resolved⟩ stage₁ - - ⟨known, admits⟩
      refine .pure stage₁ ?_
      change w₁.FieldKnown view _
      unfold World.FieldKnown
      split
      · exact ⟨known, admits⟩
      · exact known
  | property decl =>
    have accessor (f : FunctionDecl) (member : f = decl.getter ∨ f ∈ decl.setter) :
        w.Awaits view (.ofDecl f scope false) :=
      World.awaits_ofDecl (stands (_, .function .accessor f) (mem_propertyParts member)) own false
    have made (declared : TypeDesc) := declaredCell_safe (World.awaits_lasting view)
      (fun _ _ => World.Awaits.rooted) stage.calm
      (accessor decl.getter (.inl rfl)) (fun f member => accessor f (.inr member)) declared
    refine .bind (P := World.FieldMade view) stage ?_
      fun _ _ _ stage₁ _ _ known => .pure stage₁ known
    have known (w' : World) (cell : Cell) (held : w'.CellKnown view (w'.Awaits view) cell ∧
        ∃ p, cell.content = .computed p) : w'.FieldMade view cell := by
      obtain ⟨known, p, computed⟩ := held
      unfold World.FieldMade
      rw [computed]
      exact known
    exact .ite (fun _ => .reading ((made _).weaken known)) fun _ => (made _).weaken known

theorem fieldCells_safe {fields : List Field} {scope : Ref .scope} {owner : Name} {cells : NameMap Cell}
    (stage : Stage view k w m)
    (stands : ∀ field ∈ fields, ∀ part ∈ field.parts q (q.receiver owner), At view part.1 part.2)
    (around : view.strict → w.Stands q.levels m.scope) (own : view.strict → w.Stands q.levels scope)
    (made : ∀ x ∈ cells.entries, w.FieldMade view x.2) :
    Safe view k m.scope (fun w' made => ∀ x ∈ made.entries, w'.FieldMade view x.2) w
      (fieldCells scope fields cells m) := by
  induction fields generalizing k w m cells with
  | nil => exact .pure stage made
  | cons field rest ih =>
    refine .bind stage (fieldCell_safe stage.calm (stands field (by simp)) around own) ?_
    rintro w₁ m₁ ⟨name, cell⟩ stage₁ leads₁ same₁ known
    refine ih stage₁ (fun field member => stands field (by simp [member]))
      (fun asked => same₁ ▸ (around asked).mono leads₁) (fun asked => (own asked).mono leads₁) ?_
    intro x member
    rcases NameMap.mem_insert member with rfl | member
    · exact known
    · exact (made x member).mono stage.sound leads₁

theorem bindStatic_safe {cell : Cell} {receiver : Value} (stage : Stage view k w m)
    (made : w.FieldMade view cell) (known : w.Known view receiver) (receives : receiver.Receives) :
    Safe view k m.scope (fun w' own => w'.FieldKnown view own ∧ own.modifiers = cell.modifiers ∧
      w.Untouched w') w (bindStatic receiver cell m) := by
  unfold World.FieldMade at made
  unfold bindStatic
  cases content : cell.content with
  | plain value =>
    rw [content] at made
    exact .pure stage ⟨made, rfl, .refl w⟩
  | computed p =>
    rw [content] at made
    have cellKnown : w.CellKnown view (w.Awaits view) cell := made
    refine .ite (fun static => ?_) fun dynamic => .pure stage ⟨?_, rfl, .refl w⟩
    · refine (boundCell_safe stage cellKnown content known receives id fun _ => ⟨rfl, rfl, rfl, rfl⟩).weaken ?_
      rintro w' own ⟨ownKnown, modifiers, ⟨_, computed⟩, untouched⟩
      refine ⟨?_, modifiers, untouched⟩
      unfold World.FieldKnown
      rw [if_pos (by rw [modifiers, static])]
      exact ⟨ownKnown, admits_computed _ computed⟩
    · unfold World.FieldKnown
      rw [if_neg dynamic]
      exact cellKnown

def fieldShape (fields : List (String × Cell)) : List (String × Modifiers) :=
  fields.map fun x => (x.1, x.2.modifiers)

theorem find?_shape {fields others : List (String × Cell)} (same : fieldShape fields = fieldShape others)
    (name : String) : (NameMap.findIn name fields).map Cell.modifiers =
      (NameMap.findIn name others).map Cell.modifiers := by
  induction fields generalizing others with
  | nil =>
    cases others with
    | nil => rfl
    | cons other rest => cases same
  | cons field rest ih =>
    cases others with
    | nil => cases same
    | cons other others =>
      simp only [fieldShape, List.map_cons, List.cons.injEq, Prod.mk.injEq] at same
      obtain ⟨⟨sameName, modifiers⟩, further⟩ := same
      simp only [NameMap.findIn, sameName]
      split
      · simp [modifiers]
      · exact ih further

theorem bindStatics_safe {receiver : Value} {fields : List (String × Cell)} (stage : Stage view k w m)
    (made : ∀ x ∈ fields, w.FieldMade view x.2) (known : w.Known view receiver) (receives : receiver.Receives) :
    Safe view k m.scope (fun w' cells => (∀ x ∈ cells, w'.FieldKnown view x.2) ∧
      fieldShape cells = fieldShape fields ∧ w.Untouched w') w (bindStatics receiver fields m) := by
  induction fields generalizing k w m with
  | nil => exact .pure stage ⟨by simp, rfl, .refl w⟩
  | cons field rest ih =>
    obtain ⟨name, cell⟩ := field
    refine .bind stage (bindStatic_safe stage.calm (made (name, cell) (by simp)) known receives) ?_
    rintro w₁ m₁ own stage₁ leads₁ - ⟨ownKnown, modifiers, untouched₁⟩
    refine .bind stage₁ (ih stage₁.calm (fun x member => ?_) (known.mono leads₁)) ?_
    · exact (made x (by simp [member])).mono stage.sound leads₁
    · rintro w₂ m₂ others stage₂ leads₂ - ⟨othersKnown, shape, untouched₂⟩
      refine .pure stage₂ ⟨fun x member => ?_, ?_, untouched₁.trans untouched₂⟩
      · rcases List.mem_cons.mp member with rfl | member
        · exact ownKnown.mono stage₁.sound leads₂
        · exact othersKnown x member
      · simpa [fieldShape, modifiers] using shape

/-! A class enters the heap in steps between which it is unfinished; no other activity is needed for them. -/

theorem bind_smooth (f : Function) (receiver : Value) : (bind f receiver).Smooth := by
  unfold bind
  split
  · exact .bind (.reading _) fun _ => .bind (.allocate _) fun _ => .pure _
  · exact .pure _
  · exact .pure _

theorem bindFunction_smooth (f : Ref .function) (receiver : Value) : (bindFunction f receiver).Smooth :=
  .bind (.reading _) fun _ => .bind (bind_smooth _ receiver) fun _ => .allocate _

theorem propertyCell_smooth (property : Property) : (propertyCell property).Smooth :=
  .bind (.allocate _) fun _ => .pure _

theorem bindProperty_smooth (property : Property) (receiver : Value) :
    (bindProperty property receiver).Smooth := by
  refine .bind (bindFunction_smooth _ receiver) fun _ => .bind ?_ fun _ => .pure _
  cases property.setter with
  | none => exact .pure _
  | some setter => exact .bind (bindFunction_smooth setter receiver) fun _ => .pure _

theorem bindStatics_smooth (receiver : Value) (fields : List (String × Cell)) :
    (bindStatics receiver fields).Smooth := by
  induction fields with
  | nil => exact .pure _
  | cons field rest ih =>
    refine .bind ?_ fun _ => .bind ih fun _ => .pure _
    unfold bindStatic
    split
    · exact .pure _
    · split
      · exact .bind (.reading _) fun _ => .bind (bindProperty_smooth _ receiver) fun _ => propertyCell_smooth _
      · exact .pure _

theorem addClass_smooth (c : Class) : (addClass c).Smooth :=
  .bind (.allocate _) fun _ => .bind (bindStatics_smooth _ _) fun _ => .bind (.update _) fun _ => .pure _

/-- The steps by which a class enters the heap. -/
theorem addClass_steps {c : Class} (stage : Stage view k w m)
    (known : w.ClassKnown view { c with fields := .empty })
    (made : ∀ x ∈ c.fields.entries, w.FieldMade view x.2) :
    Safe view k.making m.scope (fun w' r => r.index = w.heap.classes.size ∧
      ∃ fields, fieldShape fields = fieldShape c.fields.entries ∧
        w'.heap.classes = (w.heap.classes.push { c with fields := .empty }).modify r.index
          ({ · with fields := ⟨fields⟩ })) w (addClass c m) := by
  let bare : Class := { c with fields := .empty }
  have leads : w.Leads k.making (w.set (w.heap.addClass bare).2) := .rough (.addClass _ _ bare)
  have rough : Stage view k.making w m := ⟨stage.sound, stage.heap, stage.since⟩
  refine .allocate rough leads (stage.sound.addClass known) (by rw [stage.heap]; rfl) ?_
  intro stage₁
  have last : (m.heap.addClass bare).1 = ⟨w.heap.classes.size⟩ := by
    rw [← stage.heap]
    rfl
  rw [last]
  generalize entered : w.set (w.heap.addClass bare).2 = w₁ at stage₁ leads ⊢
  have classes : w₁.heap.classes = w.heap.classes.push bare := by rw [← entered]; rfl
  have inside : (⟨w.heap.classes.size⟩ : Ref .cls).index < w₁.heap.classes.size := by
    simp [classes]
  have empty : (w₁.heap.cls ⟨w.heap.classes.size⟩).fields = .empty := by
    rw [← entered, World.set, Heap.cls_addClass, if_pos rfl]
  refine .bind stage₁ (bindStatics_safe stage₁.calm
    (fun x member => (made x member).mono stage.sound leads) inside trivial) ?_
  rintro w₂ m₂ fields stage₂ leads₂ - ⟨fieldsKnown, shape, untouched⟩
  have still : (w₂.heap.cls ⟨w.heap.classes.size⟩).fields = .empty := by
    rw [Heap.cls, untouched.1]
    exact empty
  refine .update stage₂ (.rough (k := k) (.setClassFields still ⟨fields⟩))
    (stage₂.sound.setClassFields still fieldsKnown) (by rw [stage₂.heap]; rfl) fun stage₃ => ?_
  refine .pure stage₃ ⟨rfl, fields, shape, ?_⟩
  simp [World.set, Heap.setClassFields, untouched.1, classes, bare]

/-- A finished class enters the heap, and implements the interfaces that it suits. -/
theorem addClass_safe {c : Class} (stage : Stage view k w m)
    (known : w.ClassKnown view { c with fields := .empty })
    (made : ∀ x ∈ c.fields.entries, w.FieldMade view x.2)
    (suits : ∀ i ∈ c.interfaces, w.heap.Suits c (w.heap.interface i)) :
    Safe view k m.scope (fun w' r => r.index < w'.heap.classes.size) w (addClass c m) := by
  refine .finish (addClass_smooth c m) (addClass_steps stage known made) ?_
  rintro w' r sound grows ⟨last, fields, shape, classes⟩
  have size : w'.heap.classes.size = w.heap.classes.size + 1 := by simp [classes]
  have own : w'.heap.cls r = { c with fields := ⟨fields⟩ } := by
    rw [Heap.cls, classes, getD_modify, if_pos ⟨rfl, by simp [last]⟩, getD_push, if_pos last]
  have matures : w.heap.Matures w'.heap := by
    refine ⟨grows.mono fun _ _ _ => trivial, fun d name inside => ?_⟩
    rw [Heap.fieldModifiers?, Heap.cls, classes, getD_modify, if_neg (by omega), getD_push, if_neg (by omega)]
    rfl
  refine ⟨⟨fun d name inside => matures.fields d name inside, fun d new inside => ?_⟩, by omega⟩
  obtain rfl : d = r := Ref.ext_index (by omega)
  refine ⟨view, w', sound, inside, fun i member => ?_, .refl _⟩
  rw [own] at member
  refine stage.sound.implements_entered sound.ancestry matures known inside (by rw [own]) (by rw [own])
    (fun name => ?_) (known.interfaces i member) (suits i member)
  rw [Heap.fieldModifiers?, own]
  exact find?_shape shape name

theorem declaredClass_safe {decl : ClassDecl} {superclass : Ref .cls} {interfaces : List (Ref .interface)}
    {scope : Ref .scope} (stage : Stage view k w m)
    (proper : ∀ name, name = decl.name ∨ name ∈ decl.templates → name.Proper)
    (fields : ∀ field ∈ decl.fields, ∀ part ∈ field.parts q (q.receiver decl.name), At view part.1 part.2)
    (methods : ∀ method ∈ decl.methods, ∃ role, At view (q.receiver decl.name) (.function role method))
    (own : view.strict → w.Stands q.levels scope) (inside : superclass.index < w.heap.classes.size)
    (listed : ∀ i ∈ interfaces, i.index < w.heap.interfaces.size) (inner : scope ≠ .globals)
    (site : w.siteOf? scope = some (.cls decl)) :
    Safe view k m.scope (fun w' c => w'.ClassKnown view { c with fields := .empty } ∧
      (∀ x ∈ c.fields.entries, w'.FieldMade view x.2) ∧
      ∀ i ∈ c.interfaces, w'.heap.Suits c (w'.heap.interface i)) w
      (declaredClass decl superclass interfaces scope m) := by
  refine .bind stage (declaredMethods_safe stage.calm methods own listed (by simp [NameMap.empty]) _) ?_
  intro w₁ m₁ declared stage₁ leads₁ _ known
  have own₁ (asked : view.strict) : w₁.Stands q.levels scope := (own asked).mono leads₁
  have listed₁ (i : Ref .interface) (member : i ∈ interfaces) : i.index < w₁.heap.interfaces.size :=
    (leads₁.grows.interfaces i (listed i member)).1
  refine .heap ?_
  rw [← stage₁.heap]
  refine .bind stage₁ (.inScope (fieldCells_safe (stage₁.calm.inScope scope) fields own₁ own₁
    (by simp [NameMap.empty]))) ?_
  intro w₂ m₂ cells stage₂ leads₂ _ made
  refine .heap (.orRaise stage₂ _ fun _ passed => .pure stage₂ ⟨⟨?_, ?_, ?_, ?_, ?_, ?_, fun _ => ?_⟩,
    made, ?_⟩)
  · exact (proper decl.name (.inl rfl)).word
  · intro name member
    obtain ⟨template, among, rfl⟩ := List.mem_map.mp member
    exact ⟨(proper template (.inr among)).ordinary, (proper template (.inr among)).word⟩
  · rintro parent member
    cases member
    exact (leads₂.grows.classes _ (leads₁.grows.classes _ inside).1).1
  · intro x member
    rcases mem_addDefaults member with ours | ⟨i, among, supplied⟩
    · exact (known x ours).mono leads₂
    · exact (supplied_known stage₁.sound listed₁ among supplied x.1).mono leads₂
  · simp [NameMap.empty]
  · exact fun i member => (leads₂.grows.interfaces i (listed₁ i member)).1
  · refine ⟨inner, decl, leads₂.sites _ _ (leads₁.sites _ _ site), fun name member => ?_⟩
    obtain ⟨template, among, rfl⟩ := List.mem_map.mp member
    exact contains_declaredAll.mpr (.inr ⟨template, among, rfl⟩)
  · intro i member
    rw [stage₂.heap]
    exact Heap.suits_of_check (Heap.forM_ok passed i member)

theorem classNames_contains (superclass : Ref .cls) (decl : ClassDecl) (name : String) :
    (classNames superclass decl.templates).contains name = (Place.classFrame decl).contains name := by
  rw [Bool.eq_iff_iff, classNames, bindTemplates_contains, Place.classFrame, contains_declaredAll,
    NameMap.contains_insert]
  have zipped : ((decl.templates.map Name.text).zip (decl.templates.map fun _ => TypeDesc.any)).map Prod.fst =
      decl.templates.map Name.text := by
    rw [List.map_fst_zip]
    simp
  rw [zipped]
  simp [frameOf, NameMap.contains_insert]

/-- The scope of a class binds its superclass, and its templates to the unrestricted type. -/
theorem classNames_find? {superclass : Ref .cls} {templates : List Name} {name : String} {cell : Cell}
    (found : (classNames superclass templates).find? name = some cell) :
    (name = "super" ∧ cell = Cell.ofValue (.cls superclass)) ∨
      (∃ template ∈ templates, template.text = name) ∧ cell = Cell.ofValue (.type .any) := by
  rcases bindTemplates_find? found with own | ⟨member, t, among, bound⟩
  · rw [NameMap.find?_insert] at own
    split at own
    · rename_i same
      exact .inl ⟨same, (Option.some.inj own).symm⟩
    · cases own
  · obtain ⟨_, -, rfl⟩ := List.mem_map.mp among
    exact .inr ⟨List.mem_map.mp member, bound⟩

theorem classParts_reference {decl : ClassDecl} {ref : Reference}
    (member : ref ∈ decl.superclass ∨ ref ∈ decl.interfaces) :
    (p.binding decl.name.text, Item.expr (.use ref)) ∈ decl.parts p := by
  refine List.mem_append_left _ (List.mem_append_left _ (List.mem_map.mpr ⟨ref, ?_, rfl⟩))
  simpa using member

theorem classParts_field {decl : ClassDecl} {field : Field} {part : Place × Item}
    (member : field ∈ decl.fields) (among : part ∈ field.parts ((p.binding decl.name.text).cls decl)
      (((p.binding decl.name.text).cls decl).receiver decl.name)) : part ∈ decl.parts p :=
  List.mem_append_left _ (List.mem_append_right _ (List.mem_flatMap.mpr ⟨field, member, among⟩))

theorem classParts_method {decl : ClassDecl} {method : FunctionDecl} (member : method ∈ decl.methods) :
    (((p.binding decl.name.text).cls decl).receiver decl.name,
      Item.function (methodRole method.name) method) ∈ decl.parts p :=
  List.mem_append_right _ (List.mem_map.mpr ⟨method, member, rfl⟩)

/-- The scope of a class is opened, the class is made in it, and its name is bound to it. -/
theorem enterClass_safe {decl : ClassDecl} {superclass : Ref .cls} {interfaces : List (Ref .interface)}
    (stage : Stage view k w m) (stands : At view p (.stmt (.classDecl decl)))
    (open' : Declarable k w m.scope decl.name.text)
    (around : view.strict → w.Stands (p.binding decl.name.text).levels m.scope)
    (inside : superclass.index < w.heap.classes.size)
    (listed : ∀ i ∈ interfaces, i.index < w.heap.interfaces.size) :
    Safe view k m.scope (fun w' _ => (w'.heap.here? m.scope decl.name.text).isSome = true) w
      ((Run.allocate (·.addScope ⟨some m.scope, classNames superclass decl.templates⟩) >>= fun scope =>
        declaredClass decl superclass interfaces scope >>= fun cls => addClass cls >>= fun c =>
          Run.update (·.define m.scope decl.name.text (Cell.ofValue (.cls c)))) m) := by
  let q := (p.binding decl.name.text).cls decl
  let scope : Scope := ⟨some m.scope, classNames superclass decl.templates⟩
  have proper (name : Name) (among : name = decl.name ∨ name ∈ decl.templates) : name.Proper := by
    refine Stmt.Fits.proper stands.fits name ?_
    simpa [Stmt.boundNames, Stmt.declares?, Stmt.loopNames, Stmt.openedNames] using among
  have names (name : String) : (scope.names.find? name).isSome = (Place.classFrame decl).contains name :=
    classNames_contains superclass decl name
  have sound : (w.opened (.cls decl) scope).Sound view := by
    refine stage.sound.opened rfl (fun name cell found => ?_) (fun name cell found => ?_)
      fun other same => by cases same; exact names
    · rcases classNames_find? found with ⟨-, rfl⟩ | ⟨-, rfl⟩
      · exact ⟨inside, Heap.admits_free _ rfl rfl rfl⟩
      · exact ⟨fun _ => .any, Heap.admits_free _ rfl rfl rfl⟩
    · rcases classNames_find? found with ⟨rfl, rfl⟩ | ⟨⟨template, member, rfl⟩, -⟩
      · exact ⟨fun _ => ⟨superclass, rfl⟩, fun other => absurd other (by decide)⟩
      · exact Site.serves_ordinary (proper template (.inr member)).ordinary
  have leads (k : Permit) : w.Leads k (w.opened (.cls decl) scope) := World.leads_opened k w _ scope
  refine .allocate stage (leads k) sound (by rw [← stage.heap]; rfl) fun stage₁ => ?_
  have last : (m.heap.addScope scope).1 = ⟨w.heap.scopes.size⟩ := by
    rw [← stage.heap]
    rfl
  rw [last]
  have inner : (⟨w.heap.scopes.size⟩ : Ref .scope) ≠ .globals := fun same =>
    absurd (congrArg Ref.index same) (Nat.ne_of_gt stage.sound.globals)
  have standing (asked : view.strict) : (w.opened (.cls decl) scope).Stands q.levels ⟨w.heap.scopes.size⟩ :=
    World.stands_opened (l := ⟨.cls decl, Place.classFrame decl, none⟩) stage.sound rfl (around asked)
      fun name found => by rw [names name]; exact found
  have open₁ := open'.calm stage (leads m.calm)
  refine .bind stage₁ (declaredClass_safe stage₁.calm proper
    (fun field member part among => stands.part (classParts_field member among))
    (fun method member => ⟨_, stands.part (classParts_method member)⟩) standing inside
    listed inner (World.siteOf?_opened stage.sound _ _)) ?_
  rintro w₂ m₂ cls stage₂ leads₂ same₂ ⟨known, made, suits⟩
  refine .bind stage₂ (addClass_safe stage₂.calm known made suits) ?_
  intro w₃ m₃ c stage₃ leads₃ same₃ entered
  have same : m₃.scope = m.scope := same₃.trans same₂
  rw [← same] at open₁ ⊢
  exact define_safe stage₃ ((open₁.calm stage₁ leads₂).calm stage₂ leads₃) entered
    (Heap.admits_free _ rfl rfl rfl) fun _ => rfl

theorem declareClass_safe {decl : ClassDecl} (stage : Stage view k w m)
    (stands : At view p (.stmt (.classDecl decl))) (open' : Declarable k w m.scope decl.name.text)
    (around : view.strict → w.Stands p.levels m.scope) :
    Safe view k m.scope (fun w' _ => (w'.heap.here? m.scope decl.name.text).isSome = true) w
      (declareClass decl m) := by
  have runs : p.Runs := Stmt.Fits.runs stands.fits
  have within (asked : view.strict) := (around asked).binding runs decl.name.text
  refine .bind stage (evalSuperclass_safe stage.calm
    (fun ref member => stands.part (classParts_reference (.inl member))) within) ?_
  intro w₁ m₁ superclass stage₁ leads₁ same₁ inside
  have within₁ (asked : view.strict) := same₁ ▸ (within asked).mono leads₁
  refine .bind stage₁ (evalInterfaces_safe stage₁.calm decl.name
    (fun ref member => stands.part (classParts_reference (.inr member))) within₁) ?_
  intro w₂ m₂ interfaces stage₂ leads₂ same₂ listed
  have same : m₂.scope = m.scope := same₂.trans same₁
  have open₂ := (open'.calm stage leads₁).calm stage₁ leads₂
  rw [← same] at open₂ ⊢
  have reserved : w₂.Leads k (w₂.set (w₂.heap.define m₂.scope decl.name.text (Cell.ofValue .nil))) :=
    .set (open₂.grows _) rfl
  refine .currentScope (.update stage₂ reserved (open₂.sound stage₂.sound trivial (Heap.admits_free _ rfl rfl rfl)
    fun _ => rfl) (by rw [stage₂.heap]; rfl) fun stage₃ => ?_)
  refine enterClass_safe stage₃ stands (open₂.again rfl) (fun asked => ?_)
    (reserved.grows.classes _ (leads₂.grows.classes _ inside).1).1
    fun i member => (reserved.grows.interfaces i (listed i member)).1
  exact (same₂ ▸ (within₁ asked).mono leads₂).mono reserved

theorem interfaceMethods_safe {decls : List FunctionDecl} {closure : Ref .scope} {owner : Name}
    {methods : NameMap (Ref .function)} (stage : Stage view k w m)
    (stands : ∀ decl ∈ decls, ∃ role, At view (q.receiver owner) (.function role decl))
    (around : view.strict → w.Stands q.levels closure)
    (distinct : methods.names.Nodup) (awaits : ∀ x ∈ methods.entries, w.FunctionIs (w.Awaits view) x.2) :
    Safe view k m.scope (fun w' made => made.names.Nodup ∧
        ∀ x ∈ made.entries, w'.FunctionIs (w'.Awaits view) x.2) w
      (interfaceMethods closure decls methods m) := by
  induction decls generalizing k w m methods with
  | nil => exact .pure stage ⟨distinct, awaits⟩
  | cons decl rest ih =>
    obtain ⟨role, first⟩ := stands decl (by simp)
    have announced := World.awaits_ofDecl first around false
    refine .bind stage (made_safe (World.awaits_lasting view) announced.rooted stage.calm announced) ?_
    intro w₁ m₁ method stage₁ leads₁ _ own
    refine ih stage₁ (fun decl member => stands decl (by simp [member]))
      (fun asked => (around asked).mono leads₁) (NameMap.nodup_insert distinct _ _) fun x member => ?_
    rcases NameMap.mem_insert member with rfl | member
    · exact own
    · exact (awaits x member).mono leads₁ fun _ => World.Awaits.mono leads₁

theorem requiredCells_safe {fields : List Field} {closure : Ref .scope} {owner : Name}
    {cells : NameMap Cell} (stage : Stage view k w m)
    (stands : ∀ field ∈ fields, ∀ part ∈ field.parts q (q.receiver owner), At view part.1 part.2)
    (around : view.strict → w.Stands q.levels m.scope) (own : view.strict → w.Stands q.levels closure) :
    Safe view k m.scope (fun _ _ => True) w (requiredCells closure fields cells m) := by
  induction fields generalizing k w m cells with
  | nil => exact .pure stage trivial
  | cons field rest ih =>
    refine .bind (P := fun _ _ => True) stage ?_ fun w₁ m₁ made stage₁ leads₁ same₁ _ =>
      ih stage₁ (fun field member => stands field (by simp [member]))
        (fun asked => same₁ ▸ (around asked).mono leads₁) fun asked => (own asked).mono leads₁
    have first := stands field (by simp)
    cases field with
    | var decl =>
      refine .bind stage.calm (option_safe stage.calm (fun e member => first (q, .expr e) ?_) around) ?_
      · simp_all [Field.parts, VarDecl.parts]
      · exact fun _ _ _ stage₁ _ _ _ => .pure stage₁ trivial
    | property decl =>
      have accessor (f : FunctionDecl) (member : f = decl.getter ∨ f ∈ decl.setter) :
          w.Awaits view (.ofDecl f closure false) :=
        World.awaits_ofDecl (first (_, .function .accessor f) (mem_propertyParts member)) own false
      refine .bind stage.calm (.reading (declaredCell_safe (World.awaits_lasting view)
        (fun _ _ => World.Awaits.rooted) stage.calm (accessor decl.getter (.inl rfl))
        (fun f member => accessor f (.inr member)) _)) ?_
      exact fun _ _ _ stage₁ _ _ _ => .pure stage₁ trivial

theorem declareInterface_safe {decl : InterfaceDecl} (stage : Stage view k w m)
    (stands : At view p (.stmt (.interfaceDecl decl))) (open' : Declarable k w m.scope decl.name.text)
    (around : view.strict → w.Stands p.levels m.scope) :
    Safe view k m.scope (fun w' _ => (w'.heap.here? m.scope decl.name.text).isSome = true) w
      (declareInterface decl m) := by
  have runs : p.Runs := Stmt.Fits.runs stands.fits
  let q := (p.binding decl.name.text).inInterface
  have within (asked : view.strict) : w.Stands q.levels m.scope := (around asked).binding runs decl.name.text
  refine .currentScope (.bind stage (interfaceMethods_safe (q := q) stage.calm (fun method member =>
    ⟨_, stands.part (List.mem_append_right _ (List.mem_map.mpr ⟨method, member, rfl⟩))⟩) within
    List.nodup_nil (by simp [NameMap.empty])) ?_)
  rintro w₁ m₁ methods stage₁ leads₁ same₁ ⟨distinct, awaits⟩
  have within₁ (asked : view.strict) := (within asked).mono leads₁
  refine .bind stage₁ (requiredCells_safe (q := q) stage₁.calm (fun field member part among =>
    stands.part (List.mem_append_left _ (List.mem_flatMap.mpr ⟨field, member, among⟩)))
    (fun asked => same₁ ▸ within₁ asked) within₁) ?_
  intro w₂ m₂ fields stage₂ leads₂ same₂ _
  have same : m₂.scope = m.scope := same₂.trans same₁
  have open₂ := (open'.calm stage leads₁).calm stage₁ leads₂
  rw [← same] at open₂ ⊢
  let made : Interface := ⟨decl.name.text, methods, fields⟩
  have leads₃ (k : Permit) : w₂.Leads k (w₂.set (w₂.heap.addInterface made).2) :=
    .set (.addInterface _ _ made) rfl
  refine .allocate stage₂ (leads₃ k) (stage₂.sound.addInterface ⟨distinct, fun x member =>
    (awaits x member).mono leads₂ fun _ => World.Awaits.mono leads₂⟩) (by rw [stage₂.heap]; rfl) ?_
  intro stage₃
  refine define_safe stage₃ (open₂.calm stage₂ (leads₃ m₂.calm)) ?_ (Heap.admits_free _ rfl rfl rfl)
    fun _ => rfl
  rw [← stage₂.heap]
  simp [World.CellKnown, World.Known, Cell.ofValue, World.set, Heap.addInterface]

end Evaluator

end Treewalk
