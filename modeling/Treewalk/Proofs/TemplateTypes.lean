import Mathlib.Data.List.Forall2
import Treewalk.Proofs.ArrayTypes
import Treewalk.Proofs.NewInstances

/-!
Types of new instances. A field of a generic class may be declared with one of the templates for its type. When an
instance is made, the templates are bound in a scope that belongs to this instance, and the types of its fields are
resolved there. So the cell that the instance gets has the type that has been given for the template, and if the
field is computed, the property that the instance gets has it as well.
-/

namespace Treewalk

/-- The generic argument that is given for a template. If a name occurs more than once, the last one counts. -/
def argumentFor : List String → List Value → String → Option Value
  | template :: templates, g :: generics, name =>
    (argumentFor templates generics name).or (if template = name then some g else none)
  | _, _, _ => none

theorem argumentFor_of_mem {templates : List String} {generics : List Value} {name : String}
    (equal : generics.length = templates.length) (member : name ∈ templates) :
    ∃ g, argumentFor templates generics name = some g := by
  induction templates generalizing generics with
  | nil => cases member
  | cons template rest ih =>
    cases generics with
    | nil => cases equal
    | cons first others =>
      rcases List.mem_cons.mp member with rfl | later
      · cases given : argumentFor rest others name with
        | some g => exact ⟨g, by simp [argumentFor, given]⟩
        | none => exact ⟨first, by simp [argumentFor, given]⟩
      · obtain ⟨g, given⟩ := ih (Nat.succ.inj equal) later
        exact ⟨g, by simp [argumentFor, given]⟩

/-- A class declares a field of its instances with a template for its type, to which dimensions may be added. -/
def Class.Templated (c : Class) (field template : String) (count : Nat) : Prop :=
  ∃ init, c.fields.find? field = some init ∧ init.modifiers.static = false ∧
    init.declared = some ((TypeDesc.object template).arrayOfAt count)

namespace TypeDesc

/-- A word with dimensions is a name, unless it is the name of the type of nil. -/
theorem isName_of_word {name : String} (word : ∀ x ∈ name.toList, Piece.isWordChar x = true) (other : name ≠ "null")
    (count : Nat) : ((object name).arrayOfAt count).isName = true := by
  have kind : ((object name).arrayOfAt count).kind = .object := kind_arrayOfAt _ _
  have known : ((object name).arrayOfAt count).isNull = false := by
    rw [← Bool.not_eq_true, isNull_iff]
    cases count with
    | zero => exact fun same => other (congrArg TypeDesc.name same)
    | succ count =>
      rw [arrayOfAt, arrayOfAt_arrayOf]
      exact arrayOf_ne_null _
  have plain : ((object name).arrayOfAt count).isFunction = false := by
    refine Bool.eq_false_iff.mpr fun isFunction => ?_
    have begins : "func(".toList <+: ((object name).arrayOfAt count).name.toList := by
      simpa [TypeDesc.isFunction, kind] using isFunction
    rcases mem_name_arrayOfAt (begins.subset (a := '(') (by decide)) with inside | bracket
    · exact absurd (word '(' inside) (by decide)
    · exact absurd bracket (by decide)
  simp [isName, kind, known, plain]

end TypeDesc

namespace Heap

variable {h h' h'' : Heap}

theorem lookup_own {r : Ref .scope} {name : String} {cell : Cell} (bound : h.here? r name = some cell) :
    h.lookup r name = .ok cell := by
  have nearest : h.binder? r name = some r :=
    List.find?_cons_of_pos (by rw [NameMap.contains, ← here?, bound]; rfl)
  rw [lookup, nearest, Option.bind_some, bound]

/-- A name that is bound to a type in the scope itself means that type, dimension by dimension. -/
theorem resolveType_bound {r : Ref .scope} {name : String} {t : TypeDesc}
    (word : ∀ x ∈ name.toList, Piece.isWordChar x = true) (other : name ≠ "null")
    (bound : h.here? r name = some (.ofValue (.type t))) (count : Nat) :
    h.resolveType ((TypeDesc.object name).arrayOfAt count) r = t.arrayOfAt count := by
  have flat : (TypeDesc.object name).isArray = false := TypeDesc.isArray_of_word word
  have named := TypeDesc.isName_of_word word other count
  have dimensions : ((TypeDesc.object name).arrayOfAt count).dimensions = count := by
    rw [TypeDesc.dimensions_arrayOfAt, TypeDesc.dimensions_flat flat, Nat.zero_add]
  simp only [TypeDesc.isName, Bool.and_eq_true, decide_eq_true_eq, Bool.not_eq_true'] at named
  unfold resolveType
  have found : h.lookup r (TypeDesc.object name).name = .ok (.ofValue (.type t)) := lookup_own bound
  rw [if_neg (by simp [named]), TypeDesc.base_arrayOfAt flat, dimensions, found]
  rfl

/-- A cell has a declared type, and so has its property if it is computed. -/
structure CellTyped (h : Heap) (cell : Cell) (t : TypeDesc) : Prop where
  declared : cell.declared = some t
  property : ∀ p, cell.content = .computed p → p.index < h.properties.size ∧ (h.property p).declared = some t

theorem CellTyped.adds {cell : Cell} {t : TypeDesc} (typed : h.CellTyped cell t) (adds : h.Adds h') :
    h'.CellTyped cell t where
  declared := typed.declared
  property p computed := by
    obtain ⟨inside, declared⟩ := typed.property p computed
    obtain ⟨there, same⟩ := adds.properties p inside
    exact ⟨there, by rw [same, declared]⟩

def FieldTyped (h : Heap) (o : Ref .object) (name : String) (t : TypeDesc) : Prop :=
  ∃ own, (h.object o).fields.find? name = some own ∧ h.CellTyped own t

theorem FieldTyped.adds {o : Ref .object} {name : String} {t : TypeDesc} (typed : h.FieldTyped o name t)
    (adds : h.Adds h') : h'.FieldTyped o name t := by
  obtain ⟨own, found, cell⟩ := typed
  refine ⟨own, ?_, cell.adds adds⟩
  rw [object, adds.objects]
  exact found

end Heap

namespace Evaluator

/-- The types of a cell and of its property are what the declared type means when the cell is made. -/
theorem ownCell_typed (init : Cell) (scope : Ref .scope) (receiver : Value) (m : Machine) :
    ∃ cell n, ownCell init scope receiver m = .done (.ok cell n) ∧ m.heap.Adds n.heap ∧
      ∀ t ∈ init.declared, n.heap.CellTyped cell (m.heap.resolveType t scope) := by
  have meant {t : TypeDesc} (declared : t ∈ init.declared) :
      init.declared.map (m.heap.resolveType · scope) = some (m.heap.resolveType t scope) := by
    rw [Option.mem_def.mp declared, Option.map_some]
  cases content : init.content with
  | plain value =>
    refine ⟨_, m, ownCell_plain content scope receiver m, .refl _, fun t declared => ?_⟩
    refine ⟨meant declared, fun p computed => ?_⟩
    rw [show _ = Content.plain value from content] at computed
    cases computed
  | computed p =>
    obtain ⟨bound, n, done, adds⟩ := bindProperty_adds (m.heap.property p) receiver m
    let property : Property := { bound with declared := init.declared.map (m.heap.resolveType · scope) }
    refine ⟨_, _, ownCell_computed content scope done, adds.trans (.addProperty _ _),
      fun t declared => ⟨meant declared, fun q computed => ?_⟩⟩
    obtain rfl : (n.heap.addProperty property).1 = q := Content.computed.inj computed
    have last : (n.heap.addProperty property).2.property (n.heap.addProperty property).1 = property :=
      (n.heap.property_addProperty property _).trans (if_pos rfl)
    exact ⟨by simp [Heap.addProperty], by rw [last]; exact meant declared⟩

/-- A field that the class of a new instance declares itself has the type that the declared one means in the scope of
the instance. -/
theorem makeInstance_typed (c : Ref .cls) (scope : Option (Ref .scope)) (m : Machine) :
    ∃ n, makeInstance c scope m = .done (.ok ⟨m.heap.objects.size⟩ n) ∧ n.heap.classes = m.heap.classes ∧
      (n.heap.object ⟨m.heap.objects.size⟩).cls = c ∧
      ((m.heap.cls c).fields.names.Nodup → ∀ name init t t', (m.heap.cls c).fields.find? name = some init →
        init.modifiers.static = false → init.declared = some t →
          (∀ h', (bareInstance m.heap c scope).Adds h' → h'.resolveType t (scope.getD (m.heap.cls c).scope) = t') →
            n.heap.FieldTyped ⟨m.heap.objects.size⟩ name t') := by
  let Meant (x : Cell × Ref .scope) (h : Heap) (cell : Cell) : Prop := ∀ t t', x.1.declared = some t →
    (∀ h', (bareInstance m.heap c scope).Adds h' → h'.resolveType t x.2 = t') → h.CellTyped cell t'
  obtain ⟨cells, n, done, adds, held, each⟩ := makeInstance_own c scope m (Q := Meant)
    (fun x n begun => by
      obtain ⟨cell, n', done, adds, typed⟩ := ownCell_typed x.1 x.2 (.object ⟨m.heap.objects.size⟩) n
      refine ⟨cell, n', done, adds, fun t t' declared means => ?_⟩
      rw [← means n.heap begun]
      exact typed t declared)
    fun x h h' cell typed later t t' declared means => (typed t t' declared means).adds later
  refine ⟨_, done, adds.classes, ?_, fun distinct name init t t' found own declared means => ?_⟩
  · exact congrArg Object.cls held
  · obtain ⟨cell, made, typed⟩ := each distinct name init found own
    have typed := typed t t' declared means
    refine ⟨cell, ?_, typed.declared, typed.property⟩
    exact (congrArg (fun o : Object => o.fields.find? name) held).trans made

theorem typeArgument_cases (value : Value) (line : Line) (m : Machine) :
    (∃ fault, typeArgument value line m = .done (.error (.fault fault) m)) ∨
      ∃ t, typeArgument value line m = .done (.ok t m) := by
  cases value with
  | type _ | cls _ | interface _ | enumeration _ => exact .inr ⟨_, rfl⟩
  | _ => exact .inl ⟨_, rfl⟩

theorem typeArguments_cases (line : Line) (values : List Value) (m : Machine) :
    (∃ fault, typeArguments line values m = .done (.error (.fault fault) m)) ∨
      ∃ types, typeArguments line values m = .done (.ok types m) ∧
        List.Forall₂ (fun g t => typeArgument g line m = .done (.ok t m)) values types := by
  induction values with
  | nil => exact .inr ⟨[], rfl, .nil⟩
  | cons g rest ih =>
    rcases typeArgument_cases g line m with ⟨fault, stops⟩ | ⟨t, stands⟩
    · left
      refine ⟨fault, ?_⟩
      change (typeArgument g line m).andThen _ = _
      rw [stops]
      rfl
    · rw [typeArguments, Run.bind_of_done stands]
      rcases ih with ⟨fault, stops⟩ | ⟨types, done, each⟩
      · left
        refine ⟨fault, ?_⟩
        change (typeArguments line rest m).andThen _ = _
        rw [stops]
        rfl
      · exact .inr ⟨t :: types, Run.bind_of_done done, .cons stands each⟩

section

variable {P : Value → TypeDesc → Prop} {templates : List String} {generics : List Value} {types : List TypeDesc}
  {name : String}

theorem bindTemplates_of_none (each : List.Forall₂ P generics types) (none : argumentFor templates generics name = none)
    (names : NameMap Cell) : (bindTemplates names templates types).find? name = names.find? name := by
  induction templates generalizing generics types names with
  | nil => rfl
  | cons template rest ih =>
    cases each with
    | nil => rfl
    | cons first others =>
      obtain ⟨later, here⟩ := Option.or_eq_none_iff.mp none
      have other : name ≠ template := fun same => by simp [same] at here
      exact (ih others later _).trans (NameMap.find?_insert_of_ne _ other _)

theorem bindTemplates_of_some {g : Value} (each : List.Forall₂ P generics types)
    (given : argumentFor templates generics name = some g) (names : NameMap Cell) :
    ∃ t, P g t ∧ (bindTemplates names templates types).find? name = some (.ofValue (.type t)) := by
  induction templates generalizing generics types names with
  | nil => cases given
  | cons template rest ih =>
    cases each with
    | nil => cases given
    | @cons first t others ts stands each =>
      cases later : argumentFor rest others name with
      | some g' =>
        obtain rfl : g' = g := by simpa [argumentFor, later] using given
        exact ih each later _
      | none =>
        obtain ⟨rfl, rfl⟩ : template = name ∧ first = g := by simpa [argumentFor, later] using given
        exact ⟨t, stands, (bindTemplates_of_none each later _).trans (NameMap.find?_insert_self ..)⟩

end

/-- An instance has a scope of its own in which the templates are bound to what is given for them. -/
theorem templateScope_cases (cls : Class) (generics : List Value) (line : Line) (m : Machine) :
    (∃ fault, templateScope cls generics line m = .done (.error (.fault fault) m)) ∨
      ∃ scope n, templateScope cls generics line m = .done (.ok scope n) ∧ m.heap.Adds n.heap ∧
        ∀ name g, argumentFor cls.templates generics name = some g →
          ∃ r t, scope = some r ∧ typeArgument g line m = .done (.ok t m) ∧
            n.heap.here? r name = some (.ofValue (.type t)) := by
  unfold templateScope
  split
  · rename_i none
    refine .inr ⟨_, m, rfl, .refl _, fun name g given => ?_⟩
    rw [List.isEmpty_iff.mp none] at given
    cases given
  · rcases typeArguments_cases line generics m with ⟨fault, stops⟩ | ⟨types, done, each⟩
    · left
      refine ⟨fault, ?_⟩
      change (typeArguments line generics m).andThen _ = _
      rw [stops]
      rfl
    · right
      rw [Run.bind_of_done done, Run.reading_bind]
      refine ⟨_, _, rfl, .addScope m.heap _, fun name g given => ?_⟩
      obtain ⟨t, stands, bound⟩ := bindTemplates_of_some each given (m.heap.scope cls.scope).names
      refine ⟨_, t, rfl, stands, ?_⟩
      exact (m.heap.here?_addScope _ _ name).trans ((if_pos rfl).trans bound)

/-- Making an instance fails at once, or what is left to do is to run the constructor on a new instance of the class.
Then something has been given for every template, and the fields that are declared with it have the type that this
stands for. -/
theorem construct_cases (c : Ref .cls) (args generics : List Value) (line : Line) (m : Machine) :
    (∃ fault, construct c args generics line m = .done (.error (.fault fault) m)) ∨
      ∃ n, construct c args generics line m = runConstructor ⟨m.heap.objects.size⟩ c args line n ∧
        n.heap.classes = m.heap.classes ∧ (n.heap.object ⟨m.heap.objects.size⟩).cls = c ∧
        ((m.heap.cls c).fields.names.Nodup →
          (∀ name ∈ (m.heap.cls c).templates, ∀ x ∈ name.toList, Piece.isWordChar x = true) →
            ∀ field, ∀ template ∈ (m.heap.cls c).templates, ∀ count, (m.heap.cls c).Templated field template count →
              template ≠ "null" → ∃ g t, argumentFor (m.heap.cls c).templates generics template = some g ∧
                typeArgument g line m = .done (.ok t m) ∧
                  n.heap.FieldTyped ⟨m.heap.objects.size⟩ field (t.arrayOfAt count)) := by
  rw [construct_eq, Run.reading_bind]
  unfold Run.demand
  split
  · rename_i equal
    change (∃ fault, (templateScope (m.heap.cls c) generics line >>= _) m = _) ∨ ∃ n, (templateScope (m.heap.cls c)
      generics line >>= _) m = _ ∧ _
    rcases templateScope_cases (m.heap.cls c) generics line m with ⟨fault, stops⟩ | ⟨scope, m₁, done, adds, bound⟩
    · left
      refine ⟨fault, ?_⟩
      change (templateScope (m.heap.cls c) generics line m).andThen _ = _
      rw [stops]
      rfl
    · right
      have same : (⟨m₁.heap.objects.size⟩ : Ref .object) = ⟨m.heap.objects.size⟩ := by rw [adds.objects]
      have cls : m₁.heap.cls c = m.heap.cls c := Heap.cls_of_classes adds.classes c
      obtain ⟨n, made, classes, own, typed⟩ := makeInstance_typed c scope m₁
      rw [same] at made own typed
      rw [cls] at typed
      refine ⟨n, ?_, classes.trans adds.classes, own, ?_⟩
      · rw [Run.bind_of_done done, Run.bind_of_done made]
      · rintro distinct words field template member count ⟨init, found, dynamic, declared⟩ other
        obtain ⟨g, given⟩ := argumentFor_of_mem (of_decide_eq_true equal) member
        obtain ⟨r, t, rfl, stands, here⟩ := bound template g given
        refine ⟨g, t, given, stands, typed distinct field init _ _ found dynamic declared fun h' later => ?_⟩
        exact Heap.resolveType_bound (words template member) other (later.bound here) count
  · exact .inl ⟨_, rfl⟩

end Evaluator

end Treewalk
