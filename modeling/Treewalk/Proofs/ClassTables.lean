import Treewalk.Proofs.Bindings
import Treewalk.Proofs.FieldStretch
import Treewalk.Proofs.ScopeRestored
import Treewalk.Proofs.Shelves

/-!
The methods that a class declaration gives to its class. A declared method is a function of its own if it has
a body, and otherwise the first interface that has a fitting method supplies it; what the interfaces have
with a body is added where neither the class nor a superclass has a method of that name. So the methods do not
depend on the order in which the methods of an interface are gone through. The fields of the class are evaluated
when the methods are settled, and the interfaces are checked last of all.
-/

namespace Treewalk

/-! The methods that are declared. -/

def FunctionDecl.method (d : FunctionDecl) (scope : Ref .scope) : Function :=
  .ofDecl d scope (d.name.text = constructorName)

/-- An operator method takes two parameters and a cast method none. -/
structure FunctionDecl.Shaped (d : FunctionDecl) : Prop where
  operator : d.modifiers.operator = true → d.params.length = 2
  cast : d.modifiers.cast = true → d.params.length = 0

def lastDeclared? (decls : List FunctionDecl) (name : String) : Option FunctionDecl :=
  decls.reverse.find? (·.name.text = name)

theorem lastDeclared?_cons (d : FunctionDecl) (rest : List FunctionDecl) (name : String) :
    lastDeclared? (d :: rest) name =
      (lastDeclared? rest name).or (if d.name.text = name then some d else none) := by
  unfold lastDeclared?
  rw [List.reverse_cons, List.find?_append]
  by_cases same : d.name.text = name <;> simp [same]

namespace Heap

variable {h h' : Heap} {i : Ref .interface} {interfaces : List (Ref .interface)} {scope : Ref .scope}

/-- An interface has a method with a body that fits a method without one: under its name, and with the
modifiers of its signature, the types of its parameters and its result type. -/
structure Provides (h : Heap) (i : Ref .interface) (f : Function) (g : Ref .function) : Prop where
  found : (h.interface i).methods.find? f.name = some g
  body : (h.function g).hasBody = true
  modifiers : (h.function g).modifiers.signature = f.modifiers.signature
  params : (h.function g).paramTypes = f.paramTypes
  returns : (h.function g).returns = f.returns

theorem defaultFor?_iff (f : Function) (g : Ref .function) : h.defaultFor? f i = some g ↔ h.Provides i f g := by
  unfold defaultFor?
  rw [Option.filter_eq_some_iff]
  simp only [Bool.and_eq_true, decide_eq_true_eq]
  constructor
  · rintro ⟨found, ⟨⟨body, modifiers⟩, params⟩, returns⟩
    exact ⟨found, body, modifiers, params, returns⟩
  · rintro ⟨found, body, modifiers, params, returns⟩
    exact ⟨found, ⟨⟨body, modifiers⟩, params⟩, returns⟩

def bodied? (h : Heap) (name : String) (i : Ref .interface) : Option (Ref .function) :=
  ((h.interface i).methods.find? name).filter fun f => (h.function f).hasBody

/-- The methods of some interfaces have a name each and are in the heap. -/
structure Lists (h : Heap) (interfaces : List (Ref .interface)) : Prop where
  distinct : ∀ i ∈ interfaces, (h.interface i).methods.names.Nodup
  inside : ∀ i ∈ interfaces, ∀ x ∈ (h.interface i).methods.entries, x.2.index < h.functions.size

theorem Lists.defaultFor? (lists : h.Lists interfaces) (shelves : h.Shelves h') (same : h'.interfaces = h.interfaces)
    (f : Function) : interfaces.findSome? (h'.defaultFor? f) = interfaces.findSome? (h.defaultFor? f) := by
  have each (i : Ref .interface) (member : i ∈ interfaces) : h'.defaultFor? f i = h.defaultFor? f i := by
    have held : h'.interface i = h.interface i := by rw [interface, interface, same]
    unfold Heap.defaultFor?
    rw [held]
    cases found : (h.interface i).methods.find? f.name with
    | none => rfl
    | some g =>
      rw [Option.filter_some, Option.filter_some,
        (shelves.functions g (lists.inside i member _ (NameMap.mem_of_find? found))).2]
  simpa only [Option.map_id, id] using findSome?_map_congr id fun i member => congrArg (Option.map id) (each i member)

def addMethods (h : Heap) (scope : Ref .scope) : List FunctionDecl → Heap
  | [] => h
  | d :: rest => addMethods (if d.body.isSome then (h.addFunction (d.method scope)).2 else h) scope rest

theorem shelves_addMethods (h : Heap) (scope : Ref .scope) (decls : List FunctionDecl) :
    h.Shelves (h.addMethods scope decls) := by
  induction decls generalizing h with
  | nil => exact .refl h
  | cons d rest ih =>
    refine Shelves.trans ?_ (ih _)
    split
    · exact .addFunction h _
    · exact .refl h

theorem interfaces_addMethods (h : Heap) (scope : Ref .scope) (decls : List FunctionDecl) :
    (h.addMethods scope decls).interfaces = h.interfaces ∧ (h.addMethods scope decls).classes = h.classes := by
  induction decls generalizing h with
  | nil => exact ⟨rfl, rfl⟩
  | cons d rest ih =>
    unfold addMethods
    split
    · exact ih _
    · exact ih _

/-- A class has for a declared method a function of its own if it has a body, and otherwise what the first
interface has that supplies it. -/
structure MethodOf (h later : Heap) (interfaces : List (Ref .interface)) (scope : Ref .scope) (d : FunctionDecl)
    (f : Ref .function) : Prop where
  inside : f.index < later.functions.size
  own : d.body.isSome = true → later.function f = d.method scope
  supplied : d.body = none → interfaces.findSome? (h.defaultFor? (d.method scope)) = some f

theorem MethodOf.mono {later' later : Heap} {d : FunctionDecl} {f : Ref .function}
    (held : h.MethodOf later interfaces scope d f) (shelves : later.Shelves later') :
    h.MethodOf later' interfaces scope d f := by
  obtain ⟨there, same⟩ := shelves.functions f held.inside
  exact ⟨there, fun body => same.trans (held.own body), held.supplied⟩

end Heap

namespace Evaluator

variable {h : Heap} {m : Machine} {interfaces : List (Ref .interface)} (className : String) (scope : Ref .scope)

theorem checkShape_ok {d : FunctionDecl} (shaped : d.Shaped) (className : String) :
    checkShape className (d.method scope) = .ok () := by
  have operator : ¬((d.method scope).modifiers.operator && (d.method scope).arity ≠ 2) = true := by
    simp only [Bool.and_eq_true, decide_eq_true_eq, not_and, Decidable.not_not]
    exact shaped.operator
  have cast : ¬((d.method scope).modifiers.cast && (d.method scope).arity ≠ 0) = true := by
    simp only [Bool.and_eq_true, decide_eq_true_eq, not_and, Decidable.not_not]
    exact shaped.cast
  rw [checkShape, if_neg operator, if_neg cast]

theorem hasBody_method (d : FunctionDecl) (scope : Ref .scope) : (d.method scope).hasBody = d.body.isSome := by
  cases body : d.body <;> simp [FunctionDecl.method, Function.ofDecl, Function.hasBody, body]

theorem declaredMethod_eq {d : FunctionDecl} (shaped : d.Shaped) (lists : h.Lists interfaces)
    (shelves : h.Shelves m.heap) (same : m.heap.interfaces = h.interfaces) :
    declaredMethod className scope interfaces d m =
      if d.body.isSome then
        .done (.ok ⟨m.heap.functions.size⟩ { m with heap := (m.heap.addFunction (d.method scope)).2 })
      else match interfaces.findSome? (h.defaultFor? (d.method scope)) with
        | some f => .done (.ok f m)
        | none => .done (.error (.fault ⟨.bodyMissing className d.name.text, d.name.line⟩) m) := by
  have passes := checkShape_ok scope shaped className
  unfold FunctionDecl.method at passes
  rw [← lists.defaultFor? shelves same, ← hasBody_method d scope]
  unfold declaredMethod
  rw [passes]
  change (if (d.method scope).hasBody then _ else _ : Run _) m = _
  split
  · rfl
  · change (match interfaces.findSome? (m.heap.defaultFor? (d.method scope)) with
      | some supplied => _
      | none => _ : Run _) m = _
    cases interfaces.findSome? (m.heap.defaultFor? (d.method scope)) <;> rfl

theorem declaredMethod_made {d : FunctionDecl} (shaped : d.Shaped) (lists : h.Lists interfaces)
    (shelves : h.Shelves m.heap) (same : m.heap.interfaces = h.interfaces)
    (supplied : d.body = none → (interfaces.findSome? (h.defaultFor? (d.method scope))).isSome = true) :
    ∃ f, declaredMethod className scope interfaces d m =
        .done (.ok f { m with heap := m.heap.addMethods scope [d] }) ∧
      h.MethodOf (m.heap.addMethods scope [d]) interfaces scope d f := by
  rw [declaredMethod_eq className scope shaped lists shelves same]
  cases body : d.body with
  | some statements =>
    refine ⟨⟨m.heap.functions.size⟩, by simp [Heap.addMethods, body], ?_, fun _ => ?_, fun none => ?_⟩
    · simp [Heap.addMethods, body, Heap.addFunction]
    · simp [Heap.addMethods, body, Heap.function_addFunction]
    · rw [body] at none
      cases none
  | none =>
    obtain ⟨f, first⟩ := Option.isSome_iff_exists.mp (supplied body)
    refine ⟨f, by simp [Heap.addMethods, body, first], ?_, fun some => ?_, fun _ => first⟩
    · obtain ⟨i, member, given⟩ := List.exists_of_findSome?_eq_some first
      have held := ((Heap.defaultFor?_iff _ _).mp given).found
      simpa [Heap.addMethods, body] using
        (shelves.functions f (lists.inside i member _ (NameMap.mem_of_find? held))).1
    · rw [body] at some
      cases some

/-- If all declared methods have a body or are supplied with one, the last declaration of each name gives the
method of the name. -/
theorem declaredMethods_made {decls : List FunctionDecl} (shaped : ∀ d ∈ decls, d.Shaped)
    (lists : h.Lists interfaces) (shelves : h.Shelves m.heap) (same : m.heap.interfaces = h.interfaces)
    (supplied : ∀ d ∈ decls, d.body = none →
      (interfaces.findSome? (h.defaultFor? (d.method scope))).isSome = true)
    (methods : NameMap (Ref .function)) :
    ∃ made, declaredMethods className scope interfaces decls methods m =
        .done (.ok made { m with heap := m.heap.addMethods scope decls }) ∧
      (∀ name d, lastDeclared? decls name = some d → ∃ f, made.find? name = some f ∧
        h.MethodOf (m.heap.addMethods scope decls) interfaces scope d f) ∧
      ∀ name, lastDeclared? decls name = none → made.find? name = methods.find? name := by
  induction decls generalizing m methods with
  | nil => exact ⟨methods, rfl, fun _ _ last => (by cases last), fun _ _ => rfl⟩
  | cons d rest ih =>
    obtain ⟨f, first, held⟩ := declaredMethod_made className scope (shaped d (by simp))
      lists shelves same (supplied d (by simp))
    have interfaces₁ := (m.heap.interfaces_addMethods scope [d]).1.trans same
    obtain ⟨made, others, last, none⟩ := ih (m := { m with heap := m.heap.addMethods scope [d] })
      (fun d member => shaped d (by simp [member])) (shelves.trans (m.heap.shelves_addMethods scope [d])) interfaces₁
      (fun d member => supplied d (by simp [member])) (methods.insert d.name.text f)
    have whole : (m.heap.addMethods scope [d]).addMethods scope rest = m.heap.addMethods scope (d :: rest) := rfl
    rw [whole] at others last
    refine ⟨made, (Run.bind_of_done first).trans others, fun name other named => ?_, fun name absent => ?_⟩
    · rw [lastDeclared?_cons] at named
      cases later : lastDeclared? rest name with
      | some further =>
        rw [later] at named
        cases named
        exact last name other later
      | none =>
        rw [later, Option.none_or] at named
        split at named
        · rename_i own
          cases named
          refine ⟨f, by rw [none name later, ← own, NameMap.find?_insert_self], ?_⟩
          rw [← whole]
          exact held.mono (Heap.shelves_addMethods _ scope rest)
        · cases named
    · rw [lastDeclared?_cons] at absent
      obtain ⟨later, other⟩ := Option.or_eq_none_iff.mp absent
      have different : name ≠ d.name.text := fun same => by simp [same] at other
      rw [none name later, NameMap.find?_insert_of_ne _ different]

/-- If a method without a body is not supplied with one, the class cannot be declared. -/
theorem declaredMethods_stops {decls : List FunctionDecl} (shaped : ∀ d ∈ decls, d.Shaped)
    (lists : h.Lists interfaces) (shelves : h.Shelves m.heap) (same : m.heap.interfaces = h.interfaces)
    (methods : NameMap (Ref .function)) {missing : FunctionDecl} (member : missing ∈ decls)
    (bodyless : missing.body = none) (none : interfaces.findSome? (h.defaultFor? (missing.method scope)) = none) :
    ∃ reason after, declaredMethods className scope interfaces decls methods m = .done (.error reason after) := by
  induction decls generalizing m methods with
  | nil => cases member
  | cons d rest ih =>
    by_cases supplied : d.body = .none → (interfaces.findSome? (h.defaultFor? (d.method scope))).isSome = true
    · obtain ⟨f, first, -⟩ := declaredMethod_made className scope (shaped d (by simp))
        lists shelves same supplied
      have later : missing ∈ rest := by
        refine (List.mem_cons.mp member).resolve_left ?_
        rintro rfl
        have found := supplied bodyless
        rw [none] at found
        cases found
      obtain ⟨reason, after, stops⟩ := ih (m := { m with heap := m.heap.addMethods scope [d] })
        (fun d member => shaped d (by simp [member])) (shelves.trans (m.heap.shelves_addMethods scope [d]))
        ((m.heap.interfaces_addMethods scope [d]).1.trans same) (methods.insert d.name.text f) later
      exact ⟨reason, after, (Run.bind_of_done first).trans stops⟩
    · obtain ⟨body, absent⟩ := Classical.not_imp.mp supplied
      have absent : interfaces.findSome? (h.defaultFor? (d.method scope)) = .none := by simpa using absent
      have stops := declaredMethod_eq className scope (shaped d (by simp)) lists shelves same
      rw [body, absent] at stops
      refine ⟨.fault ⟨.bodyMissing className d.name.text, d.name.line⟩, m, ?_⟩
      change (declaredMethod className scope interfaces d m).andThen _ = _
      rw [stops]
      rfl

end Evaluator

/-! The methods that interfaces add. -/

/-- Methods that are added where neither the class nor a superclass has one of that name. -/
def Heap.supplement (h : Heap) (superclass : Ref .cls) (entries : List (String × Ref .function))
    (methods : NameMap (Ref .function)) : NameMap (Ref .function) :=
  entries.foldl (fun methods (name, f) =>
    if methods.contains name || (h.findMethod? superclass name).isSome then methods
    else methods.insert name f) methods

namespace Heap

variable {h h' later : Heap} {superclass : Ref .cls} {interfaces : List (Ref .interface)} {name : String}

theorem supplement_find? (entries : List (String × Ref .function)) (methods : NameMap (Ref .function)) :
    (h.supplement superclass entries methods).find? name = (methods.find? name).or
      (if (h.findMethod? superclass name).isSome then none else NameMap.findIn name entries) := by
  induction entries generalizing methods with
  | nil => cases own : methods.find? name <;> simp [supplement, NameMap.findIn, own]
  | cons entry rest ih =>
    obtain ⟨key, f⟩ := entry
    refine (ih _).trans ?_
    by_cases same : key = name
    · subst same
      by_cases above : (h.findMethod? superclass key).isSome = true
      · simp [above]
      · cases own : methods.find? key <;> simp [above, own, NameMap.contains, NameMap.findIn]
    · have other : (if methods.contains key || (h.findMethod? superclass key).isSome then methods
          else methods.insert key f).find? name = methods.find? name := by
        split
        · rfl
        · exact NameMap.find?_insert_of_ne methods (Ne.symm same) f
      rw [other, NameMap.findIn, if_neg same]

/-- In whichever order the methods of an interface are gone through, under each name the same one is found. -/
theorem Lists.findIn_defaults (lists : h.Lists interfaces) {i : Ref .interface} (member : i ∈ interfaces)
    {order : List (String × Ref .function)} (some : order.Perm (h.defaults i)) (name : String) :
    NameMap.findIn name order = h.bodied? name i := by
  have distinct : ((h.defaults i).map Prod.fst).Nodup :=
    (lists.distinct i member).sublist (List.Sublist.map _ List.filter_sublist)
  have reordered : (order.map Prod.fst).Nodup := (some.map Prod.fst).nodup_iff.mpr distinct
  refine Option.ext fun f => ?_
  rw [NameMap.findIn_eq_some reordered, some.mem_iff, bodied?, Option.filter_eq_some_iff, defaults, List.mem_filter,
    NameMap.find?, NameMap.findIn_eq_some (lists.distinct i member)]

/-- What the interfaces add does not depend on the order in which the methods of an interface are gone
through. -/
theorem Lists.supplement (lists : h.Lists interfaces) {order : Ref .interface → List (String × Ref .function)}
    (some : ∀ i ∈ interfaces, (order i).Perm (h.defaults i)) (methods : NameMap (Ref .function)) (name : String) :
    (h.supplement superclass (interfaces.flatMap order) methods).find? name = (methods.find? name).or
      (if (h.findMethod? superclass name).isSome then none else interfaces.findSome? (h.bodied? name)) := by
  have each : interfaces.findSome? (fun i => NameMap.findIn name (order i)) =
      interfaces.findSome? (h.bodied? name) := by
    simpa only [Option.map_id, id] using findSome?_map_congr id fun i member =>
      congrArg (Option.map id) (lists.findIn_defaults member (some i member) name)
  rw [supplement_find?, NameMap.findIn_flatMap, each]

/-- The methods of a class: under the name of a declared method what its last declaration gives, and under any
other name that no superclass has what the first interface has there with a body. -/
structure Table (h later : Heap) (decl : ClassDecl) (superclass : Ref .cls) (interfaces : List (Ref .interface))
    (scope : Ref .scope) (methods : NameMap (Ref .function)) : Prop where
  declared : ∀ name d, lastDeclared? decl.methods name = some d →
    ∃ f, methods.find? name = some f ∧ h.MethodOf later interfaces scope d f
  added : ∀ name, lastDeclared? decl.methods name = none → methods.find? name =
    if (h.findMethod? superclass name).isSome then none else interfaces.findSome? (h.bodied? name)

namespace Table

variable {decl : ClassDecl} {scope : Ref .scope} {methods methods' : NameMap (Ref .function)}

theorem mono (table : h.Table later decl superclass interfaces scope methods) (shelves : later.Shelves h') :
    h.Table h' decl superclass interfaces scope methods where
  declared name d last := by
    obtain ⟨f, found, held⟩ := table.declared name d last
    exact ⟨f, found, held.mono shelves⟩
  added := table.added

theorem hasBody (table : h.Table later decl superclass interfaces scope methods) (lists : h.Lists interfaces)
    (shelves : h.Shelves later) {f : Ref .function} (found : methods.find? name = some f) :
    (later.function f).hasBody = true := by
  have listed {i : Ref .interface} (member : i ∈ interfaces) {other : String}
      (held : (h.interface i).methods.find? other = some f) (body : (h.function f).hasBody = true) :
      (later.function f).hasBody = true := by
    rwa [(shelves.functions f (lists.inside i member _ (NameMap.mem_of_find? held))).2]
  cases last : lastDeclared? decl.methods name with
  | some d =>
    obtain ⟨g, same, held⟩ := table.declared name d last
    obtain rfl : g = f := Option.some.inj (same.symm.trans found)
    cases body : d.body with
    | some statements =>
      have some : d.body.isSome = true := by rw [body]; rfl
      rw [held.own some, Evaluator.hasBody_method, some]
    | none =>
      obtain ⟨i, member, given⟩ := List.exists_of_findSome?_eq_some (held.supplied body)
      have provides := (defaultFor?_iff _ _).mp given
      exact listed member provides.found provides.body
  | none =>
    rw [table.added name last] at found
    split at found
    · cases found
    · obtain ⟨i, member, given⟩ := List.exists_of_findSome?_eq_some found
      obtain ⟨held, body⟩ := Option.filter_eq_some_iff.mp given
      exact listed member held body

theorem agree (table : h.Table later decl superclass interfaces scope methods)
    (other : h.Table later decl superclass interfaces scope methods') (name : String) :
    (methods.find? name).map later.function = (methods'.find? name).map later.function := by
  cases last : lastDeclared? decl.methods name with
  | none => rw [table.added name last, other.added name last]
  | some d =>
    obtain ⟨f, found, held⟩ := table.declared name d last
    obtain ⟨g, found', held'⟩ := other.declared name d last
    rw [found, found', Option.map_some, Option.map_some]
    cases body : d.body with
    | some statements =>
      have some : d.body.isSome = true := by rw [body]; rfl
      rw [held.own some, held'.own some]
    | none => rw [Option.some.inj ((held.supplied body).symm.trans (held'.supplied body))]

end Table

end Heap

def ClassDecl.finished (decl : ClassDecl) (superclass : Ref .cls) (interfaces : List (Ref .interface))
    (scope : Ref .scope) (methods : NameMap (Ref .function)) (fields : NameMap Cell) : Class where
  name := decl.name.text
  superclass := some superclass
  methods := methods
  fields := fields
  scope := scope
  templates := decl.templates.map Name.text
  interfaces := interfaces

namespace Heap

variable {h : Heap} {c : Class} {i : Interface}

theorem checkMethod_passes {className : String} {found : Option (Ref .function)} {name : String}
    (among : name ∈ i.methods.names)
    (meets : ∀ required, i.methods.find? name = some required → ∃ f, found = some f ∧ h.Meets f required) :
    h.checkMethod className found i name = .ok () := by
  obtain ⟨x, member, rfl⟩ := List.mem_map.mp among
  obtain ⟨required, asked⟩ := Option.isSome_iff_exists.mp (NameMap.contains_of_mem member)
  obtain ⟨f, rfl, signature, arity⟩ := meets required asked
  unfold checkMethod
  rw [asked]
  simp [signature, arity]

theorem checkField_passes {className : String} {found : Option Cell} {name : String} (among : name ∈ i.fields.names)
    (meets : ∀ required, i.fields.find? name = some required →
      ∃ cell, found = some cell ∧ cell.modifiers.signature = required.modifiers.signature) :
    checkField className found i name = .ok () := by
  obtain ⟨x, member, rfl⟩ := List.mem_map.mp among
  obtain ⟨required, asked⟩ := Option.isSome_iff_exists.mp (NameMap.contains_of_mem member)
  obtain ⟨cell, rfl, signature⟩ := meets required asked
  unfold checkField
  rw [asked]
  simp [signature]

theorem forM_passes {l : List α} {f : α → Except Fault Unit} (passes : ∀ a ∈ l, f a = .ok ()) :
    l.forM f = .ok () := by
  induction l with
  | nil => rfl
  | cons first rest ih =>
    rw [List.forM, passes first (by simp)]
    exact ih fun a member => passes a (by simp [member])

theorem checkConformance_iff : h.checkConformance c i = .ok () ↔ h.Suits c i := by
  refine ⟨suits_of_check, fun suits => ?_⟩
  unfold checkConformance
  have names {α : Type} (m : NameMap α) {name : String} (among : name ∈ m.sortedNames) : name ∈ m.names := by
    simpa [NameMap.sortedNames] using among
  rw [forM_passes fun name among => checkMethod_passes (names _ among) (suits.methods name)]
  exact forM_passes fun name among => checkField_passes (names _ among) (suits.fields name)

/-- To suit an interface is a matter of the functions that a class has under its names. -/
theorem Suits.of_agree {decl : ClassDecl} {superclass : Ref .cls} {interfaces : List (Ref .interface)}
    {scope : Ref .scope} {methods methods' : NameMap (Ref .function)} {fields : NameMap Cell}
    (suits : h.Suits (decl.finished superclass interfaces scope methods fields) i)
    (agree : ∀ name, (methods.find? name).map h.function = (methods'.find? name).map h.function) :
    h.Suits (decl.finished superclass interfaces scope methods' fields) i where
  methods name required asked := by
    obtain ⟨f, found, meets⟩ := suits.methods name required asked
    have same : (h.methodOf? (decl.finished superclass interfaces scope methods' fields) name).map h.function =
        some (h.function f) := by
      rw [methodOf?, Option.map_or]
      change ((methods'.find? name).map h.function).or _ = _
      rw [← agree name, ← Option.map_or]
      exact congrArg (Option.map h.function) found
    obtain ⟨g, there, held⟩ := Option.map_eq_some_iff.mp same
    exact ⟨g, there, by rw [Meets, held]; exact meets⟩
  fields := suits.fields

end Heap

/-! A declaration as a whole. -/

namespace Machine

/-- The heap on which the members of a class are declared, when it is known what the class extends. -/
def opened (m : Machine) (decl : ClassDecl) (superclass : Ref .cls) : Heap :=
  ((m.heap.define m.scope decl.name.text (.ofValue .nil)).addScope
    { enclosing := some m.scope, names := Evaluator.classNames superclass decl.templates }).2

/-- The machine on which the fields of a class are evaluated, when its methods are there. -/
def withMethods (m : Machine) (decl : ClassDecl) (superclass : Ref .cls) : Machine :=
  { m with heap := (m.opened decl superclass).addMethods ⟨m.heap.scopes.size⟩ decl.methods }

theorem shelves_opened (m : Machine) (decl : ClassDecl) (superclass : Ref .cls) :
    m.heap.Shelves (m.opened decl superclass) :=
  (Heap.Shelves.define _ _ _ _).trans (.addScope _ _)

end Machine

namespace Evaluator

variable {decl : ClassDecl} {superclass : Ref .cls} {interfaces : List (Ref .interface)} {m n : Machine}
  {act : (a : Activity) → Machine → Outcome a.Result}

/-- The scope in which the fields of a class are evaluated is the one that has been opened for the class. -/
theorem placeClass_eq (decl : ClassDecl) (superclass : Ref .cls) (interfaces : List (Ref .interface)) (m : Machine) :
    placeClass decl superclass interfaces m =
      (declaredClass decl superclass interfaces ⟨m.heap.scopes.size⟩ >>= fun cls => addClass cls >>= fun c =>
        Run.update (·.define m.scope decl.name.text (Cell.ofValue (.cls c))))
          { m with heap := m.opened decl superclass } := by
  have size : (m.heap.define m.scope decl.name.text (.ofValue .nil)).scopes.size = m.heap.scopes.size := by
    simp [Heap.define]
  rw [← size, ← Run.bind_assoc]
  unfold placeClass makeClass
  simp only [Run.bind_assoc]
  rfl

theorem declaredClass_checks {scope : Ref .scope} {declared : NameMap (Ref .function)} {cells : NameMap Cell}
    {middle : Machine}
    (made : declaredMethods decl.name.text scope interfaces decl.methods .empty m = .done (.ok declared middle))
    (fields : (Run.inScope scope (fieldCells scope decl.fields .empty) middle).outcome act = .ok cells n) :
    (declaredClass decl superclass interfaces scope m).outcome act =
      match interfaces.forM fun i => n.heap.checkConformance (decl.finished superclass interfaces scope
        (addDefaults middle.heap superclass interfaces declared) cells) (n.heap.interface i) with
      | .ok _ => .ok (decl.finished superclass interfaces scope
          (addDefaults middle.heap superclass interfaces declared) cells) n
      | .error fault => .error (.fault ⟨fault, decl.name.line⟩) n := by
  unfold declaredClass
  rw [Run.bind_of_done made]
  change ((Run.inScope scope (fieldCells scope decl.fields .empty) >>= _) middle).outcome act = _
  rw [Run.outcome_bind, fields]
  change ((Run.orRaise decl.name.line (interfaces.forM fun i => n.heap.checkConformance (decl.finished superclass
    interfaces scope (addDefaults middle.heap superclass interfaces declared) cells) (n.heap.interface i)) >>=
      fun _ => Pure.pure _) n).outcome act = _
  cases interfaces.forM fun i => n.heap.checkConformance (decl.finished superclass interfaces scope
    (addDefaults middle.heap superclass interfaces declared) cells) (n.heap.interface i) <;> rfl

theorem addClass_enters (cls : Class) {outer : Ref .scope} (name : String) (inside : outer.index < m.heap.scopes.size) :
    ∃ c after, (addClass cls >>= fun c => Run.update (·.define outer name (.ofValue (.cls c)))) m =
        .done (.ok () after) ∧ m.heap.Shelves after.heap ∧ (after.heap.cls c).methods = cls.methods ∧
      c.index < after.heap.classes.size ∧ after.heap.here? outer name = some (.ofValue (.cls c)) := by
  let c : Ref .cls := ⟨m.heap.classes.size⟩
  let bare : Class := { cls with fields := .empty }
  obtain ⟨fields, last, bound⟩ := bindStatics_smooth (.cls c) cls.fields.entries
    { m with heap := (m.heap.addClass bare).2 }
  have kept : (m.heap.addClass bare).2.Shelves last.heap := by
    have shelved := shelving_compositional.bindStatics (.cls c) cls.fields.entries
      { m with heap := (m.heap.addClass bare).2 }
    rwa [bound] at shelved
  have placed : (m.heap.addClass bare).2.cls c = bare := by rw [Heap.cls_addClass, if_pos rfl]
  obtain ⟨there, -, -, methods⟩ := kept.classes c (by simp [Heap.addClass, c])
  obtain ⟨filled, -, -, methods'⟩ := (Heap.Shelves.setClassFields last.heap c ⟨fields⟩).classes c there
  let after : Machine :=
    { last with heap := (last.heap.setClassFields c ⟨fields⟩).define outer name (.ofValue (.cls c)) }
  refine ⟨c, after, ?_, ?_, ?_, filled, ?_⟩
  · refine (Run.bind_of_done (n := { last with heap := last.heap.setClassFields c ⟨fields⟩ }) ?_).trans rfl
    change ((bindStatics (.cls c) cls.fields.entries >>= _) { m with heap := (m.heap.addClass bare).2 }) = _
    exact (Run.bind_of_done bound).trans rfl
  · refine (Heap.Shelves.addClass m.heap bare).trans (kept.trans ?_)
    exact (Heap.Shelves.setClassFields _ c ⟨fields⟩).trans (.define _ _ _ _)
  · exact methods'.trans (methods.trans (by rw [placed]))
  · have held : outer.index < (last.heap.setClassFields c ⟨fields⟩).scopes.size :=
      Nat.lt_of_lt_of_le inside kept.scopes
    rw [Heap.here?_define, if_pos ⟨rfl, rfl, held⟩]

theorem heritage_safe {k : Permit} {w : World} {p : Scoping.Place} (stage : Stage .lax k w m)
    (stands : At .lax p (.stmt (.classDecl decl))) :
    Plan.Safe .lax k m.scope (fun w' x => x.1.index < w'.heap.classes.size ∧
      ∀ i ∈ x.2, i.index < w'.heap.interfaces.size) w (heritage decl m) := by
  refine .bind stage (evalSuperclass_safe stage.calm
    (fun ref member => stands.part (classParts_reference (.inl member))) nofun) ?_
  intro w₁ m₁ superclass stage₁ _ _ inside
  refine .bind stage₁ (evalInterfaces_safe stage₁.calm decl.name
    (fun ref member => stands.part (classParts_reference (.inr member))) nofun) ?_
  intro w₂ m₂ interfaces stage₂ leads₂ _ listed
  exact .pure stage₂ ⟨(leads₂.grows.classes _ inside).1, listed⟩

end Evaluator

/-- At the start of a class declaration in a run: whatever the class turns out to extend, the interfaces are as
they have been declared. -/
theorem Reached.heritage_lists {H : List Event} {m n n' : Machine} {decl : ClassDecl} (reached : Reached H m)
    (started : .started (.stmt (.classDecl decl)) n ∈ H) {fuel : Nat} {superclass : Ref .cls}
    {interfaces : List (Ref .interface)}
    (heritage : (Evaluator.heritage decl n).outcome (perform fuel) = .ok (superclass, interfaces) n') :
    n'.heap.Lists interfaces := by
  obtain ⟨w, trail, -⟩ := reached.trail
  obtain ⟨v, seen, -, -⟩ := trail.seen started
  obtain ⟨p, stands, -⟩ := seen.good
  have stage : Stage .lax n.calm v n := ⟨seen.sound, seen.heap, Nat.le_refl _⟩
  obtain ⟨v', -, lands⟩ := (Evaluator.heritage_safe stage stands).leaves (history_leaves .lax fuel) nofun
  have heap : v'.heap = n'.heap := by
    rw [lands.heap, heritage]
    rfl
  obtain ⟨-, listed⟩ := lands.result _ _ heritage
  rw [← heap]
  exact ⟨fun i member => (lands.sound.interfaces i (listed i member)).distinct,
    fun i member x among => ((lands.sound.interfaces i (listed i member)).methods x among).1⟩

section

variable {decl : ClassDecl} {superclass : Ref .cls} {interfaces : List (Ref .interface)} {n n' : Machine}
  {cells : NameMap Cell}

/-- Some declared interface has the body for each declared method without one. -/
def ClassDecl.Supplied (decl : ClassDecl) (h : Heap) (interfaces : List (Ref .interface)) (scope : Ref .scope) : Prop :=
  ∀ d ∈ decl.methods, d.body = none → ∃ i ∈ interfaces, ∃ g, h.Provides i (d.method scope) g

theorem supplied_isSome {h : Heap} {scope : Ref .scope} {d : FunctionDecl} :
    (interfaces.findSome? (h.defaultFor? (d.method scope))).isSome = true ↔
      ∃ i ∈ interfaces, ∃ g, h.Provides i (d.method scope) g := by
  rw [List.findSome?_isSome_iff]
  refine exists_congr fun i => and_congr_right fun _ => ?_
  rw [Option.isSome_iff_exists]
  exact exists_congr fun g => Heap.defaultFor?_iff _ _

theorem Heap.Lists.table (superclass : Ref .cls) {h h' : Heap} {scope : Ref .scope} {made : NameMap (Ref .function)}
    (lists : h.Lists interfaces) (shelves : h.Shelves h') (interfaces' : h'.interfaces = h.interfaces)
    (classes : h'.classes = h.classes)
    (last : ∀ name d, lastDeclared? decl.methods name = some d →
      ∃ f, made.find? name = some f ∧ h.MethodOf h' interfaces scope d f)
    (none : ∀ name, lastDeclared? decl.methods name = none → made.find? name = .none) :
    h.Table h' decl superclass interfaces scope (Evaluator.addDefaults h' superclass interfaces made) := by
  have above (name : String) : h'.findMethod? superclass name = h.findMethod? superclass name := by
    unfold findMethod?
    rw [lineage_of_classes classes]
    simp only [cls_of_classes classes]
  have order (i : Ref .interface) (member : i ∈ interfaces) : (h'.defaults i).Perm (h.defaults i) := by
    have held : h'.interface i = h.interface i := by rw [interface, interface, interfaces']
    unfold defaults
    rw [held]
    refine .of_eq (List.filter_congr fun ⟨key, f⟩ among => ?_)
    change (h'.function f).hasBody = (h.function f).hasBody
    rw [(shelves.functions f (lists.inside i member _ among)).2]
  have found (name : String) : (Evaluator.addDefaults h' superclass interfaces made).find? name =
      (made.find? name).or (if (h.findMethod? superclass name).isSome then .none
        else interfaces.findSome? (h.bodied? name)) := by
    rw [← lists.supplement order made name]
    simp only [Heap.supplement, ← above]
    rfl
  constructor
  · intro name d declared
    obtain ⟨f, own, held⟩ := last name d declared
    exact ⟨f, by rw [found, own, Option.some_or], held⟩
  · intro name undeclared
    rw [found, none name undeclared, Option.none_or]

variable (lists : n.heap.Lists interfaces) (shaped : ∀ d ∈ decl.methods, d.Shaped) {fuel : Nat}
  (fields : (Run.inScope ⟨n.heap.scopes.size⟩
    (Evaluator.fieldCells ⟨n.heap.scopes.size⟩ decl.fields .empty) (n.withMethods decl superclass)).outcome
      (perform fuel) = .ok cells n')
  (inside : n.scope.index < n.heap.scopes.size)

include lists shaped fields inside

/-- Once it is known what a class extends and its fields are evaluated: the class can be declared exactly if all
bodies are supplied and the finished class suits its interfaces, and then it has these methods. -/
theorem placeClass_decides :
    ((∃ after, (Evaluator.placeClass decl superclass interfaces n).outcome (perform fuel) = .ok () after) ↔
      decl.Supplied n.heap interfaces ⟨n.heap.scopes.size⟩ ∧
        ∃ methods, n.heap.Table n'.heap decl superclass interfaces ⟨n.heap.scopes.size⟩ methods ∧
          ∀ i ∈ interfaces, n'.heap.Suits
            (decl.finished superclass interfaces ⟨n.heap.scopes.size⟩ methods cells) (n'.heap.interface i)) ∧
    ∀ after, (Evaluator.placeClass decl superclass interfaces n).outcome (perform fuel) = .ok () after →
      ∃ c, after.heap.here? n.scope decl.name.text = some (.ofValue (.cls c)) ∧
        c.index < after.heap.classes.size ∧
        n.heap.Table after.heap decl superclass interfaces ⟨n.heap.scopes.size⟩ (after.heap.cls c).methods ∧
        ∀ name f, (after.heap.cls c).methods.find? name = some f → (after.heap.function f).hasBody = true := by
  have shelves := n.shelves_opened decl superclass
  have kept : (n.withMethods decl superclass).heap.Shelves n'.heap := by
    have fieldCells := shelving_compositional.fieldCells (shelving_compositional.typesIn ⟨n.heap.scopes.size⟩)
      decl.fields .empty
    have leaves := (fieldCells.inScope ⟨n.heap.scopes.size⟩).leaves fuel (n.withMethods decl superclass)
    rwa [fields] at leaves
  rw [Evaluator.placeClass_eq, Run.outcome_bind]
  by_cases supplied : decl.Supplied n.heap interfaces ⟨n.heap.scopes.size⟩
  · obtain ⟨made, plan, last, none⟩ := Evaluator.declaredMethods_made decl.name.text
      ⟨n.heap.scopes.size⟩ (m := { n with heap := n.opened decl superclass }) shaped lists shelves rfl
      (fun d member body => supplied_isSome.mpr (supplied d member body)) .empty
    have unchanged := (n.opened decl superclass).interfaces_addMethods ⟨n.heap.scopes.size⟩ decl.methods
    have through : n.heap.Shelves (n.withMethods decl superclass).heap :=
      shelves.trans (Heap.shelves_addMethods _ _ _)
    have table := (lists.table superclass through unchanged.1 unchanged.2 last none).mono kept
    have plan : Evaluator.declaredMethods decl.name.text ⟨n.heap.scopes.size⟩ interfaces decl.methods .empty
        { n with heap := n.opened decl superclass } = .done (.ok made (n.withMethods decl superclass)) := plan
    rw [Evaluator.declaredClass_checks plan fields]
    generalize Evaluator.addDefaults (n.withMethods decl superclass).heap superclass interfaces made = methods
      at table ⊢
    cases passes : interfaces.forM fun i => n'.heap.checkConformance (decl.finished superclass interfaces
        ⟨n.heap.scopes.size⟩ methods cells) (n'.heap.interface i) with
    | ok _ =>
      have there := Nat.lt_of_lt_of_le inside (through.trans kept).scopes
      obtain ⟨c, after, enters, shelves', own, placed, bound⟩ := Evaluator.addClass_enters (m := n')
        (decl.finished superclass interfaces ⟨n.heap.scopes.size⟩ methods cells) decl.name.text there
      have ended := congrArg (Plan.outcome (perform fuel)) enters
      refine ⟨⟨fun _ => ⟨supplied, methods, table, fun i member => ?_⟩, fun _ => ⟨after, ended⟩⟩, fun last done => ?_⟩
      · exact Heap.suits_of_check (Heap.forM_ok passes i member)
      · obtain rfl : after = last := by cases ended.symm.trans done; rfl
        have whole := table.mono shelves'
        have methods' : (after.heap.cls c).methods = methods := own
        rw [← methods'] at whole
        exact ⟨c, bound, placed, whole, fun name f found =>
          whole.hasBody lists ((through.trans kept).trans shelves') found⟩
    | error fault =>
      refine ⟨⟨?_, fun ⟨_, other, table', suits⟩ => ?_⟩, nofun⟩
      · rintro ⟨after, done⟩
        cases done
      · have all : (interfaces.forM fun i => n'.heap.checkConformance (decl.finished superclass interfaces
            ⟨n.heap.scopes.size⟩ methods cells) (n'.heap.interface i)) = .ok () :=
          Heap.forM_passes fun i member =>
            Heap.checkConformance_iff.mpr ((suits i member).of_agree (table'.agree table))
        rw [all] at passes
        cases passes
  · obtain ⟨missing, unsupplied⟩ := Classical.not_forall.mp supplied
    obtain ⟨member, unsupplied⟩ := Classical.not_imp.mp unsupplied
    obtain ⟨bodyless, absent⟩ := Classical.not_imp.mp unsupplied
    have none : interfaces.findSome? (n.heap.defaultFor? (missing.method ⟨n.heap.scopes.size⟩)) = none := by
      rw [← supplied_isSome] at absent
      simpa using absent
    obtain ⟨reason, after, stops⟩ := Evaluator.declaredMethods_stops decl.name.text _
      (m := { n with heap := n.opened decl superclass }) shaped lists shelves rfl .empty member bodyless none
    have plan : Evaluator.declaredClass decl superclass interfaces ⟨n.heap.scopes.size⟩
        { n with heap := n.opened decl superclass } = .done (.error reason after) := by
      change (Evaluator.declaredMethods _ _ _ _ _ _).andThen _ = _
      rw [stops]
      rfl
    rw [plan]
    refine ⟨⟨?_, fun ⟨whole, _⟩ => absurd whole supplied⟩, nofun⟩
    rintro ⟨last, done⟩
    cases done

end

theorem Heap.Lists.mono {h h' : Heap} {interfaces : List (Ref .interface)} (lists : h.Lists interfaces)
    (shelves : h.Shelves h') (same : h'.interfaces = h.interfaces) : h'.Lists interfaces where
  distinct i member := by
    rw [interface, same]
    exact lists.distinct i member
  inside i member x among := by
    rw [interface, same] at among
    exact (shelves.functions _ (lists.inside i member x among)).1

/-- A class declaration, once it is known what the class extends, and if the fields of the class can be evaluated
and its operator and cast methods take the parameters that they should. It succeeds exactly if the declared
interfaces supply all bodies that it leaves out, and the finished class suits them. The class then has the methods
of its table, all of them with a body, and keeps them from there on. The order in which the methods of an interface
are gone through does not matter for what is found under a name. -/
theorem class_tables {H : List Event} {m n n₁ n₂ : Machine} {decl : ClassDecl} (reached : Reached H m)
    (started : .started (.stmt (.classDecl decl)) n ∈ H) {fuel : Nat} {superclass : Ref .cls}
    {interfaces : List (Ref .interface)}
    (heritage : (Evaluator.heritage decl n).outcome (perform fuel) = .ok (superclass, interfaces) n₁)
    (shaped : ∀ d ∈ decl.methods, d.Shaped) {cells : NameMap Cell}
    (fields : (Run.inScope ⟨n₁.heap.scopes.size⟩ (Evaluator.fieldCells ⟨n₁.heap.scopes.size⟩ decl.fields .empty)
      (n₁.withMethods decl superclass)).outcome (perform fuel) = .ok cells n₂) :
    ((∃ n', perform (fuel + 1) (.stmt (.classDecl decl)) n = .ok .normal n') ↔
      decl.Supplied n₁.heap interfaces ⟨n₁.heap.scopes.size⟩ ∧
        ∃ methods, n₁.heap.Table n₂.heap decl superclass interfaces ⟨n₁.heap.scopes.size⟩ methods ∧
          ∀ i ∈ interfaces, n₂.heap.Suits
            (decl.finished superclass interfaces ⟨n₁.heap.scopes.size⟩ methods cells) (n₂.heap.interface i)) ∧
    (∀ n', perform (fuel + 1) (.stmt (.classDecl decl)) n = .ok .normal n' →
      ∃ c, n'.heap.here? n.scope decl.name.text = some (.ofValue (.cls c)) ∧
        n₁.heap.Table n'.heap decl superclass interfaces ⟨n₁.heap.scopes.size⟩ (n'.heap.cls c).methods ∧
        (∀ name f, (n'.heap.cls c).methods.find? name = some f → (n'.heap.function f).hasBody = true) ∧
        ∀ before after, H = before ++ .ended (.stmt (.classDecl decl)) n (.ok .normal n') :: after →
          ∀ later ∈ moments after m, (later.heap.cls c).methods = (n'.heap.cls c).methods) ∧
    ∀ order : Ref .interface → List (String × Ref .function),
      (∀ i ∈ interfaces, (order i).Perm ((n₁.withMethods decl superclass).heap.defaults i)) →
        ∀ declared name,
          ((n₁.withMethods decl superclass).heap.supplement superclass (interfaces.flatMap order) declared).find? name =
            (Evaluator.addDefaults (n₁.withMethods decl superclass).heap superclass interfaces declared).find? name := by
  have lists := reached.heritage_lists started heritage
  have shelves : n.heap.Shelves n₁.heap := by
    have shelving := Evaluator.heritage_compositional shelving_compositional decl
    have leaves := Run.Shelving.leaves shelving fuel n
    rwa [heritage] at leaves
  have back : n₁.scope = n.scope := by
    have restores := Evaluator.heritage_compositional restores_compositional decl n
    have restored := restores.outcome (perform_scope fuel)
    rwa [heritage] at restored
  have inside : n₁.scope.index < n₁.heap.scopes.size := by
    rw [back]
    exact Nat.lt_of_lt_of_le (reached.scope_inside started) shelves.scopes
  have whole (n' : Machine) : perform (fuel + 1) (.stmt (.classDecl decl)) n = .ok .normal n' ↔
      (Evaluator.placeClass decl superclass interfaces n₁).outcome (perform fuel) = .ok () n' := by
    change ((Evaluator.declareClass decl >>= fun _ => Pure.pure Signal.normal) n).outcome (perform fuel) = _ ↔ _
    rw [Run.outcome_bind, Evaluator.declareClass_eq, Run.outcome_bind, heritage]
    dsimp only
    cases (Evaluator.placeClass decl superclass interfaces n₁).outcome (perform fuel) with
    | ok _ after => exact ⟨fun same => by cases same; rfl, fun same => by cases same; rfl⟩
    | error reason after => exact ⟨nofun, nofun⟩
  obtain ⟨decides, describes⟩ := placeClass_decides lists shaped fields inside
  simp only [whole]
  refine ⟨decides, fun n' done => ?_, fun order some declared name => ?_⟩
  · obtain ⟨c, bound, placed, table, bodies⟩ := describes n' done
    rw [back] at bound
    refine ⟨c, bound, table, bodies, fun before after split later member => ?_⟩
    obtain ⟨w, trail, arrived⟩ := reached.trail
    rw [split] at trail
    obtain ⟨v, -, seen, rest⟩ := trail.split
    have heap : v.heap = n'.heap := seen.heap
    refine rest.forall_later (Q := fun n'' => (n''.heap.cls c).methods = (n'.heap.cls c).methods) arrived.sound
      arrived.heap ?_ later member
    intro v' n'' leads _ same
    rw [← same, ← heap]
    exact (leads.grows.classes c (by rwa [heap])).2.methods
  · have later : (n₁.withMethods decl superclass).heap.Lists interfaces :=
      lists.mono ((n₁.shelves_opened decl superclass).trans (Heap.shelves_addMethods _ _ _))
        ((n₁.opened decl superclass).interfaces_addMethods _ decl.methods).1
    exact (later.supplement some declared name).trans (later.supplement (fun _ _ => .refl _) declared name).symm

instance (d : FunctionDecl) : Decidable d.Shaped :=
  decidable_of_iff ((d.modifiers.operator = true → d.params.length = 2) ∧
    (d.modifiers.cast = true → d.params.length = 0)) ⟨fun ⟨operator, cast⟩ => ⟨operator, cast⟩, fun shaped =>
      ⟨shaped.operator, shaped.cast⟩⟩

def Event.declaresTable (fuel : Nat) : Event → Bool
  | .started (.stmt (.classDecl decl)) n =>
    match (Evaluator.heritage decl n).outcome (perform fuel) with
    | .ok (superclass, interfaces) n₁ =>
      match (Run.inScope ⟨n₁.heap.scopes.size⟩ (Evaluator.fieldCells ⟨n₁.heap.scopes.size⟩ decl.fields .empty)
        (n₁.withMethods decl superclass)).outcome (perform fuel) with
      | .ok _ _ => decide (interfaces = [⟨0⟩, ⟨1⟩] ∧ (∀ d ∈ decl.methods, d.Shaped) ∧
          lastDeclared? decl.methods "n" = none ∧ n₁.heap.findMethod? superclass "n" = none ∧
            interfaces.findSome? (n₁.heap.bodied? "n") = some ⟨6⟩) &&
          match perform (fuel + 1) (.stmt (.classDecl decl)) n with
          | .ok .normal _ => true
          | _ => false
      | _ => false
    | _ => false
  | _ => false

theorem Event.declaresTable_cases {fuel : Nat} {e : Event} (declares : e.declaresTable fuel = true) :
    ∃ decl n superclass n₁ cells n₂ n', e = .started (.stmt (.classDecl decl)) n ∧
      (Evaluator.heritage decl n).outcome (perform fuel) = .ok (superclass, [⟨0⟩, ⟨1⟩]) n₁ ∧
      (∀ d ∈ decl.methods, d.Shaped) ∧
      (Run.inScope ⟨n₁.heap.scopes.size⟩ (Evaluator.fieldCells ⟨n₁.heap.scopes.size⟩ decl.fields .empty)
        (n₁.withMethods decl superclass)).outcome (perform fuel) = .ok cells n₂ ∧
      perform (fuel + 1) (.stmt (.classDecl decl)) n = .ok .normal n' ∧ lastDeclared? decl.methods "n" = none ∧
      n₁.heap.findMethod? superclass "n" = none ∧ [⟨0⟩, ⟨1⟩].findSome? (n₁.heap.bodied? "n") = some ⟨6⟩ := by
  unfold Event.declaresTable at declares
  split at declares
  · split at declares
    · rename_i heritage
      split at declares
      · rename_i fields
        obtain ⟨facts, done⟩ := Bool.and_eq_true_iff.mp declares
        obtain ⟨rfl, shaped, own, above, given⟩ := of_decide_eq_true facts
        split at done
        · rename_i ended
          exact ⟨_, _, _, _, _, _, _, rfl, heritage, shaped, fields, ended, own, above, given⟩
        · cases done
      · cases declares
    · cases declares
  · cases declares

/-- A class that leaves the body of a method to one interface, and gets another method from the next one. -/
def suppliedSource : String :=
  "interface I \x7b method m() \x7b return 1; \x7d \x7d interface J \x7b method n() \x7b return 2; \x7d \x7d " ++
    "class A -> I, J \x7b var x = 5; method m(); \x7d"

set_option maxRecDepth 100000 in
/-- The class has the method of the second interface. -/
theorem class_tables_supplied :
    ∃ H m n decl n' c, Reached H m ∧ .started (.stmt (.classDecl decl)) n ∈ H ∧
      perform 20 (.stmt (.classDecl decl)) n = .ok .normal n' ∧
        n'.heap.here? n.scope decl.name.text = some (.ofValue (.cls c)) ∧
          (n'.heap.cls c).methods.find? "n" = some ⟨6⟩ ∧ (n'.heap.function ⟨6⟩).hasBody = true := by
  have reached := Reached.text 20 suppliedSource
  have some : ((Session.start {}).events 20 suppliedSource).any (Event.declaresTable 19) = true := by decide +kernel
  obtain ⟨e, member, declares⟩ := List.any_eq_true.mp some
  obtain ⟨decl, n, superclass, n₁, cells, n₂, n', rfl, heritage, shaped, fields, done, own, above, given⟩ :=
    Event.declaresTable_cases declares
  obtain ⟨c, bound, table, bodies, -⟩ := (class_tables reached member heritage shaped fields).2.1 n' done
  have found : (n'.heap.cls c).methods.find? "n" = .some ⟨6⟩ := by
    rw [table.added "n" own, above]
    exact given
  exact ⟨_, _, n, decl, n', c, reached, member, done, bound, found, bodies "n" ⟨6⟩ found⟩

/-- A class declaration without members starts whose superclass is there, and fails. -/
def Event.extendsInVain (fuel : Nat) : Event → Bool
  | .started (.stmt (.classDecl decl)) n =>
    decl.interfaces.isEmpty && decl.methods.isEmpty && decl.fields.isEmpty &&
      (match decl.superclass with
        | some ref =>
          match perform fuel (.expr (.use ref)) n with
          | .ok (.cls _) _ => true
          | _ => false
        | none => false) &&
      match perform (fuel + 1) (.stmt (.classDecl decl)) n with
      | .error (.fault _) _ => true
      | _ => false
  | _ => false

def rootedSource : String :=
  "class B <- Object \x7b \x7d"

set_option maxRecDepth 100000 in
/-- That the expression for the superclass yields a class is not enough, because the root class cannot be
extended by name. -/
theorem root_not_inherited :
    ¬∀ H m n decl fuel, Reached H m → .started (.stmt (.classDecl decl)) n ∈ H →
      (∀ ref, decl.superclass = some ref → ∃ c n', perform fuel (.expr (.use ref)) n = .ok (.cls c) n') →
        decl.interfaces = [] → decl.methods = [] → decl.fields = [] →
          ∀ e n', perform (fuel + 1) (.stmt (.classDecl decl)) n ≠ .error (.fault e) n' := by
  intro promised
  have some : ((Session.start {}).events 20 rootedSource).any (Event.extendsInVain 19) = true := by decide +kernel
  obtain ⟨e, member, extends'⟩ := List.any_eq_true.mp some
  unfold Event.extendsInVain at extends'
  split at extends'
  · rename_i decl n
    simp only [Bool.and_eq_true, List.isEmpty_iff] at extends'
    obtain ⟨⟨⟨⟨interfaces, methods⟩, fields⟩, yields⟩, fails⟩ := extends'
    split at fails
    · rename_i failed
      refine promised _ _ n decl 19 (Reached.text 20 rootedSource) member (fun ref named => ?_) interfaces methods
        fields _ _ failed
      rw [named] at yields
      dsimp only at yields
      split at yields
      · exact ⟨_, _, ‹_›⟩
      · cases yields
    · cases fails
  · cases extends'

end Treewalk
