import Mathlib.Data.List.ProdSigma
import Treewalk.Proofs.ClassMembers
import Treewalk.Proofs.FieldTypes
import Treewalk.Proofs.Instantiation
import Treewalk.Proofs.TemplateTypes

/-!
Types of instances over a run. What a construction has given for the templates of its class stays with the new
instance: no event of the run that comes later changes the type of a field, neither another construction nor an
assignment nor a call, and whatever is assigned to the field is checked against the type of this very field. So two
instances of a generic class have nothing of their types in common.
-/

namespace Treewalk

open Scoping

/-! Assignments to a field. -/

/-- An assignment of a value to a field of a type. A value that does not conform to the type is refused before anything
has happened, and no value is refused for another type. -/
structure Plan.Guarded (h : Heap) (value : Value) (t : TypeDesc) (before : Machine) (plan : Plan Unit) : Prop where
  refuses : h.conforms value t = false → ∃ fault, plan = .done (.error (.fault fault) before)
  blames : ∀ actual name t' line after,
    plan = .done (.error (.fault ⟨.assignedType actual name t', line⟩) after) → t' = t ∧ h.conforms value t = false

namespace Heap

/-- Whatever is assigned to a field of an instance is checked against a type, whether the field itself is written or
the property that computes it. -/
structure Guards (h : Heap) (o : Ref .object) (name : String) (t : TypeDesc) : Prop where
  member : ∀ (before : Machine) (x : Name) (value : Value) (qualified : Bool), before.heap = h → x.text = name →
    (Evaluator.setMember (.object o) x value qualified before).Guarded h value t before
  property : ∀ (before : Machine) (own : Cell) (p : Ref .property) (value : Value) (line : Line), before.heap = h →
    (h.object o).fields.find? name = some own → own.content = .computed p →
      (Evaluator.writeProperty p value line before).Guarded h value t before

/-- A field of an instance is as it was, or a value has been assigned to it that conforms to a type. -/
def Reassigned (h : Heap) (o : Ref .object) (name : String) (t : TypeDesc) (h' : Heap) : Prop :=
  (h'.object o).fields.find? name = (h.object o).fields.find? name ∨
    ∃ own value, (h.object o).fields.find? name = some own ∧
      (h'.object o).fields.find? name = some { own with content := .plain value } ∧ h'.conforms value t = true

variable {h : Heap} {cell written : Cell} {name : String} {value : Value} {t : TypeDesc} {o : Ref .object}

theorem checkRange_blameless {modifiers : Modifiers} {actual : TypeDesc} {name' : String} :
    checkRange modifiers name value ≠ .error (.assignedType actual name' t) := by
  intro failed
  unfold checkRange at failed
  split at failed
  · split at failed
    · cases failed
    · split at failed <;> cases failed
  · cases failed

theorem checkType_cases (h : Heap) (t : TypeDesc) (name : String) (value : Value) :
    h.conforms value t = true ∧ h.checkType (some t) name value = .ok () ∨
      h.conforms value t = false ∧
        h.checkType (some t) name value = .error (.assignedType (h.typeOf value) name t) := by
  unfold checkType
  by_cases conforms : h.conforms value t = true <;> simp [conforms]

theorem writeCell_conforms (done : h.writeCell cell name value = .ok (.stored written))
    (declared : cell.declared = some t) : h.conforms value t = true := by
  unfold writeCell at done
  rw [declared] at done
  rcases h.checkType_cases t name value with ⟨conforms, -⟩ | ⟨-, failed⟩
  · exact conforms
  · rw [failed] at done
    split at done
    · cases done
    · split at done <;> cases done

theorem writeCell_blames {actual : TypeDesc} {name' : String} {t' : TypeDesc}
    (failed : h.writeCell cell name value = .error (.assignedType actual name' t'))
    (declared : cell.declared = some t) : t' = t ∧ h.conforms value t = false := by
  unfold writeCell at failed
  rw [declared] at failed
  split at failed
  · cases failed
  · split at failed
    · cases failed
    · rcases h.checkType_cases t name value with ⟨-, passed⟩ | ⟨other, refused⟩
      · rw [passed] at failed
        cases ranged : checkRange cell.modifiers name value with
        | ok _ =>
          rw [ranged] at failed
          cases failed
        | error fault =>
          rw [ranged] at failed
          cases failed
          exact absurd ranged checkRange_blameless
      · rw [refused] at failed
        cases failed
        exact ⟨rfl, other⟩

end Heap

namespace Plan.Guarded

variable {value : Value} {t : TypeDesc} {m : Machine}

theorem raise (line : Line) {fault : Fault} (blames : ∀ actual name t', fault = .assignedType actual name t' →
      t' = t ∧ m.heap.conforms value t = false) : ((Run.raise line fault : Run Unit) m).Guarded m.heap value t m where
  refuses _ := ⟨_, rfl⟩
  blames actual name t' _ _ same := by
    cases same
    exact blames actual name t' rfl

theorem passed {plan : Plan Unit} (conforms : m.heap.conforms value t = true)
    (blameless : ∀ actual name t' line after,
      plan ≠ .done (.error (.fault ⟨.assignedType actual name t', line⟩) after)) : plan.Guarded m.heap value t m where
  refuses other := by rw [conforms] at other; cases other
  blames actual name t' line after same := absurd same (blameless actual name t' line after)

end Plan.Guarded

namespace Evaluator

variable {m : Machine} {value : Value} {t : TypeDesc}

theorem writeProperty_guarded {p : Ref .property} (declared : (m.heap.property p).declared = some t) (line : Line) :
    (writeProperty p value line m).Guarded m.heap value t m := by
  unfold writeProperty
  rw [Run.reading_bind]
  cases (m.heap.property p).setter with
  | none => exact .raise line (by simp)
  | some f =>
    simp only [Run.heap_bind, declared]
    rcases m.heap.checkType_cases t (m.heap.property p).name value with ⟨conforms, passed⟩ | ⟨other, refused⟩
    · rw [passed]
      refine .passed conforms fun actual name t' line' after same => ?_
      cases ranged : Heap.checkRange (m.heap.property p).modifiers (m.heap.property p).name value with
      | ok _ =>
        rw [ranged] at same
        cases same
      | error fault =>
        rw [ranged] at same
        cases same
        exact Heap.checkRange_blameless ranged
    · rw [refused]
      refine .raise line fun actual name t' same => ?_
      cases same
      exact ⟨rfl, other⟩

/-- By the cell of the instance: it is plain and checked itself, or the property is. -/
theorem setMember_guarded {o : Ref .object} {x : Name} {own : Cell}
    (found : (m.heap.object o).fields.find? x.text = some own) (typed : m.heap.CellTyped own t) (qualified : Bool) :
    (setMember (.object o) x value qualified m).Guarded m.heap value t m := by
  cases qualified with
  | true => exact .raise x.line (by simp)
  | false =>
    change (setOfObject o x value m).Guarded m.heap value t m
    unfold setOfObject
    rw [Run.reading_bind]
    simp only [found]
    change ((Run.orRaise x.line (m.heap.writeCell own x.text value) >>= _) m).Guarded m.heap value t m
    cases wrote : m.heap.writeCell own x.text value with
    | error fault =>
      refine .raise x.line fun actual name t' same => ?_
      rw [same] at wrote
      exact Heap.writeCell_blames wrote typed.declared
    | ok write =>
      cases write with
      | stored written =>
        refine .passed (Heap.writeCell_conforms wrote typed.declared) fun _ _ _ _ _ same => ?_
        cases same
      | computed p =>
        exact writeProperty_guarded (typed.property p (Heap.writeCell_computed wrote).1).2 x.line

end Evaluator

theorem Heap.FieldTyped.guards {h : Heap} {o : Ref .object} {name : String} {t : TypeDesc}
    (typed : h.FieldTyped o name t) : h.Guards o name t := by
  obtain ⟨own, found, cell⟩ := typed
  constructor
  · rintro before x value qualified rfl rfl
    exact Evaluator.setMember_guarded found cell qualified
  · rintro before other p value line rfl found' computed
    obtain rfl : other = own := Option.some.inj (found'.symm.trans found)
    exact Evaluator.writeProperty_guarded (cell.property p computed).2 line

/-! From one event to the next. -/

section

variable {h h' : Heap} {o : Ref .object} {name : String} {t : TypeDesc} {past : List Event}

/-- A stretch keeps the declared type of a field. The field is left alone, or a value is assigned to it that has passed
the check against this type. -/
theorem Heap.FieldTyped.stretch (typed : h.FieldTyped o name t) (stretch : h.Stretch past h')
    (properties : ∀ p : Ref .property, p.index < h.properties.size →
      p.index < h'.properties.size ∧ (h.property p).Stays (h'.property p)) :
    h'.FieldTyped o name t ∧ h.Reassigned o name t h' := by
  obtain ⟨own, found, cell⟩ := typed
  have there : o.index < h.objects.size := Heap.lt_of_field (NameMap.mem_of_find? found)
  have untouched (same : (h'.object o).fields.find? name = (h.object o).fields.find? name) :
      h'.FieldTyped o name t ∧ h.Reassigned o name t h' := by
    refine ⟨⟨own, same.trans found, cell.declared, fun p computed => ?_⟩, .inl same⟩
    obtain ⟨inside, declared⟩ := cell.property p computed
    obtain ⟨later, stays⟩ := properties p inside
    exact ⟨later, by rw [stays.declared, declared]⟩
  cases stretch with
  | made makes => exact untouched (by rw [makes.old there])
  | @shared mid _ _ _ _ makes _ _ last =>
    have same : h'.object o = mid.object o := by rw [last]; rfl
    exact untouched (by rw [same, makes.old there])
  | declared objects _ _ => exact untouched (by rw [objects])
  | @written mid o' name' other value makes held wrote last =>
    have written := mid.object_setField o' o name' { other with content := .plain value }
    rw [← last] at written
    by_cases here : o' = o ∧ name' = name
    · obtain ⟨rfl, rfl⟩ := here
      obtain rfl : other = own := Option.some.inj (held.symm.trans (by rw [makes.old there, found]))
      have now : (h'.object o').fields.find? name' = some { other with content := .plain value } := by
        rw [written, if_pos ⟨rfl, Nat.lt_of_lt_of_le there makes.size⟩]
        exact NameMap.find?_insert_self ..
      have conforms : h'.conforms value t = true := by
        rw [last, Heap.conforms_setField]
        exact Heap.writeCell_conforms wrote cell.declared
      exact ⟨⟨_, now, cell.declared, fun p computed => by cases computed⟩, .inr ⟨other, value, found, now, conforms⟩⟩
    · refine untouched ?_
      rw [written, ← makes.old there]
      split
      · rename_i same
        refine NameMap.find?_insert_of_ne _ (fun names => here ⟨Ref.ext_index same.1, names.symm⟩) _
      · rfl

/-- From one moment of a run on, a field of an instance has a declared type. Whatever is assigned to it is checked
against this type, and nothing else changes it. -/
structure KeepsType (o : Ref .object) (name : String) (t : TypeDesc) (moments : List Machine) : Prop where
  typed : ∀ k ∈ moments, k.heap.FieldTyped o name t
  guarded : ∀ k ∈ moments, k.heap.Guards o name t
  assigned : moments.IsChain fun k k' => k.heap.Reassigned o name t k'.heap

theorem KeepsType.cons {k k' : Machine} {moments : List Machine} (typed : k.heap.FieldTyped o name t)
    (reassigned : k.heap.Reassigned o name t k'.heap) (kept : KeepsType o name t (k' :: moments)) :
    KeepsType o name t (k :: k' :: moments) where
  typed := List.forall_mem_cons.mpr ⟨typed, kept.typed⟩
  guarded := List.forall_mem_cons.mpr ⟨typed.guards, kept.guarded⟩
  assigned := List.isChain_cons_cons.mpr ⟨reassigned, kept.assigned⟩

/-- By induction on the history: a field that has a type at one event has it at the next one. -/
theorem Linked.keepsType {H : List Event} {view : View} {k : Permit} {w w' : World} {m n : Machine}
    (linked : Linked Heap.Stretch past w.heap H) (trail : Trail view k w H w') (last : heapAfter w.heap H = m.heap)
    (begun : w.heap = n.heap) (typed : n.heap.FieldTyped o name t) : KeepsType o name t (n :: moments H m) := by
  induction H generalizing past w n with
  | nil =>
    have same : m.heap = n.heap := last.symm.trans begun
    refine .cons typed ?_ ⟨?_, ?_, List.IsChain.singleton _⟩
    · exact .inl (by rw [same])
    · exact List.forall_mem_singleton.mpr (same ▸ typed)
    · exact List.forall_mem_singleton.mpr (same ▸ typed.guards)
  | cons e rest ih =>
    cases trail with
    | cons leads seen later =>
      have stretch := linked.1
      have onward := linked.2
      rw [← seen.heap] at stretch onward
      rw [heapAfter, ← seen.heap] at last
      obtain ⟨typed', reassigned⟩ := (begun ▸ typed : w.heap.FieldTyped o name t).stretch stretch leads.grows.properties
      rw [begun] at reassigned
      rw [seen.heap] at typed' reassigned
      exact .cons typed reassigned (ih onward later last seen.heap typed')

/-- By induction on the history: what a class has for new instances stays in it. -/
theorem Linked.keepsInitial {H : List Event} {view : View} {k : Permit} {w w' : World} {m : Machine}
    (linked : Linked Heap.Stretch past w.heap H) (trail : Trail view k w H w') (last : heapAfter w.heap H = m.heap)
    (sound : w.Sound view) (stocked : w.heap.Stocked past) {c : Ref .cls} {cell : Cell}
    (found : (w.heap.cls c).fields.find? name = some cell) (own : cell.modifiers.static = false) :
    ∀ n ∈ moments H m, (n.heap.cls c).fields.find? name = some cell := by
  induction H generalizing past w with
  | nil =>
    refine List.forall_mem_singleton.mpr ?_
    rwa [← last]
  | cons e rest ih =>
    cases trail with
    | cons leads seen later =>
      have stretch := linked.1
      have onward := linked.2
      rw [← seen.heap] at stretch onward
      rw [heapAfter, ← seen.heap] at last
      have field := NameMap.mem_of_find? found
      have still := stretch.keepsInitial stocked.owns c (Heap.lt_of_classField field) _ field own
      have stocked' := stocked.stretch sound leads stretch
      have found' := (NameMap.findIn_eq_some (stocked'.checked c).distinct).mpr still
      refine List.forall_mem_cons.mpr ⟨seen.heap ▸ found', ?_⟩
      exact ih onward later last seen.sound (stocked'.mono [e]) found'

/-- At an event of a run the classes are in order. Fields keep the types that they have there, and classes what they
have for new instances. -/
theorem Reached.from_event {before after : List Event} {e : Event} {m : Machine}
    (reached : Reached (before ++ e :: after) m) :
    ∃ v, e.Seen .lax v ∧ e.machine.heap.Stocked before ∧
      (∀ o name t, e.machine.heap.FieldTyped o name t → KeepsType o name t (moments (e :: after) m)) ∧
      ∀ c name cell, (e.machine.heap.cls c).fields.find? name = some cell → cell.modifiers.static = false →
        ∀ n ∈ moments after m, (n.heap.cls c).fields.find? name = some cell := by
  obtain ⟨echo, clock, run⟩ := id reached
  obtain ⟨w, trail, -⟩ := reached.trail
  obtain ⟨linked, last⟩ := run.linked (fun _ h => .made (.refl h)) activities_stretch
  have stocked := (Linked.stocked linked trail (World.initial_sound _) initialHeap_stocked).1 before e after rfl
  obtain ⟨v, -, seen, onward⟩ := trail.split
  have further := linked.later
  rw [heapAfter_append, heapAfter, ← seen.heap] at last
  rw [← seen.heap] at further
  refine ⟨v, seen, stocked, fun o name t typed => further.keepsType onward last seen.heap typed, ?_⟩
  intro c name cell found own
  rw [← seen.heap] at found stocked
  exact further.keepsInitial onward last seen.sound (stocked.mono [e]) found own

end

/-! Making an instance in a run. -/

namespace Evaluator

theorem runConstructor_begins (o : Ref .object) (c : Ref .cls) (args : List Value) (line : Line) (m : Machine) :
    (∃ outcome, runConstructor o c args line m = .done outcome ∧ outcome.machine.heap = m.heap) ∨
      ∃ a m' next, runConstructor o c args line m = .ask a m' next ∧ m.heap.Adds m'.heap := by
  cases found : m.heap.constructor? c with
  | none => exact .inl (runConstructor_none found args line)
  | some method =>
    right
    unfold runConstructor
    rw [Run.reading_bind, found]
    obtain ⟨bound, m', done, adds⟩ := bind_adds (m.heap.function method) (.object o) m
    refine ⟨.call bound args [] line, m', .done, ?_, adds⟩
    change callMethod method (.object o) args line m = _
    unfold callMethod
    rw [Run.reading_bind, Run.bind_of_done done]
    rfl

/-- The first event after an instance has been made. Until then only the constructor is bound. -/
theorem runConstructor_first {o : Ref .object} {c : Ref .cls} {args : List Value} {line : Line} {fuel : Nat}
    {m : Machine} {e : Event} (ended : e.machine = ((runConstructor o c args line m).outcome (perform fuel)).machine)
    (after : List Event) :
    ∃ first rest, (runConstructor o c args line m).events (perform fuel) (history fuel) ++ e :: after = first :: rest ∧
      m.heap.Adds first.machine.heap := by
  rcases runConstructor_begins o c args line m with ⟨outcome, done, same⟩ | ⟨a, m', next, asks, adds⟩
  · refine ⟨e, after, by rw [done]; rfl, ?_⟩
    rw [ended, done]
    change m.heap.Adds outcome.machine.heap
    rw [same]
    exact .refl _
  · rw [asks]
    cases fuel <;> exact ⟨.started a m', _, rfl, adds⟩

end Evaluator

namespace Construction

def typeFor? (x : Construction) (template : String) : Option TypeDesc :=
  (argumentFor x.form.templates x.generics template).bind fun g =>
    match Evaluator.typeArgument g x.line x.machine with
    | .done (.ok t _) => some t
    | _ => none

end Construction

/-- A class declaration has a field for instances with a template for its type, to which dimensions may be added. If a
name is declared more than once, the last time counts. -/
def ClassDecl.Templated (decl : ClassDecl) (field template : String) (count : Nat) : Prop :=
  ∃ before f later, decl.fields = before ++ f :: later ∧ (∀ other ∈ later, other.name ≠ f.name) ∧ f.name = field ∧
    f.modifiers.static = false ∧ f.declared = some ((TypeDesc.object template).arrayOfAt count)

/-- From its declaration on, a class has for new instances what it is declared with. -/
theorem Performs.declares {echo : Bool} {clock : Clock} {H after : List Event} {m made : Machine}
    {fuel : Nat} {decl : ClassDecl} {start : Machine} {signal : Signal}
    (performs : Performs (fun _ => True) (.initial echo clock) H m ⟨fuel, .stmt (.classDecl decl), start⟩)
    (done : perform fuel (.stmt (.classDecl decl)) start = .ok signal made)
    (onward : .ended (.stmt (.classDecl decl)) start (.ok signal made) :: after <:+ H) :
    ∃ c, made.heap.here? start.scope decl.name.text = some (.ofValue (.cls c)) ∧
      ∀ n ∈ moments after m, ∀ field template count, decl.Templated field template count →
        (n.heap.cls c).Templated field template count := by
  obtain ⟨before, rfl⟩ := onward
  obtain ⟨c, makes⟩ := perform_class_makes (performs.reached.scope_inside performs.started_mem) done
  obtain ⟨v, -, -, -, keeps⟩ := performs.reached.from_event
  refine ⟨c, makes.bound, ?_⟩
  rintro n moment _ template count ⟨earlier, field, later, split, last, rfl, own, declared⟩
  obtain ⟨cell, found, describes⟩ := makes.fulfils.fields earlier field later split last own
  have static : cell.modifiers.static = false := by rw [describes.modifiers, own]
  exact ⟨cell, keeps c field.name cell found static n moment, static, (describes.declared own).trans declared⟩

/-- In a run that has come to an end, a call of a class has made a new instance. It had all of its fields on a machine,
and then the constructor ran, and whatever came later. -/
structure Construction.Makes (x : Construction) (t : Task) (H : List Event) (o : Ref .object) (n : Machine)
    (later : List Event) : Prop where
  plan : x.plan = Evaluator.runConstructor o x.cls x.args x.line n
  happens : later <:+ H
  constructor : x.plan.events (perform x.fuel) (history x.fuel) ++ [t.ended] <+: later
  new : o.index = x.machine.heap.objects.size
  cls : (n.heap.object o).cls = x.cls

/-- The class that is instantiated has been made by a declaration, before what comes later. -/
def Construction.DeclaredBy (x : Construction) (decl : ClassDecl) (first : Machine) (H later : List Event)
    (m : Machine) : Prop :=
  ∃ fuel start signal made gap,
    Performs (fun _ => True) first H m ⟨fuel, .stmt (.classDecl decl), start⟩ ∧
      perform fuel (.stmt (.classDecl decl)) start = .ok signal made ∧
      made.heap.here? start.scope decl.name.text = some (.ofValue (.cls x.cls)) ∧
      .ended (.stmt (.classDecl decl)) start (.ok signal made) :: (gap ++ later) <:+ H

/-- Instances keep what has been given for the templates of their class. A call of a class fails before anything has
happened, or it makes a new instance. The class has the fields with templates that are written in its declaration. A
type has been given for each template, and a field that the class declares with the template has this type when the
constructor begins, with the dimensions of its declaration, and keeps it for the rest of the run. -/
theorem instances_keep_type_arguments {echo : Bool} {clock : Clock} {H : List Event} {m : Machine} {t : Task}
    {x : Construction} (performs : Performs (fun _ => True) (.initial echo clock) H m t)
    (constructs : t.construction? = some x) :
    (∃ fault, x.plan = .done (.error (.fault fault) x.machine)) ∨
      ∃ o n later, x.Makes t H o n later ∧
        (∀ decl, x.DeclaredBy decl (.initial echo clock) H later m → ∀ field template count,
          decl.Templated field template count → x.form.Templated field template count) ∧
        ∀ field, ∀ template ∈ x.form.templates, ∀ count, x.form.Templated field template count →
          template ≠ "null" → ∃ type, x.typeFor? template = some type ∧
            KeepsType o field (type.arrayOfAt count) (n :: moments later m) := by
  rcases Evaluator.construct_cases x.cls x.args x.generics x.line x.machine with
    failed | ⟨n, made, classes, own, typed⟩
  · exact .inl failed
  right
  obtain ⟨⟨begun, splits⟩, ended⟩ := Task.splits_of_construction constructs
  obtain ⟨pre, post, whole⟩ := performs.happens
  rw [Construction.plan, made] at ended
  obtain ⟨e, rest, first, adds⟩ := Evaluator.runConstructor_first ended post
  rw [← made] at first
  have cut : H = (pre ++ begun) ++ e :: rest := by
    rw [← whole, splits, ← first, Construction.plan]
    simp
  refine ⟨_, n, e :: rest, ⟨made, ⟨_, cut.symm⟩, ⟨post, ?_⟩, rfl, own⟩, ?_, ?_⟩
  · rw [← first, Construction.plan]
    simp
  · rintro decl ⟨fuel, start, signal, after, gap, declares, done, named, onward⟩ field template count written
    obtain ⟨c, named', keeps⟩ := declares.declares done onward
    obtain rfl : x.cls = c := by simpa [Cell.ofValue] using named.symm.trans named'
    have here : e.machine ∈ moments (gap ++ e :: rest) m := by simp [moments, Event.machine]
    have still := keeps e.machine here field template count written
    rwa [Heap.cls_of_classes (adds.classes.trans classes) x.cls] at still
  -- What is known of the class at the first event was true when the instance was made.
  obtain ⟨v, seen, stocked, keeps, -⟩ := (cut ▸ performs.reached).from_event
  have cls : e.machine.heap.cls x.cls = x.form := Heap.cls_of_classes (adds.classes.trans classes) x.cls
  have distinct := (stocked.checked x.cls).distinct
  rw [cls] at distinct
  rintro field template member count ⟨init, found, declared⟩ other
  rw [← seen.heap] at cls
  have known := seen.sound.classes x.cls (Heap.lt_of_classField (NameMap.mem_of_find? (cls ▸ found)))
  rw [cls] at known
  obtain ⟨g, type, given, stands, fieldTyped⟩ := typed distinct (fun name among => (known.templates name among).2) field
    template member count ⟨init, found, declared⟩ other
  refine ⟨type, ?_, .cons fieldTyped (.inl ?_) (keeps _ field _ (fieldTyped.adds adds))⟩
  · rw [Construction.typeFor?, Construction.form, given, Option.bind_some, stands]
  · rw [Heap.object, adds.objects]
    rfl

/-- Instances of one class for two types. -/
def boxesSource : String :=
  "\x7b class Box :<T> \x7b obj T v; obj T[] p \x7b get \x7b return nil; \x7d \x7d \x7d " ++
    "Box:<bool>(); Box:<string>(); \x7d"

instance (c : Class) (field template : String) (count : Nat) : Decidable (c.Templated field template count) :=
  decidable_of_iff ((c.fields.find? field).any (fun init => init.modifiers.static = false ∧
    init.declared = some ((TypeDesc.object template).arrayOfAt count)) = true) (by
      simp [Class.Templated, Option.any_eq_true])

def Construction.isBox (x : Construction) (type : TypeDesc) : Bool :=
  decide ("T" ∈ x.form.templates ∧ x.form.Templated "v" "T" 0 ∧ x.form.Templated "p" "T" 1 ∧
    x.typeFor? "T" = some type) &&
      match x.plan with
      | .done (.error _ _) => false
      | _ => true

set_option maxRecDepth 100000 in
theorem instances_keep_type_arguments_boxes :
    ∃ (H : List Event) (m : Machine) (t t' : Task) (x x' : Construction),
      Performs (fun _ => True) (.initial true {}) H m t ∧ Performs (fun _ => True) (.initial true {}) H m t' ∧
        t.construction? = some x ∧ t'.construction? = some x' ∧ x.cls = x'.cls ∧
          ∃ o n later o' n' later', x.Makes t H o n later ∧ x'.Makes t' H o' n' later' ∧ o ≠ o' ∧
            KeepsType o "v" .boolean (n :: moments later m) ∧
            KeepsType o "p" (TypeDesc.boolean.arrayOfAt 1) (n :: moments later m) ∧
            KeepsType o' "v" .string (n' :: moments later' m) ∧
            KeepsType o' "p" (TypeDesc.string.arrayOfAt 1) (n' :: moments later' m) := by
  have found : finds boxesSource 12 (fun whole => whole.constructions ×ˢ whole.constructions) (fun _ ((_, x), (_, x')) =>
      x.cls = x'.cls ∧ x.isBox .boolean ∧ x'.isBox .string ∧ x.machine.heap.objects.size = 0 ∧
        x'.machine.heap.objects.size = 1) = true := by
    decide +kernel
  obtain ⟨whole, ⟨⟨t, x⟩, ⟨t', x'⟩⟩, member, checked, run⟩ := finds_run found
  obtain ⟨first, second⟩ := List.mem_product.mp member
  obtain ⟨contains, constructs⟩ := Task.of_mem_constructions first
  obtain ⟨contains', constructs'⟩ := Task.of_mem_constructions second
  have performs := run t contains
  have performs' := run t' contains'
  obtain ⟨cls, isBox, isBox', none, one⟩ := of_decide_eq_true checked
  generalize whole.history = H at performs performs' ⊢
  generalize whole.outcome.machine = m at performs performs' ⊢
  have kept {t : Task} {x : Construction} {type : TypeDesc} (isBox : x.isBox type = true)
      (performs : Performs (fun _ => True) (.initial true {}) H m t) (constructs : t.construction? = some x) :
      ∃ o n later, x.Makes t H o n later ∧ KeepsType o "v" type (n :: moments later m) ∧
        KeepsType o "p" (type.arrayOfAt 1) (n :: moments later m) := by
    obtain ⟨declares, goesOn⟩ := Bool.and_eq_true_iff.mp isBox
    obtain ⟨template, plain, computed, given⟩ := of_decide_eq_true declares
    rcases instances_keep_type_arguments performs constructs with ⟨fault, failed⟩ | ⟨o, n, later, makes, -, keeps⟩
    · rw [failed] at goesOn
      cases goesOn
    · obtain ⟨type', given', first⟩ := keeps "v" "T" template 0 plain (by decide)
      obtain ⟨type'', given'', second⟩ := keeps "p" "T" template 1 computed (by decide)
      rw [given] at given' given''
      cases given'
      cases given''
      exact ⟨o, n, later, makes, first, second⟩
  obtain ⟨o, n, later, makes, first, second⟩ := kept isBox performs constructs
  obtain ⟨o', n', later', makes', first', second'⟩ := kept isBox' performs' constructs'
  refine ⟨H, m, t, t', x, x', performs, performs', constructs, constructs', cls, o, n, later, o', n', later', makes,
    makes', ?_, first, second, first', second'⟩
  rintro rfl
  exact absurd (none.symm.trans (makes.new.symm.trans (makes'.new.trans one))) (by decide)

end Treewalk
