import Treewalk.Proofs.CellReads
import Treewalk.Proofs.Constants
import Treewalk.Proofs.FieldTypes

/-!
Writes to members. What a read of a member finds, a write finds in another way: it takes the field that the
instance has itself, or else the field of the class that owns it, copies the cell, and puts the copy back with
the new value. So it has to be shown that both find the same cell, that nothing but its value is changed, and
that every class which has the field from the same owner sees the new value.
-/

namespace Treewalk

namespace Heap

def store (h : Heap) (slot : Slot) (cell : Cell) : Heap :=
  match slot with
  | .scope r name => h.define r name cell
  | .object o name => h.setField o name cell
  | .cls c name => h.setClassField c name cell

variable {h : Heap} {slot : Slot} {old : Cell}

theorem cellAt?_store_self (found : h.cellAt? slot = some old) (cell : Cell) :
    (h.store slot cell).cellAt? slot = some cell := by
  cases slot with
  | scope r name =>
    have inside : r.index < h.scopes.size := lt_of_here? (by rw [← cellAt?, found]; rfl)
    simp [cellAt?, store, here?, scope_define, inside]
  | object o name =>
    have inside := lt_of_field (NameMap.mem_of_find? found)
    simp [cellAt?, store, object_setField, inside]
  | cls c name =>
    have inside := lt_of_classField (NameMap.mem_of_find? found)
    simp [cellAt?, store, cls_setClassField, inside]

theorem cellAt?_store_of_ne {other : Slot} (different : other ≠ slot) (cell : Cell) :
    (h.store slot cell).cellAt? other = h.cellAt? other := by
  -- Records of one kind are kept apart by their positions and names, and those of different kinds anyway.
  cases slot with
  | scope r name =>
    cases other with
    | scope r' name' =>
      simp only [cellAt?, store, here?, scope_define]
      split
      · rename_i here
        obtain rfl : r = r' := Ref.ext_index here.1
        exact NameMap.find?_insert_of_ne _ (fun same => different (congrArg _ same)) cell
      · rfl
    | _ => rfl
  | object o name =>
    cases other with
    | object o' name' =>
      simp only [cellAt?, store, object_setField]
      split
      · rename_i here
        obtain rfl : o = o' := Ref.ext_index here.1
        exact NameMap.find?_insert_of_ne _ (fun same => different (congrArg _ same)) cell
      · rfl
    | _ => rfl
  | cls c name =>
    cases other with
    | cls c' name' =>
      simp only [cellAt?, store, cls_setClassField]
      split
      · rename_i here
        obtain rfl : c = c' := Ref.ext_index here.1
        exact NameMap.find?_insert_of_ne _ (fun same => different (congrArg _ same)) cell
      · rfl
    | _ => rfl

/-- Replacing a cell adds no field and moves no class, so fields have the owners that they had. -/
theorem fieldOwner?_store (found : h.cellAt? slot = some old) (cell : Cell) (c : Ref .cls) (name : String) :
    (h.store slot cell).fieldOwner? c name = h.fieldOwner? c name := by
  have superclass (c : Ref .cls) : ((h.store slot cell).cls c).superclass = (h.cls c).superclass := by
    cases slot with
    | cls owner field =>
      rw [store, cls_setClassField]
      split <;> rfl
    | _ => rfl
  have contains (c : Ref .cls) : ((h.store slot cell).cls c).fields.contains name = (h.cls c).fields.contains name := by
    change ((h.store slot cell).cellAt? (.cls c name)).isSome = (h.cellAt? (.cls c name)).isSome
    by_cases same : Slot.cls c name = slot
    · rw [same, cellAt?_store_self found, found]
      rfl
    · rw [cellAt?_store_of_ne same]
  unfold fieldOwner?
  rw [lineage_of_superclass superclass]
  simp only [contains]

theorem findField?_of_fieldOwner? {c owner : Ref .cls} {name : String} (nearest : h.fieldOwner? c name = some owner) :
    h.findField? c name = h.cellAt? (.cls owner name) := by
  unfold fieldOwner? at nearest
  unfold findField?
  generalize h.lineage c = line at nearest
  induction line with
  | nil => cases nearest
  | cons first rest ih =>
    rw [List.find?_cons] at nearest
    rw [List.findSome?_cons]
    cases own : (h.cls first).fields.find? name with
    | some held =>
      simp only [NameMap.contains, own, Option.isSome_some, Option.some.injEq] at nearest
      rw [← nearest]
      exact own.symm
    | none =>
      simp only [NameMap.contains, own, Option.isSome_none] at nearest
      exact ih nearest

theorem writeCell_plain {cell written : Cell} {name : String} {value : Value}
    (done : h.writeCell cell name value = .ok (.stored written)) : ∃ old, cell.content = .plain old := by
  cases content : cell.content with
  | plain old => exact ⟨old, rfl⟩
  | computed p =>
    simp only [writeCell, content] at done
    split at done <;> cases done

/-- Where the member of a target is: in the instance, or else in the nearest class that declares it. -/
def memberSlot? (h : Heap) (target : Value) (name : String) : Option Slot :=
  match target with
  | .object o =>
    if (h.object o).fields.contains name then some (.object o name)
    else (h.fieldOwner? (h.object o).cls name).map (Slot.cls · name)
  | .cls c => (h.fieldOwner? c name).map (Slot.cls · name)
  | _ => none

end Heap

def Machine.Reads (m : Machine) (target : Value) (name : Name) (qualified : Bool) (value : Value) : Prop :=
  ∃ after, Evaluator.getMember target name qualified m = .done (.ok value after) ∧ after.heap = m.heap

namespace Evaluator

variable {m : Machine} {cell : Cell} {value : Value} {name : Name}

/-- A static field is read through any class that has it, written in either way. -/
theorem getOfClass_reads {c : Ref .cls} (found : m.heap.findField? c name.text = some cell)
    (plain : cell.content = .plain value) (static : cell.modifiers.static = true) (qualified : Bool) :
    m.Reads (.cls c) name qualified value := by
  refine ⟨m, ?_, rfl⟩
  rw [getMember_class found, static, readCell_plain plain]
  rfl

theorem getOfObject_reads {o : Ref .object} (found : (m.heap.object o).fields.find? name.text = some cell)
    (plain : cell.content = .plain value) : m.Reads (.object o) name false value := by
  refine ⟨m, ?_, rfl⟩
  rw [getMember_own found, readCell_plain plain]
  rfl

theorem getShared_reads {o : Ref .object} (absent : (m.heap.object o).fields.find? name.text = none)
    (found : m.heap.findField? (m.heap.object o).cls name.text = some cell) (plain : cell.content = .plain value) :
    m.Reads (.object o) name false value := by
  obtain ⟨_, after, warned, heap, -⟩ := Run.warn_quiet name.line (.staticThroughInstance name.text) m
  refine ⟨after, ?_, heap⟩
  rw [getMember_shared absent found, Run.bind_of_done warned, readCell_plain plain]
  rfl

end Evaluator

/-- What a write to a member comes to, from a heap and the slot where the member is: the value is stored in a plain
cell, the write is refused and the heap is as before, or the setter of a property is called. -/
inductive MemberWrite (h : Heap) (slot? : Option Slot) (value : Value) : Plan Unit → Prop where
  | stored {slot : Slot} {cell : Cell} {old : Value} {after : Machine} (goes : slot? = some slot)
      (found : h.cellAt? slot = some cell) (plain : cell.content = .plain old)
      (static : ∀ owner name, slot = .cls owner name → cell.modifiers.static = true)
      (heap : after.heap = h.store slot { cell with content := .plain value }) :
      MemberWrite h slot? value (.done (.ok () after))
  | refused {stop : Stop} {after : Machine} (heap : after.heap = h) :
      MemberWrite h slot? value (.done (.error stop after))
  | setter {slot : Slot} {cell : Cell} {p : Ref .property} {f : Ref .function} {line : Line} {before : Machine}
      {next : Outcome Value → Plan Unit} (goes : slot? = some slot) (found : h.cellAt? slot = some cell)
      (computed : cell.content = .computed p) (setter : (h.property p).setter = some f) (heap : before.heap = h) :
      MemberWrite h slot? value (.ask (.call (h.function f) [value] [] line) before next)

namespace Evaluator

variable {m : Machine} {cell : Cell} {value : Value} {name : Name} {slot : Slot} {slot? : Option Slot}

theorem writeProperty_writes (goes : slot? = some slot) (found : m.heap.cellAt? slot = some cell) {p : Ref .property}
    (computed : cell.content = .computed p) (line : Line) :
    MemberWrite m.heap slot? value (writeProperty p value line m) := by
  unfold writeProperty
  rw [Run.reading_bind]
  cases setter : (m.heap.property p).setter with
  | none => exact .refused rfl
  | some f =>
    simp only [Run.heap_bind]
    cases m.heap.checkType (m.heap.property p).declared (m.heap.property p).name value with
    | error fault => exact .refused rfl
    | ok _ =>
      cases Heap.checkRange (m.heap.property p).modifiers (m.heap.property p).name value with
      | error fault => exact .refused rfl
      | ok _ => exact .setter goes found computed setter rfl

theorem writeCell_writes (goes : slot? = some slot) (found : m.heap.cellAt? slot = some cell)
    (static : ∀ owner name, slot = .cls owner name → cell.modifiers.static = true) {f : Heap.Write → Run Unit}
    (stores : ∀ written, f (.stored written) = Run.update (·.store slot written))
    (calls : ∀ p, f (.computed p) = writeProperty p value name.line) :
    MemberWrite m.heap slot? value ((Run.orRaise name.line (m.heap.writeCell cell name.text value) >>= f) m) := by
  cases wrote : m.heap.writeCell cell name.text value with
  | error fault => exact .refused rfl
  | ok write =>
    change MemberWrite m.heap slot? value (f write m)
    cases write with
    | stored written =>
      obtain ⟨-, rfl, -⟩ := Heap.writeCell_stored wrote
      obtain ⟨old, plain⟩ := Heap.writeCell_plain wrote
      rw [stores]
      exact .stored goes found plain static rfl
    | computed p =>
      rw [calls]
      exact writeProperty_writes goes found (Heap.writeCell_computed wrote).1 name.line

theorem setOfClass_writes {owner : Ref .cls} (goes : slot? = some (.cls owner name.text))
    (found : (m.heap.cls owner).fields.find? name.text = some cell) (static : cell.modifiers.static = true) :
    MemberWrite m.heap slot? value (setOfClass owner cell name value m) :=
  writeCell_writes goes found (fun _ _ _ => static) (fun _ => rfl) fun _ => rfl

theorem static_of_absent {o : Ref .object} {owner : Ref .cls} (owns : m.heap.Owns o)
    (absent : (m.heap.object o).fields.find? name.text = none)
    (line : owner ∈ m.heap.lineage (m.heap.object o).cls)
    (found : (m.heap.cls owner).fields.find? name.text = some cell) : cell.modifiers.static = true := by
  cases own : cell.modifiers.static with
  | true => rfl
  | false =>
    have there := owns owner line _ (NameMap.mem_of_find? found) own
    rw [NameMap.contains, absent] at there
    cases there

theorem setOfObject_writes {o : Ref .object} (owns : m.heap.Owns o) :
    MemberWrite m.heap (m.heap.memberSlot? (.object o) name.text) value (setOfObject o name value m) := by
  unfold setOfObject
  rw [Run.reading_bind]
  cases own : (m.heap.object o).fields.find? name.text with
  | some cell =>
    have goes : m.heap.memberSlot? (.object o) name.text = some (.object o name.text) := by
      simp [Heap.memberSlot?, NameMap.contains, own]
    refine writeCell_writes goes own ?_ (fun _ => rfl) fun _ => rfl
    intro owner field impossible
    cases impossible
  | none =>
    simp only
    rcases ownedField_cases (m.heap.object o).cls name m with ⟨fault, stops⟩ | ⟨owner, cell, owned, nearest, found⟩
    · change MemberWrite _ _ _ ((ownedField (m.heap.object o).cls name m).andThen _)
      rw [stops]
      exact .refused rfl
    · have line : owner ∈ m.heap.lineage (m.heap.object o).cls := List.mem_of_find?_eq_some nearest
      have goes : m.heap.memberSlot? (.object o) name.text = some (.cls owner name.text) := by
        simp [Heap.memberSlot?, NameMap.contains, own, nearest]
      obtain ⟨_, after, warned, heap, -⟩ := Run.warn_quiet name.line (.staticThroughInstance name.text) m
      rw [Run.bind_of_done owned, Run.bind_of_done warned, ← heap]
      rw [← heap] at goes
      refine setOfClass_writes goes ?_ (static_of_absent owns own line found)
      rwa [heap]

/-- A write to a member ends in one of three ways, provided that instances have all the fields that their classes
have for them. -/
theorem setMember_writes (owns : ∀ o, m.heap.Owns o) (target : Value) (name : Name) (value : Value) (qualified : Bool) :
    MemberWrite m.heap (m.heap.memberSlot? target name.text) value (setMember target name value qualified m) := by
  cases target with
  | object o =>
    cases qualified with
    | true => exact .refused rfl
    | false => exact setOfObject_writes (owns o)
  | cls c =>
    change MemberWrite _ _ _ ((ownedField c name >>= _) m)
    rcases ownedField_cases c name m with ⟨fault, stops⟩ | ⟨owner, cell, owned, nearest, found⟩
    · change MemberWrite _ _ _ ((ownedField c name m).andThen _)
      rw [stops]
      exact .refused rfl
    · rw [Run.bind_of_done owned]
      change MemberWrite _ _ _ ((if cell.modifiers.static = true then setOfClass owner cell name value else _ :
        Run Unit) m)
      split
      · rename_i static
        have goes : m.heap.memberSlot? (.cls c) name.text = some (.cls owner name.text) := by
          simp [Heap.memberSlot?, nearest]
        exact setOfClass_writes goes found static
      · exact .refused rfl
  | enumeration e => exact .refused rfl
  | _ => exact .refused rfl

end Evaluator

/-- A value has been stored in a slot, and nothing else has happened to the heap. -/
structure Machine.Stores (before after : Machine) (slot : Slot) (cell : Cell) (value : Value) : Prop where
  found : before.heap.cellAt? slot = some cell
  plain : ∃ old, cell.content = .plain old
  heap : after.heap = before.heap.store slot { cell with content := .plain value }
  written : after.heap.cellAt? slot = some { cell with content := .plain value }
  others : ∀ other, other ≠ slot → after.heap.cellAt? other = before.heap.cellAt? other

section

variable {before after : Machine} {owner : Ref .cls} {name : Name} {cell : Cell} {value : Value}

theorem Machine.Stores.findField? (stores : before.Stores after (.cls owner name.text) cell value) {c : Ref .cls}
    (nearest : before.heap.fieldOwner? c name.text = some owner) :
    after.heap.findField? c name.text = some { cell with content := .plain value } := by
  rw [Heap.findField?_of_fieldOwner?, stores.written]
  rwa [stores.heap, Heap.fieldOwner?_store stores.found]

theorem Machine.Stores.reads_shared (stores : before.Stores after (.cls owner name.text) cell value)
    (static : cell.modifiers.static = true) {c : Ref .cls}
    (nearest : before.heap.fieldOwner? c name.text = some owner) (qualified : Bool) :
    after.Reads (.cls c) name qualified value :=
  Evaluator.getOfClass_reads (stores.findField? nearest) rfl static qualified

theorem Machine.Stores.reads_object {o : Ref .object} {slot : Slot} (stores : before.Stores after slot cell value)
    (goes : before.heap.memberSlot? (.object o) name.text = some slot) : after.Reads (.object o) name false value := by
  unfold Heap.memberSlot? at goes
  cases own : (before.heap.object o).fields.contains name.text with
  | true =>
    obtain rfl : Slot.object o name.text = slot := by simpa [own] using goes
    exact Evaluator.getOfObject_reads stores.written rfl
  | false =>
    obtain ⟨owner, nearest, rfl⟩ : ∃ owner, before.heap.fieldOwner? (before.heap.object o).cls name.text = some owner ∧
        Slot.cls owner name.text = slot := by simpa [own] using goes
    have same : (after.heap.object o).cls = (before.heap.object o).cls := by
      rw [stores.heap]
      rfl
    have absent : (after.heap.object o).fields.find? name.text = none := by
      have still := stores.others (.object o name.text) fun impossible => by cases impossible
      exact still.trans (Option.isSome_eq_false_iff.mp own |> Option.isNone_iff_eq_none.mp)
    have found : after.heap.findField? (after.heap.object o).cls name.text = some { cell with content := .plain value } := by
      rw [same]
      exact stores.findField? nearest
    exact Evaluator.getShared_reads absent found rfl

/-- A write that has ended well can be read back. -/
theorem Machine.Stores.reads {target : Value} {qualified : Bool} {slot : Slot}
    (done : Evaluator.setMember target name value qualified before = .done (.ok () after))
    (goes : before.heap.memberSlot? target name.text = some slot) (stores : before.Stores after slot cell value)
    (static : ∀ owner name, slot = .cls owner name → cell.modifiers.static = true) :
    after.Reads target name qualified value := by
  cases target with
  | object o =>
    cases qualified with
    | true => cases done
    | false => exact stores.reads_object goes
  | cls c =>
    obtain ⟨owner, nearest, rfl⟩ := Option.map_eq_some_iff.mp goes
    exact stores.reads_shared (static owner name.text rfl) nearest qualified
  | _ => cases goes

end

/-- Writes to members are read back and touch nothing else. In every state of a run, a write that ends well without
calling a setter has put the value in the slot of the member, in place of another value, and changed no other cell;
a slot that is not of the instance itself is a static field of the nearest class that declares the name; and the
member can be read through the same target, and through every class that has it from there. A write that fails
before a setter is called has changed nothing, and no other function is called. -/
theorem member_writes_read_back {H : List Event} {m : Machine} (reached : Reached H m) :
    ∀ n ∈ moments H m, ∀ before : Machine, before.heap = n.heap → ∀ target name value qualified,
      (∀ after, Evaluator.setMember target name value qualified before = .done (.ok () after) →
        ∃ slot cell, before.heap.memberSlot? target name.text = some slot ∧ before.Stores after slot cell value ∧
          after.Reads target name qualified value ∧
          ∀ owner, slot = .cls owner name.text → cell.modifiers.static = true ∧
            ∀ c, before.heap.fieldOwner? c name.text = some owner →
              ∀ qualified, after.Reads (.cls c) name qualified value) ∧
      (∀ stop after, Evaluator.setMember target name value qualified before = .done (.error stop after) →
        after.heap = before.heap) ∧
      ∀ activity asked next, Evaluator.setMember target name value qualified before = .ask activity asked next →
        asked.heap = before.heap ∧ ∃ slot cell p f line, before.heap.memberSlot? target name.text = some slot ∧
          before.heap.cellAt? slot = some cell ∧ cell.content = .computed p ∧
          (before.heap.property p).setter = some f ∧ activity = .call (before.heap.function f) [value] [] line := by
  intro n member before heap target name value qualified
  obtain ⟨earlier, later, split⟩ := List.append_of_mem member
  obtain ⟨_, _, -, -, -, stocked⟩ := reached.stocked split
  have owns : ∀ o, before.heap.Owns o := by
    rw [heap]
    exact stocked.owns
  have writes := Evaluator.setMember_writes owns target name value qualified
  refine ⟨fun after done => ?_, fun stop after failed => ?_, fun activity asked next asks => ?_⟩
  · rw [done] at writes
    cases writes with
    | @stored slot cell _ _ goes found plain static heap =>
      have stores : before.Stores after slot cell value :=
        ⟨found, ⟨_, plain⟩, heap, by rw [heap, Heap.cellAt?_store_self found],
          fun other different => by rw [heap, Heap.cellAt?_store_of_ne different]⟩
      refine ⟨slot, cell, goes, stores, stores.reads done goes static, ?_⟩
      rintro owner rfl
      refine ⟨static owner name.text rfl, fun c nearest => ?_⟩
      exact stores.reads_shared (static owner name.text rfl) nearest
  · rw [failed] at writes
    cases writes with
    | refused heap => exact heap
  · rw [asks] at writes
    cases writes with
    | setter goes found computed setter heap => exact ⟨heap, _, _, _, _, _, goes, found, computed, setter, rfl⟩

/-- A class with a static field, a class below it, and an instance of this one. -/
def staticSource : String :=
  "class A \x7b static var s = true; \x7d class B <- A \x7b \x7d var b = B();"

def Plan.succeeds : Plan α → Bool
  | .done (.ok ..) => true
  | _ => false

theorem Plan.succeeds_iff {plan : Plan Unit} (succeeds : plan.succeeds = true) : ∃ after, plan = .done (.ok () after) := by
  unfold Plan.succeeds at succeeds
  split at succeeds
  · exact ⟨_, rfl⟩
  · cases succeeds

set_option maxRecDepth 100000 in
/-- The field is written through the instance, and then read through both classes. -/
theorem member_writes_read_back_static :
    ∃ H m after cell, Reached H m ∧
      Evaluator.setMember (.object ⟨0⟩) ⟨"s", 1⟩ (.bool false) false m = .done (.ok () after) ∧
      m.heap.cellAt? (.cls ⟨1⟩ "s") = some cell ∧
      after.heap.cellAt? (.cls ⟨1⟩ "s") = some { cell with content := .plain (.bool false) } ∧
      ∀ c ∈ [⟨1⟩, ⟨2⟩], after.Reads (.cls c) ⟨"s", 1⟩ true (.bool false) := by
  have reached := Reached.text 20 staticSource
  have facts : let m := ((Session.start {}).run 20 staticSource).machine
      (Evaluator.setMember (.object ⟨0⟩) ⟨"s", 1⟩ (.bool false) false m).succeeds = true ∧
        (m.heap.object ⟨0⟩).cls = ⟨2⟩ ∧ (m.heap.object ⟨0⟩).fields.contains "s" = false ∧
        ∀ c ∈ [(⟨1⟩ : Ref .cls), ⟨2⟩], m.heap.fieldOwner? c "s" = some ⟨1⟩ := by decide +kernel
  generalize ((Session.start {}).run 20 staticSource).machine = m at reached facts
  obtain ⟨succeeds, cls, absent, owner⟩ := facts
  obtain ⟨after, done⟩ := Plan.succeeds_iff succeeds
  obtain ⟨slot, cell, goes, stores, -, shared⟩ :=
    (member_writes_read_back reached m (last_mem_moments _ m) m rfl _ _ _ _).1 after done
  have nearest : m.heap.fieldOwner? ⟨2⟩ "s" = some ⟨1⟩ := owner _ (by simp)
  obtain rfl : Slot.cls ⟨1⟩ "s" = slot := by simpa [Heap.memberSlot?, cls, absent, nearest] using goes
  exact ⟨_, m, after, cell, reached, done, stores.found, stores.written,
    fun c member => (shared ⟨1⟩ rfl).2 c (owner c member) true⟩

end Treewalk
