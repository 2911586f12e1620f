import Treewalk.Proofs.FieldStretch
import Treewalk.Proofs.Trail

/-!
Types of fields. At every moment of a run, a field of an instance holds nil or a value that conforms to its
declared type, unless it still has its initial value. That one was checked when the class was declared, against
the type as it was meant there; if the type is a name, it may mean something else for the instance.
-/

namespace Treewalk

open Scoping

namespace Heap

/-- A field holds nil, or what conforms to its type, or still its initial value. -/
def Holds (h : Heap) (o : Ref .object) (x : String × Cell) : Prop :=
  ∀ value, x.2.content = .plain value → ∀ t ∈ x.2.declared,
    value = .nil ∨ h.conforms value t = true ∨ h.Stock o x

/-- What is true of classes and instances at every moment of a run. -/
structure Stocked (past : List Event) (h : Heap) : Prop where
  owns : ∀ o, h.Owns o
  checked : ∀ c, (h.cls c).Checked past
  fields : ∀ o, ∀ x ∈ (h.object o).fields.entries, h.Holds o x

theorem conforms_setField (h : Heap) (o : Ref .object) (name : String) (cell : Cell) (value : Value) (t : TypeDesc) :
    (h.setField o name cell).conforms value t = h.conforms value t := by
  have cls (r : Ref .object) : ((h.setField o name cell).object r).cls = (h.object r).cls := by
    rw [object_setField]
    split <;> rfl
  unfold conforms
  cases value with
  | object r =>
    have classes : (h.setField o name cell).classes = h.classes := rfl
    have line := lineage_of_classes classes (h.object r).cls
    simp only [typeOf, isA]
    rw [cls, line]
    rfl
  | _ => rfl

end Heap

variable {past : List Event} {h h' : Heap} {view : View} {k : Permit} {w w' : World}

/-- Every instance has a class that is there, and so has what is no instance. -/
theorem World.Sound.cls_inside (sound : w.Sound view) (o : Ref .object) :
    (w.heap.object o).cls.index < w.heap.classes.size := by
  by_cases inside : o.index < w.heap.objects.size
  · exact (sound.objects o inside).cls
  · rw [Heap.object_of_size_le (Nat.le_of_not_lt inside)]
    exact sound.root

namespace Heap

/-- What a class has for new instances, it keeps. -/
def KeepsInitial (h h' : Heap) : Prop :=
  ∀ c : Ref .cls, c.index < h.classes.size → ∀ x ∈ (h.cls c).fields.entries, x.2.modifiers.static = false →
    x ∈ (h'.cls c).fields.entries

end Heap

section

variable (sound : w.Sound view) (leads : w.Leads k w')

include sound leads

theorem World.stock_stays (kept : w.heap.KeepsInitial w'.heap) {o : Ref .object}
    (object : (w'.heap.object o).cls = (w.heap.object o).cls) {x : String × Cell} (stock : w.heap.Stock o x) :
    w'.heap.Stock o x := by
  obtain ⟨d, line, init, field, own, stems⟩ := stock
  have inside := sound.cls_inside o
  refine ⟨d, ?_, init, ?_, own, stems⟩
  · rwa [object, Heap.lineage_stays sound.linked inside leads.grows]
  · exact kept d (Heap.lineageFrom_inside sound.linked _ inside line) _ field own

theorem World.holds_stays (kept : w.heap.KeepsInitial w'.heap) {o : Ref .object}
    (object : (w'.heap.object o).cls = (w.heap.object o).cls) {x : String × Cell}
    (field : x ∈ (w.heap.object o).fields.entries) (holds : w.heap.Holds o x) : w'.heap.Holds o x := by
  intro value plain t typed
  have known : w.Known view value := by
    have cell := (sound.objects o (Heap.lt_of_field field)).fields x field
    unfold World.CellKnown at cell
    rwa [plain] at cell
  rcases holds value plain t typed with none | conforms | stock
  · exact .inl none
  · exact .inr (.inl (by rwa [World.conforms_stays sound leads known]))
  · exact .inr (.inr (World.stock_stays sound leads kept object stock))

end

theorem NameMap.mem_insert_of_mem {m : NameMap α} {name : String} {value : α} {x : String × α}
    (member : x ∈ m.entries) (other : ∀ old, m.find? name = some old → x ≠ (name, old)) :
    x ∈ (m.insert name value).entries := by
  obtain ⟨entries⟩ := m
  simp only [insert, find?] at member other ⊢
  induction entries with
  | nil => cases member
  | cons first rest ih =>
    obtain ⟨key, held⟩ := first
    unfold insertIn
    unfold findIn at other
    split
    · rename_i same
      subst same
      rcases List.mem_cons.mp member with rfl | member
      · exact absurd rfl (other held (if_pos rfl))
      · exact List.mem_cons_of_mem _ member
    · rename_i different
      rw [if_neg different] at other
      rcases List.mem_cons.mp member with rfl | member
      · exact List.mem_cons_self
      · exact List.mem_cons_of_mem _ (ih member other)

/-! One stretch. -/

namespace Heap

variable {mid : Heap} {owner : Ref .cls} {name : String} {cell : Cell} {value : Value}

theorem setClassField_others (found : (mid.cls owner).fields.find? name = some cell)
    (static : cell.modifiers.static = true) (c : Ref .cls) (x : String × Cell) (own : x.2.modifiers.static = false) :
    x ∈ ((mid.setClassField owner name { cell with content := .plain value }).cls c).fields.entries ↔
      x ∈ (mid.cls c).fields.entries := by
  rw [cls_setClassField]
  split
  · rename_i here
    obtain rfl : owner = c := Ref.ext_index here.1
    constructor
    · intro member
      rcases NameMap.mem_insert member with rfl | there
      · rw [show cell.modifiers.static = false from own] at static
        cases static
      · exact there
    · intro there
      refine NameMap.mem_insert_of_mem there ?_
      rintro old first rfl
      rw [found] at first
      cases first
      rw [show cell.modifiers.static = false from own] at static
      cases static
  · rfl

/-- An instance has a field of its own for everything that is not static, so what it shares with its class is. -/
theorem Makes.shared_static (makes : h.Makes mid) (owns : ∀ o, h.Owns o)
    (found : (mid.cls owner).fields.find? name = some cell)
    (shared : cell.modifiers.static = true ∨
      ∃ o, owner ∈ mid.lineage (mid.object o).cls ∧ (mid.object o).fields.find? name = none) :
    cell.modifiers.static = true := by
  rcases shared with static | ⟨o, line, absent⟩
  · exact static
  · cases own : cell.modifiers.static with
    | true => rfl
    | false =>
      have there := makes.owns (owns o) owner line _ (NameMap.mem_of_find? found) own
      rw [NameMap.contains, absent] at there
      cases there

theorem Stretch.keepsInitial (stretch : h.Stretch past h') (owns : ∀ o, h.Owns o) : h.KeepsInitial h' := by
  intro c inside x field own
  cases stretch with
  | made makes => rwa [cls_of_classes makes.classes]
  | @written mid o name cell value makes _ _ last =>
    have classes : h'.classes = mid.classes := by rw [last]; rfl
    rwa [cls_of_classes classes, cls_of_classes makes.classes]
  | shared makes found static last =>
    rw [last, setClassField_others found (makes.shared_static owns found static) c x own]
    rwa [cls_of_classes makes.classes]
  | declared _ old _ => rwa [old c (Nat.ne_of_lt inside)]

end Heap

namespace Heap.Stocked

theorem mono (stocked : h.Stocked past) (more : List Event) : h.Stocked (past ++ more) :=
  ⟨stocked.owns, fun c => (stocked.checked c).mono more, stocked.fields⟩

section

variable (sound : w.Sound view) (leads : w.Leads k w') (stocked : w.heap.Stocked past)

include sound leads stocked

theorem kept {mid : Heap} (makes : w.heap.Makes mid) (initial : w.heap.KeepsInitial w'.heap)
    (line : ∀ c, w'.heap.lineage c = mid.lineage c) (further : mid.KeepsInitial w'.heap) {o : Ref .object}
    (cls : (w'.heap.object o).cls = (mid.object o).cls) {x : String × Cell}
    (field : x ∈ (mid.object o).fields.entries) : w'.heap.Holds o x := by
  rcases makes.field field with same | ⟨d, among, init, entry, own, stems⟩
  · rw [same] at field cls
    exact World.holds_stays sound leads initial cls field (stocked.fields o x field)
  · refine fun _ _ _ _ => .inr (.inr ⟨d, ?_, init, ?_, own, stems⟩)
    · rwa [line, cls]
    · exact further d (lt_of_classField entry) _ entry own

theorem made (makes : w.heap.Makes w'.heap) : w'.heap.Stocked past where
  owns o := makes.owns (stocked.owns o)
  checked c := by
    rw [cls_of_classes makes.classes]
    exact stocked.checked c
  fields o x field := by
    refine stocked.kept sound leads makes ?_ (fun _ => rfl) (fun _ _ _ there _ => there) rfl field
    intro c _ x there _
    rwa [cls_of_classes makes.classes]

theorem written {mid : Heap} {o : Ref .object} {name : String} {cell : Cell} {value : Value}
    (makes : w.heap.Makes mid) (admits : mid.Admits { cell with content := .plain value })
    (last : w'.heap = mid.setField o name { cell with content := .plain value }) : w'.heap.Stocked past := by
  have classes : w'.heap.classes = mid.classes := by rw [last]; rfl
  have cls (c : Ref .cls) : w'.heap.cls c = mid.cls c := cls_of_classes classes c
  have held (r : Ref .object) := mid.object_setField o r name { cell with content := .plain value }
  simp only [← last] at held
  have same (r : Ref .object) : (w'.heap.object r).cls = (mid.object r).cls := by
    rw [held]
    split <;> rfl
  refine ⟨fun r => ?_, fun c => ?_, fun r x field => ?_⟩
  · refine (makes.owns (stocked.owns r)).same classes (same r) fun other there => ?_
    rw [held]
    split
    · simp only
      rw [NameMap.contains_insert, there, Bool.or_true]
    · exact there
  · rw [cls, cls_of_classes makes.classes]
    exact stocked.checked c
  · have old (there : x ∈ (mid.object r).fields.entries) : w'.heap.Holds r x := by
      refine stocked.kept sound leads makes ?_ (lineage_of_classes classes) ?_ (same r) there
      · intro c _ y entry _
        rwa [cls, cls_of_classes makes.classes]
      · intro c _ y entry _
        rwa [cls]
    rw [held] at field
    split at field
    · rcases NameMap.mem_insert field with rfl | there
      · rintro _ ⟨⟩ t typed
        rw [last, conforms_setField]
        exact ((admits value rfl).1 t typed).imp_right .inl
      · exact old there
    · exact old field

theorem shared {mid : Heap} {owner : Ref .cls} {name : String} {cell : Cell} {value : Value}
    (makes : w.heap.Makes mid) (found : (mid.cls owner).fields.find? name = some cell)
    (static : cell.modifiers.static = true)
    (last : w'.heap = mid.setClassField owner name { cell with content := .plain value }) :
    w'.heap.Stocked past := by
  have held (c : Ref .cls) := mid.cls_setClassField owner c name { cell with content := .plain value }
  simp only [← last] at held
  have superclass (c : Ref .cls) : (w'.heap.cls c).superclass = (mid.cls c).superclass := by
    rw [held]
    split <;> rfl
  have scope (c : Ref .cls) : (w'.heap.cls c).scope = (mid.cls c).scope := by
    rw [held]
    split <;> rfl
  have object (o : Ref .object) : w'.heap.object o = mid.object o := by rw [last]; rfl
  have entries (c : Ref .cls) (x : String × Cell) (own : x.2.modifiers.static = false) :
      x ∈ (w'.heap.cls c).fields.entries ↔ x ∈ (mid.cls c).fields.entries := by
    rw [last]
    exact setClassField_others found static c x own
  refine ⟨fun o d line x field own => ?_, fun c => ⟨?_, fun x field own => ?_⟩, fun o x field => ?_⟩
  · rw [object, lineage_of_superclass superclass] at line
    rw [object]
    exact makes.owns (stocked.owns o) d line x ((entries d x own).mp field) own
  · have distinct := (stocked.checked c).distinct
    rw [← cls_of_classes makes.classes] at distinct
    rw [held]
    split
    · exact NameMap.nodup_insert distinct _ _
    · exact distinct
  · have there := (entries c x own).mp field
    rw [cls_of_classes makes.classes] at there
    rw [scope, cls_of_classes makes.classes]
    exact (stocked.checked c).initial x there own
  · rw [object] at field
    refine stocked.kept sound leads makes ?_ (lineage_of_superclass superclass) ?_ (by rw [object]) field
    · intro c _ y there own
      refine (entries c y own).mpr ?_
      rwa [cls_of_classes makes.classes]
    · exact fun c _ y there own => (entries c y own).mpr there

theorem declared (objects : ∀ o, w'.heap.object o = w.heap.object o)
    (old : ∀ c : Ref .cls, c.index ≠ w.heap.classes.size → w'.heap.cls c = w.heap.cls c)
    (checked : (w'.heap.cls ⟨w.heap.classes.size⟩).Checked past) : w'.heap.Stocked past := by
  refine ⟨fun o d line x field own => ?_, fun c => ?_, fun o x field => ?_⟩
  · have inside := sound.cls_inside o
    rw [objects, lineage_stays sound.linked inside leads.grows] at line
    have before := lineageFrom_inside sound.linked _ inside line
    rw [old d (Nat.ne_of_lt before)] at field
    rw [objects]
    exact stocked.owns o d line x field own
  · by_cases new : c.index = w.heap.classes.size
    · obtain rfl : c = ⟨w.heap.classes.size⟩ := Ref.ext_index new
      exact checked
    · rw [old c new]
      exact stocked.checked c
  · rw [objects] at field
    refine World.holds_stays sound leads (fun c inside y there _ => ?_) (by rw [objects]) field
      (stocked.fields o x field)
    rwa [old c (Nat.ne_of_lt inside)]

theorem stretch (stretch : w.heap.Stretch past w'.heap) : w'.heap.Stocked past := by
  cases stretch with
  | made makes => exact stocked.made sound leads makes
  | written makes found wrote last =>
    obtain ⟨-, -, admits⟩ := Heap.writeCell_stored wrote
    exact stocked.written sound leads makes admits last
  | shared makes found static last =>
    exact stocked.shared sound leads makes found (makes.shared_static stocked.owns found static) last
  | declared objects old checked => exact stocked.declared sound leads objects old checked

end

end Heap.Stocked

/-! Whole runs. -/

/-- At each event of a linked history, and after it, classes and instances are in order. -/
theorem Linked.stocked {H : List Event} (linked : Linked Heap.Stretch past w.heap H) (trail : Trail view k w H w')
    (sound : w.Sound view) (stocked : w.heap.Stocked past) :
    (∀ before e after, H = before ++ e :: after → e.machine.heap.Stocked (past ++ before)) ∧
      (heapAfter w.heap H).Stocked (past ++ H) := by
  induction H generalizing past w with
  | nil =>
    rw [List.append_nil]
    exact ⟨fun before e after split => by simp at split, stocked⟩
  | cons first rest ih =>
    cases trail with
    | cons leads seen later =>
      have here := linked.1
      have onward := linked.2
      rw [← seen.heap] at here onward
      have reached := stocked.stretch sound leads here
      obtain ⟨each, last⟩ := ih onward later seen.sound (reached.mono [first])
      refine ⟨fun before e after split => ?_, ?_⟩
      · cases before with
        | nil =>
          cases split
          rw [List.append_nil, ← seen.heap]
          exact reached
        | cons e' before =>
          cases split
          simpa using each before e after rfl
      · rw [heapAfter, ← seen.heap]
        simpa using last

theorem initialHeap_stocked : initialHeap.Stocked [] := by
  have entries (c : Ref .cls) : (initialHeap.cls c).fields.entries = [] := by
    obtain ⟨index⟩ := c
    cases index with
    | zero => rfl
    | succ index =>
      have absent : initialHeap.cls ⟨index + 1⟩ = default := by
        simp [Heap.cls, initialHeap, Array.getD_eq_getD_getElem?]
      rw [absent]
      rfl
  refine ⟨fun o d _ x field => ?_, fun c => ⟨?_, fun x field => ?_⟩, fun o x field => ?_⟩
  · rw [entries] at field
    cases field
  · rw [NameMap.names, entries]
    exact List.nodup_nil
  · rw [entries] at field
    cases field
  · cases (field : x ∈ (default : Object).fields.entries)

theorem Reached.stocked {H : List Event} {m n : Machine} {earlier later : List Machine} (reached : Reached H m)
    (moment : moments H m = earlier ++ n :: later) :
    ∃ before w, earlier = before.map Event.machine ∧ Trail .lax .any .initial before w ∧ w.heap = n.heap ∧
      n.heap.Stocked before := by
  obtain ⟨echo, clock, run⟩ := id reached
  obtain ⟨w, trail, arrived⟩ := reached.trail
  obtain ⟨linked, last⟩ := run.linked (fun _ h => .made (.refl h)) activities_stretch
  obtain ⟨each, final⟩ := Linked.stocked linked trail (World.initial_sound _) initialHeap_stocked
  rcases List.append_eq_append_iff.mp moment with ⟨rest, rfl, single⟩ | ⟨rest, mapped, tail⟩
  · -- The last moment.
    cases rest with
    | nil =>
      cases single
      refine ⟨H, w, by simp, trail, arrived.heap, ?_⟩
      rw [← last]
      exact final
    | cons first rest => simp at single
  · cases rest with
    | nil =>
      cases tail
      refine ⟨H, w, by simpa using mapped.symm, trail, arrived.heap, ?_⟩
      rw [← last]
      exact final
    | cons first rest =>
      cases tail
      obtain ⟨before, others, rfl, rfl, cut⟩ := List.map_eq_append_iff.mp mapped
      obtain ⟨e, after, rfl, rfl, -⟩ := List.map_eq_cons_iff.mp cut
      obtain ⟨v, front, seen, -⟩ := trail.split
      exact ⟨before, v, rfl, front, seen.heap, each before e after rfl⟩

/-- A field still has the initial value from its class. The value conforms to what the declared type of the field
meant when the value was computed, and the type is a name that now means another type. -/
def Heap.Retyped (h : Heap) (earlier : List Machine) (o : Ref .object) (name : String) (value : Value) (t : TypeDesc) :
    Prop :=
  ∃ d ∈ h.lineage (h.object o).cls, ∃ init t₀, (name, init) ∈ (h.cls d).fields.entries ∧
    init.modifiers.static = false ∧ init.content = .plain value ∧ init.declared = some t₀ ∧ t₀.isName = true ∧
      ∃ n ∈ earlier, n.heap.resolveType t₀ (h.cls d).scope ≠ t ∧
        h.conforms value (n.heap.resolveType t₀ (h.cls d).scope) = true

/-- At every moment, a field of an instance that has a declared type holds nil or a value that conforms to the
type, unless it has its initial value still and its type has come to mean another one. -/
theorem instance_fields_conform {H : List Event} {m n : Machine} {earlier later : List Machine}
    (reached : Reached H m) (moment : moments H m = earlier ++ n :: later) :
    ∀ o name cell value t, (name, cell) ∈ (n.heap.object o).fields.entries → cell.content = .plain value →
      cell.declared = some t →
        value = .nil ∨ n.heap.conforms value t = true ∨ n.heap.Retyped earlier o name value t := by
  obtain ⟨before, w, rfl, trail, heap, stocked⟩ := reached.stocked moment
  intro o name cell value t field plain typed
  rcases stocked.fields o _ field value plain t typed with none | conforms | ⟨d, line, init, entry, own, stems⟩
  · exact .inl none
  · exact .inr (.inl conforms)
  obtain ⟨held, origin⟩ := stems value plain
  obtain ⟨t₀, annotated, plainly⟩ := origin t typed
  rcases (stocked.checked d).initial _ entry own value held t₀ annotated with none | ⟨e, m₀, n₀, ended, conformed⟩
  · exact .inl none
  · obtain ⟨v, seen, -, leads⟩ := trail.seen ended
    have known : v.Known .lax value := seen.good value n₀ rfl
    have conforms : n.heap.conforms value (n₀.heap.resolveType t₀ (n.heap.cls d).scope) = true := by
      have then' : v.heap = n₀.heap := seen.heap
      rw [← heap, World.conforms_stays seen.sound leads known, then', heap]
      exact conformed
    by_cases same : n₀.heap.resolveType t₀ (n.heap.cls d).scope = t
    · rw [same] at conforms
      exact .inr (.inl conforms)
    · refine .inr (.inr ⟨d, line, init, t₀, entry, own, held, annotated, ?_, n₀, List.mem_map_of_mem ended, same,
        conforms⟩)
      -- A type that is no name always means itself.
      cases named : t₀.isName with
      | true => rfl
      | false =>
        rw [Heap.resolveType_of_not_name named] at same
        exact absurd (plainly named).symm same

/-- An instance with a field that has been written, and with one that has its initial value and the type of a
template. -/
def boxSource : String :=
  "class Box :<T> \x7b bool b = true; obj T v = \"s\"; \x7d var x = Box:<bool>(); x.b = false;"

def Cell.isTyped (t : TypeDesc) (value : Value) (cell : Cell) : Bool :=
  cell.declared = some t && match cell.content with
    | .plain held => held.same value
    | .computed _ => false

theorem Cell.isTyped_cases {t : TypeDesc} {value : Value} {cell : Cell} (typed : cell.isTyped t value = true) :
    cell.declared = some t ∧ ∃ held, cell.content = .plain held ∧ held.same value = true := by
  unfold isTyped at typed
  obtain ⟨declared, holds⟩ := Bool.and_eq_true_iff.mp typed
  split at holds
  · rename_i held plain
    exact ⟨of_decide_eq_true declared, held, plain, holds⟩
  · cases holds

set_option maxRecDepth 100000 in
theorem box_run :
    ∃ H m, Reached H m ∧ ((m.heap.object ⟨0⟩).fields.find? "b").any (Cell.isTyped .boolean (.bool false)) = true ∧
      ((m.heap.object ⟨0⟩).fields.find? "v").any (Cell.isTyped .boolean (.str "s")) = true ∧
        m.heap.conforms (.str "s") .boolean = false :=
  ⟨_, _, Reached.text 20 boxSource, by decide +kernel⟩

theorem instance_fields_conform_box :
    ∃ H m earlier, Reached H m ∧ moments H m = earlier ++ [m] ∧
      (∃ cell value, ("b", cell) ∈ (m.heap.object ⟨0⟩).fields.entries ∧ cell.content = .plain value ∧
        cell.declared = some .boolean ∧ (value = .nil ∨ m.heap.conforms value .boolean = true ∨
          m.heap.Retyped earlier ⟨0⟩ "b" value .boolean)) ∧
      ∃ cell, ("v", cell) ∈ (m.heap.object ⟨0⟩).fields.entries ∧ cell.content = .plain (.str "s") ∧
        cell.declared = some .boolean ∧ m.heap.Retyped earlier ⟨0⟩ "v" (.str "s") .boolean := by
  obtain ⟨H, m, reached, written, initial, nonconforming⟩ := box_run
  have all := instance_fields_conform reached (show moments H m = H.map Event.machine ++ [m] from rfl) ⟨0⟩
  refine ⟨H, m, _, reached, rfl, ?_, ?_⟩
  · obtain ⟨cell, found, typed⟩ := Option.any_eq_true .. |>.mp written
    have field := NameMap.mem_of_find? found
    obtain ⟨declared, value, plain, -⟩ := Cell.isTyped_cases typed
    exact ⟨cell, value, field, plain, declared, all "b" cell value _ field plain declared⟩
  · obtain ⟨cell, found, typed⟩ := Option.any_eq_true .. |>.mp initial
    have field := NameMap.mem_of_find? found
    obtain ⟨declared, value, plain, same⟩ := Cell.isTyped_cases typed
    obtain rfl : value = .str "s" := by cases value <;> simp_all [Value.same]
    rcases all "v" cell _ _ field plain declared with none | conforms | retyped
    · cases none
    · rw [nonconforming] at conforms
      cases conforms
    · exact ⟨cell, field, plain, declared, retyped⟩

end Treewalk
