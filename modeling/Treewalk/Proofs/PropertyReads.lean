import Treewalk.Proofs.CellReads
import Treewalk.Proofs.Chains
import Treewalk.Proofs.CompoundAssignment
import Treewalk.Proofs.Signatures

/-!
Reads of properties. Whichever way a property is read, its getter is called and what the getter returns is checked
against the declared type. The heap on which this is checked is the one on which the reader goes on, and the property
has kept its type and its modifiers by then, whatever the getter has done. So a value that has been read conforms, and
a write of it gets to the setter unless the range of the modifiers forbids it: the getter is not held to that range.
-/

namespace Treewalk

variable {act : (a : Activity) → Machine → Outcome a.Result} {fuel : Nat} {line : Line} {m n after : Machine}
  {p : Ref .property} {property : Property} {value : Value}

/-! Properties stay. -/

namespace Heap

/-- A property is in a heap, as it is given but for what is cached. -/
def HasProperty (h : Heap) (p : Ref .property) (property : Property) : Prop :=
  p.index < h.properties.size ∧ ∃ cached, h.property p = { property with cache := cached }

def KeepsProperty (p : Ref .property) (property : Property) (h h' : Heap) : Prop :=
  h.HasProperty p property → h'.HasProperty p property

variable {h h' : Heap}

theorem hasProperty_self (inside : p.index < h.properties.size) : h.HasProperty p (h.property p) :=
  ⟨inside, _, rfl⟩

namespace HasProperty

theorem same (has : h.HasProperty p property) (properties : h'.properties = h.properties) :
    h'.HasProperty p property := by
  unfold HasProperty Heap.property at has ⊢
  rwa [properties]

theorem addProperty (has : h.HasProperty p property) (new : Property) :
    (h.addProperty new).2.HasProperty p property := by
  obtain ⟨inside, cached, found⟩ := has
  refine ⟨by simp [Heap.addProperty]; omega, cached, ?_⟩
  rw [property_addProperty, if_neg (Nat.ne_of_lt inside), found]

theorem setCache (has : h.HasProperty p property) (q : Ref .property) (value : Value) :
    (h.setCache q value).HasProperty p property := by
  obtain ⟨inside, cached, found⟩ := has
  refine ⟨by simpa [Heap.setCache] using inside, ?_⟩
  rw [property_setCache, found]
  split
  · exact ⟨value, rfl⟩
  · exact ⟨cached, rfl⟩

end HasProperty

end Heap

open Heap (KeepsProperty)

theorem keepsProperty_compositional (p : Ref .property) (property : Property) :
    Compositional (Run.Keeps (fun _ => KeepsProperty p property) (KeepsProperty p property)) where
  pure _ _ _ _ begun := begun
  bind first next past h m begun :=
    (first past h m begun).bind (fun more h' a m' reached => next a _ h' m' reached) fun _ _ _ _ reached => reached
  stop _ _ _ _ begun := begun
  get _ _ _ begun := begun
  quiet quiet past h m begun := by
    obtain ⟨a, m', done, heap, -⟩ := quiet m
    rw [done]
    exact fun has => (begun has).same (by rw [Outcome.machine, heap])
  ask _ _ _ _ begun := ⟨begun, fun _ _ _ has => has⟩
  addScope _ _ _ _ begun has := (begun has).same rfl
  addFunction _ _ _ _ begun has := (begun has).same rfl
  addArray _ _ _ _ begun has := (begun has).same rfl
  addProperty new _ _ _ begun has := (begun has).addProperty new
  addInterface _ _ _ _ begun has := (begun has).same rfl
  addEnumeration _ _ _ _ begun has := (begun has).same rfl
  setElement _ _ _ _ _ _ begun has := (begun has).same rfl
  setCache q value _ _ _ begun has := (begun has).setCache q value

theorem keepsProperty_pervasive (p : Ref .property) (property : Property) :
    Pervasive (Run.Keeps (fun _ => KeepsProperty p property) (KeepsProperty p property)) where
  toCompositional := keepsProperty_compositional p property
  exec _ _ _ _ begun := ⟨begun, fun _ _ _ has => has⟩
  define _ _ _ _ _ _ begun has := (begun has).same rfl
  addObject _ _ _ _ begun has := (begun has).same rfl
  setFields _ _ _ _ _ begun has := (begun has).same rfl
  setField _ _ _ _ _ _ begun has := (begun has).same rfl
  setClassField _ _ _ _ _ _ begun has := (begun has).same rfl
  inScope := .inScope
  catching := .catching
  declareClass := by
    have comp := keepsProperty_compositional p property
    apply comp.declareClass
    · exact fun _ _ _ _ _ _ begun has => (begun has).same rfl
    · exact fun r _ => .inScope r
    · intro cls _
      apply comp.addClass
      · exact fun _ _ _ begun has => (begun has).same rfl
      · exact fun _ _ _ _ _ begun has => (begun has).same rfl

/-- By induction on the fuel, through the stretches of the run: an activity caches values for a property at most. -/
theorem perform_hasProperty (has : m.heap.HasProperty p property) (fuel : Nat) (a : Activity) :
    (perform fuel a m).machine.heap.HasProperty p property := by
  have goes : Activity.Goes fun _ => KeepsProperty p property := fun a fuel m past =>
    (keepsProperty_pervasive p property).plan a fuel past m.heap m fun has => has
  have linked := history_linked (fun _ _ has => has) goes fuel [] m.heap a m fun has => has
  have kept := (linked.invariant (P := fun h => h.HasProperty p property) has).2
  rwa [heapAfter_history] at kept

/-! Ways to read a property. -/

namespace Evaluator

/-- A property that is read has been got, and what was got has been checked. -/
theorem readProperty_ok (done : (readProperty p line m).outcome act = .ok value after) :
    act (.call (m.heap.function (m.heap.property p).getter) [(m.heap.property p).cache] [] line) m = .ok value after ∧
      after.heap.checkType (m.heap.property p).declared (m.heap.property p).name value = .ok () := by
  obtain ⟨got, n, called, checking⟩ := Run.outcome_bind_ok (c := Run.call
    (m.heap.function (m.heap.property p).getter) [(m.heap.property p).cache] [] line) done
  change ((Run.orRaise line (n.heap.checkType (m.heap.property p).declared (m.heap.property p).name got) >>=
    fun _ => pure got) n).outcome act = _ at checking
  cases checked : n.heap.checkType (m.heap.property p).declared (m.heap.property p).name got with
  | ok _ =>
    rw [checked] at checking
    cases checking
    exact ⟨called, checked⟩
  | error fault =>
    rw [checked] at checking
    cases checking

end Evaluator

open Evaluator

/-- The ways in which code and the host read a property: through a cell, as a variable, as a field of an instance, as
what an instance shares with its class, and as a field of a class. -/
inductive Machine.ReadsProperty (m : Machine) (p : Ref .property) : Run Value → Prop where
  | cell {cell : Cell} (computed : cell.content = .computed p) (line : Line) : ReadsProperty m p (readCell cell line)
  | name {ref : Reference} {cell : Cell} (found : variableCell ref m = .ok cell)
      (computed : cell.content = .computed p) : ReadsProperty m p (readVariable ref)
  | field {o : Ref .object} {name : Name} {cell : Cell} (found : (m.heap.object o).fields.find? name.text = some cell)
      (computed : cell.content = .computed p) : ReadsProperty m p (getMember (.object o) name false)
  | shared {o : Ref .object} {name : Name} {cell : Cell} (own : (m.heap.object o).fields.find? name.text = none)
      (found : m.heap.findField? (m.heap.object o).cls name.text = some cell)
      (computed : cell.content = .computed p) : ReadsProperty m p (getMember (.object o) name false)
  | member {c : Ref .cls} {name : Name} {cell : Cell} (found : m.heap.findField? c name.text = some cell)
      (computed : cell.content = .computed p) (qualified : Bool) : ReadsProperty m p (getMember (.cls c) name qualified)

theorem Run.Quiet.heap_of_ok {c : Run α} (quiet : c.Quiet) {a : α} (done : (c m).outcome act = .ok a n) :
    n.heap = m.heap := by
  obtain ⟨a', m', ended, heap, -⟩ := quiet m
  rw [ended] at done
  cases done
  exact heap

theorem Evaluator.throughClass_heap {c : Ref .cls} {name : Name} {static qualified : Bool}
    (done : (throughClass c name static qualified m).outcome act = .ok () n) : n.heap = m.heap := by
  unfold throughClass at done
  rw [Run.reading_bind] at done
  split at done
  · cases done
    rfl
  · split at done
    · cases done
    · exact (Run.warn_quiet _ _).heap_of_ok done

/-- In all these ways the property is read on the heap as it is, after a warning at most. -/
theorem Machine.ReadsProperty.readProperty {read : Run Value} (way : m.ReadsProperty p read)
    (done : (read m).outcome act = .ok value after) :
    ∃ n line, n.heap = m.heap ∧ (Evaluator.readProperty p line n).outcome act = .ok value after := by
  suffices ∃ n line cell, n.heap = m.heap ∧ cell.content = .computed p ∧
      (readCell cell line n).outcome act = .ok value after by
    obtain ⟨n, line, cell, same, computed, read⟩ := this
    exact ⟨n, line, same, readCell_computed computed line ▸ read⟩
  cases way with
  | @cell cell computed line => exact ⟨m, line, cell, rfl, computed, done⟩
  | @name ref cell found computed =>
    rw [readVariable_found found] at done
    exact ⟨m, ref.name.line, cell, rfl, computed, done⟩
  | @field o name cell found computed =>
    rw [getMember_own found] at done
    exact ⟨m, name.line, cell, rfl, computed, done⟩
  | @shared o name cell own found computed =>
    rw [getMember_shared own found] at done
    obtain ⟨_, n, warned, read⟩ := Run.outcome_bind_ok done
    exact ⟨n, name.line, cell, (Run.warn_quiet _ _).heap_of_ok warned, computed, read⟩
  | @member c name cell found computed qualified =>
    rw [getMember_class found] at done
    obtain ⟨_, n, passed, read⟩ := Run.outcome_bind_ok done
    exact ⟨n, name.line, cell, throughClass_heap passed, computed, read⟩

/-! What a write checks. -/

/-- A value passes what a write to a property checks: its type, and the range of its modifiers. -/
def Heap.Accepts (h : Heap) (p : Ref .property) (value : Value) : Prop :=
  h.checkType (h.property p).declared (h.property p).name value = .ok () ∧
    Heap.checkRange (h.property p).modifiers (h.property p).name value = .ok ()

theorem Evaluator.writeProperty_asks {setter : Ref .function} (writable : setter ∈ (m.heap.property p).setter) :
    (∃ next, writeProperty p value line m = .ask (.call (m.heap.function setter) [value] [] line) m next) ↔
      m.heap.Accepts p value := by
  have written : writeProperty p value line m =
      (Run.orRaise line (m.heap.checkType (m.heap.property p).declared (m.heap.property p).name value) >>= fun _ =>
        Run.orRaise line (Heap.checkRange (m.heap.property p).modifiers (m.heap.property p).name value) >>= fun _ =>
          Run.reading (·.function setter) >>= fun f => Run.call f [value] [] line >>= fun result =>
            Run.update (·.setCache p (if result.isNil then value else result))) m := by
    unfold writeProperty
    rw [Run.reading_bind, Option.mem_def.mp writable]
    rfl
  rw [written, Heap.Accepts]
  cases typed : m.heap.checkType (m.heap.property p).declared (m.heap.property p).name value with
  | error fault =>
    refine ⟨?_, fun accepted => nomatch accepted.1⟩
    rintro ⟨next, asked⟩
    cases asked
  | ok _ =>
    cases ranged : Heap.checkRange (m.heap.property p).modifiers (m.heap.property p).name value with
    | error fault =>
      refine ⟨?_, fun accepted => nomatch accepted.2⟩
      rintro ⟨next, asked⟩
      cases asked
    | ok _ => exact ⟨fun _ => ⟨rfl, rfl⟩, fun _ => ⟨_, rfl⟩⟩

/-- A value that has been read from a property, in whichever way, conforms to the declared type of the property. The
checks that a write of it would make pass exactly if the modifiers of the property admit it, so that with a setter and
without a range it can be written back: the setter is called with it. All of this is about the machine on which the
read ends, and there the property has the name, the accessors, the type and the modifiers that it had before, whatever
its getter has done. -/
theorem property_reads_checked (inside : p.index < m.heap.properties.size) {read : Run Value}
    (way : m.ReadsProperty p read) (done : (read m).outcome (perform fuel) = .ok value after) :
    after.heap.HasProperty p (m.heap.property p) ∧
      (∀ t ∈ (after.heap.property p).declared, after.heap.conforms value t = true) ∧
      (after.heap.Accepts p value ↔ (after.heap.property p).modifiers.Admits value) ∧
      ∀ setter ∈ (after.heap.property p).setter, ∀ line,
        (∃ next, writeProperty p value line after =
          .ask (.call (after.heap.function setter) [value] [] line) after next) ↔
            (after.heap.property p).modifiers.Admits value := by
  obtain ⟨n, line, same, got⟩ := way.readProperty done
  obtain ⟨called, checked⟩ := readProperty_ok got
  have has : after.heap.HasProperty p (m.heap.property p) := by
    rw [← same] at inside ⊢
    have kept := perform_hasProperty (n.heap.hasProperty_self inside) fuel
      (.call (n.heap.function (n.heap.property p).getter) [(n.heap.property p).cache] [] line)
    rwa [called] at kept
  obtain ⟨cached, kept⟩ := has.2
  have typed : after.heap.checkType (after.heap.property p).declared (after.heap.property p).name value = .ok () := by
    rwa [kept, ← same]
  have accepts : after.heap.Accepts p value ↔ (after.heap.property p).modifiers.Admits value :=
    ⟨fun accepted => Heap.admits_of_checkRange accepted.2, fun admits => ⟨typed, (Heap.checkRange_ok _).mpr admits⟩⟩
  refine ⟨has, Heap.conforms_of_checkType typed, accepts, fun setter writable line => ?_⟩
  exact (writeProperty_asks writable).trans accepts

/-- A property without numbers, for all that it is unsigned. -/
def gaugeSource : String :=
  "unsigned any gauge \x7b get \x7b println(\"read\"); return \"full\"; \x7d set \x7b return value; \x7d \x7d"

def gaugeUse : Reference :=
  { name := ⟨"gauge", 1⟩ }

def Machine.property? (m : Machine) (ref : Reference) : Option (Ref .property) :=
  match variableCell ref m with
  | .ok ⟨.computed p, _, _⟩ => some p
  | _ => none

theorem Machine.readsProperty_of_property? {ref : Reference} (found : m.property? ref = some p) :
    m.ReadsProperty p (readVariable ref) := by
  unfold property? at found
  split at found
  · rename_i cell
    cases found
    exact .name cell rfl
  · cases found

set_option maxRecDepth 100000 in
/-- The getter prints and returns a text, which is no number, and can be written back. -/
theorem property_reads_checked_gauge :
    ∃ m n p, p.index < m.heap.properties.size ∧ m.ReadsProperty p (readVariable gaugeUse) ∧
      (readVariable gaugeUse m).outcome (perform 20) = .ok (.str "full") n ∧ n.out = "read\n" ∧
      (n.heap.property p).modifiers.unsigned = true ∧ n.heap.Accepts p (.str "full") := by
  have evaluated : ((Session.start {}).run 20 gaugeSource).machine.property? gaugeUse = some ⟨0⟩ ∧
      0 < ((Session.start {}).run 20 gaugeSource).machine.heap.properties.size ∧
      (((Session.start {}).run 20 gaugeSource).machine.heap.property ⟨0⟩).modifiers.unsigned = true ∧
      ((readVariable gaugeUse ((Session.start {}).run 20 gaugeSource).machine).outcome (perform 20)).said? =
        some ("full", "read\n") := by decide +kernel
  generalize ((Session.start {}).run 20 gaugeSource).machine = m at evaluated
  obtain ⟨found, inside, unsigned, said⟩ := evaluated
  obtain ⟨n, done, out⟩ := Outcome.said?_cases said
  have way := Machine.readsProperty_of_property? found
  obtain ⟨⟨-, cached, kept⟩, -, accepts, -⟩ := property_reads_checked (p := ⟨0⟩) inside way done
  have admits : (n.heap.property ⟨0⟩).modifiers.Admits (.str "full") := fun _ => nofun
  exact ⟨m, n, ⟨0⟩, inside, way, done, out, by rw [kept]; exact unsigned, accepts.mpr admits⟩

end Treewalk
