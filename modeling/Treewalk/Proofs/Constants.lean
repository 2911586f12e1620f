import Treewalk.Proofs.Trail

/-!
Constants. A constant cell outside the global scope stays as it is for the rest of the run, and one in the
global scope until another declaration of its name is run there. Whatever would write to a constant cell
fails, and has changed nothing by then.
-/

namespace Treewalk

open Scoping Plan

inductive Slot where
  | scope (r : Ref .scope) (name : String)
  | object (o : Ref .object) (name : String)
  | cls (c : Ref .cls) (name : String)

namespace Heap

def cellAt? (h : Heap) : Slot → Option Cell
  | .scope r name => h.here? r name
  | .object o name => (h.object o).fields.find? name
  | .cls c name => (h.cls c).fields.find? name

/-- A constant cell is the same later, and so is what is cached if it is computed. -/
def Keeps (h later : Heap) (slot : Slot) : Prop :=
  ∀ cell, h.cellAt? slot = some cell → cell.modifiers.const = true → later.cellAt? slot = some cell ∧
    ∀ p, cell.content = .computed p → (later.property p).cache = (h.property p).cache

theorem Keeps.refl (h : Heap) (slot : Slot) : h.Keeps h slot :=
  fun _ found _ => ⟨found, fun _ _ => rfl⟩

theorem Keeps.trans {first second third : Heap} {slot : Slot} (keeps : first.Keeps second slot)
    (later : second.Keeps third slot) : first.Keeps third slot := by
  intro cell found constant
  obtain ⟨there, cache⟩ := keeps cell found constant
  obtain ⟨still, cacheLater⟩ := later cell there constant
  exact ⟨still, fun p computed => (cacheLater p computed).trans (cache p computed)⟩

end Heap

namespace World

variable {view : View} {k : Permit} {w w' : World} {slot : Slot}

theorem Sound.property (sound : w.Sound view) {cell : Cell} (found : w.heap.cellAt? slot = some cell)
    {p : Ref .property} (computed : cell.content = .computed p) :
    p.index < w.heap.properties.size ∧ (w.heap.property p).modifiers = cell.modifiers := by
  have known : ∃ ready, w.CellKnown view ready cell := by
    cases slot with
    | scope r name => exact ⟨_, (sound.cells r name cell found).1⟩
    | object o name =>
      have member := NameMap.mem_of_find? found
      exact ⟨_, (sound.objects o (Heap.lt_of_field member)).fields _ member⟩
    | cls c name =>
      have member := NameMap.mem_of_find? found
      have field := (sound.classes c (Heap.lt_of_classField member)).fields _ member
      unfold FieldKnown at field
      split at field
      · exact ⟨_, field.1⟩
      · exact ⟨_, field⟩
  obtain ⟨ready, known⟩ := known
  unfold CellKnown at known
  rw [computed] at known
  exact ⟨known.1, known.2.1⟩

/-- Constants are kept, but for a global that may be declared. -/
theorem Leads.keeps (leads : w.Leads k w') (sound : w.Sound view)
    (shut : ∀ name, slot = .scope .globals name → ¬k.Allows .globals name) :
    w.heap.Keeps w'.heap slot := by
  intro cell found constant
  refine ⟨?_, fun p computed => ?_⟩
  · cases slot with
    | scope r name =>
      refine leads.grows.constant r name cell found constant ?_
      rintro ⟨rfl, allows⟩
      exact shut name rfl allows
    | object o name =>
      have inside := Heap.lt_of_field (NameMap.mem_of_find? found)
      exact (leads.grows.objects o inside).2.fields name cell found constant
    | cls c name =>
      have inside := Heap.lt_of_classField (NameMap.mem_of_find? found)
      exact (leads.grows.classes c inside).2.fields name cell found constant
  · obtain ⟨inside, same⟩ := sound.property found computed
    exact (leads.grows.properties p inside).2.cache (by rw [same, constant])

end World

section

variable {k : Permit} {w w' : World} {m m' m'' : Machine} {H H' : List Event} {slot : Slot}

theorem Trail.keeps (trail : Trail .lax k w H w') (start : Arrived .lax w m) (arrived : Arrived .lax w' m')
    (shut : ∀ name, slot = .scope .globals name → ¬k.Allows .globals name) :
    ∀ n ∈ moments H m', m.heap.Keeps n.heap slot := by
  intro n member
  rw [← start.heap]
  rcases List.mem_append.mp member with earlier | last
  · obtain ⟨e, found, rfl⟩ := List.mem_map.mp earlier
    obtain ⟨v, seen, leads, -⟩ := trail.seen found
    rw [← seen.heap]
    exact leads.keeps start.sound shut
  · obtain rfl := List.mem_singleton.mp last
    rw [← arrived.heap]
    exact trail.leads.keeps start.sound shut

theorem Heap.Keeps.append (before : ∀ n ∈ moments H m', m.heap.Keeps n.heap slot)
    (after : ∀ n ∈ moments H' m'', m'.heap.Keeps n.heap slot) :
    ∀ n ∈ moments (H ++ H') m'', m.heap.Keeps n.heap slot := by
  intro n member
  rw [moments, List.map_append, List.append_assoc] at member
  rcases List.mem_append.mp member with earlier | later
  · exact before n (List.mem_append_left _ earlier)
  · exact (before m' (last_mem_moments H m')).trans (after n later)

theorem Permit.shut {name : String} (since : 0 < k.since) (target : k.target ≠ some (.globals, name)) :
    ¬k.Allows .globals name := by
  rintro (early | declared)
  · exact absurd early (Nat.not_le_of_lt since)
  · exact target declared

/-- A global constant stays along a run of statements that do not declare it. -/
theorem Runs.keeps {name : String} (run : Runs (fun s => s.declares?.map Name.text ≠ some name) m H m')
    (start : Arrived .lax w m) : (∃ w', Arrived .lax w' m') ∧
      ∀ n ∈ moments H m', m.heap.Keeps n.heap (.scope .globals name) := by
  have scopes {w : World} {m : Machine} (arrived : Arrived .lax w m) : 0 < m.heap.scopes.size :=
    arrived.heap ▸ arrived.sound.globals
  induction run with
  | refl =>
    refine ⟨⟨w, start⟩, fun n member => ?_⟩
    obtain rfl := List.mem_singleton.mp member
    exact .refl _ _
  | stmt before accepted may fuel ih =>
    obtain ⟨⟨w₁, there⟩, kept⟩ := ih
    obtain ⟨w₂, trail, last⟩ := there.perform (there.ready accepted trivial) fuel fun impossible => impossible.elim
    refine ⟨⟨w₂, last⟩, .append kept (trail.keeps there last ?_)⟩
    rintro _ ⟨⟩
    refine Permit.shut (scopes there) fun declared => ?_
    obtain ⟨text, found, same⟩ := Option.map_eq_some_iff.mp declared
    obtain rfl : text = name := (Prod.mk.inj same).2
    exact may found
  | value before accepted may fuel ih =>
    obtain ⟨⟨w₁, there⟩, kept⟩ := ih
    obtain ⟨w₂, trail, last⟩ := there.perform (there.readyExpr accepted trivial) fuel fun impossible => impossible.elim
    refine ⟨⟨w₂, last⟩, .append kept (trail.keeps there last ?_)⟩
    exact fun _ _ => Permit.shut (scopes there) fun declared => by cases declared
  | global before other fuel ih =>
    obtain ⟨⟨w₁, there⟩, kept⟩ := ih
    obtain ⟨w₂, trail, last⟩ := there.global other fuel fun impossible => impossible.elim
    refine ⟨⟨w₂, last⟩, .append kept (trail.keeps there last ?_)⟩
    exact fun _ _ => Permit.shut (scopes there) fun declared => by cases declared
  | host before heap scope ih =>
    obtain ⟨⟨w₁, there⟩, kept⟩ := ih
    refine ⟨⟨w₁, there.sound, there.heap.trans heap.symm, scope.trans there.scope⟩, fun n member => ?_⟩
    rcases List.mem_append.mp member with earlier | last
    · exact kept n (List.mem_append_left _ earlier)
    · obtain rfl := List.mem_singleton.mp last
      rw [heap]
      exact kept _ (last_mem_moments _ _)

end

/-- A write fails because it is to a constant, and the machine has the same heap and scope as before. -/
def Outcome.Refuses (outcome : Outcome α) (before : Machine) : Prop :=
  ∃ e after, outcome = .error (.fault e) after ∧ e.fault.kind = .constantViolation ∧
    after.heap = before.heap ∧ after.scope = before.scope

theorem Outcome.Refuses.of_same {outcome : Outcome α} {n n' : Machine} (refused : outcome.Refuses n')
    (heap : n'.heap = n.heap) (scope : n'.scope = n.scope) : outcome.Refuses n := by
  obtain ⟨e, after, failed, kind, sameHeap, sameScope⟩ := refused
  exact ⟨e, after, failed, kind, sameHeap.trans heap, sameScope.trans scope⟩

namespace Heap

/-- The cell that a member set is to write. Through the scope operator nothing of an instance is reached,
and through a class only what is static. -/
def memberCell? (h : Heap) (target : Value) (name : String) (qualified : Bool) : Option Cell :=
  match target with
  | .object o =>
    if qualified then none
    else ((h.object o).fields.find? name).or (h.findField? (h.object o).cls name)
  | .cls c => (h.findField? c name).filter (·.modifiers.static)
  | _ => none

theorem writeCell_const {h : Heap} {cell : Cell} (constant : cell.modifiers.const = true) (name : String)
    (value : Value) : h.writeCell cell name value = .error (.constantAssigned name) := by
  unfold writeCell
  rw [if_pos constant]

theorem fieldOwner?_of_findField? {h : Heap} {c : Ref .cls} {name : String} {cell : Cell}
    (found : h.findField? c name = some cell) :
    ∃ owner, h.fieldOwner? c name = some owner ∧ (h.cls owner).fields.find? name = some cell := by
  unfold findField? at found
  unfold fieldOwner?
  generalize h.lineage c = line at found
  induction line with
  | nil => cases found
  | cons first rest ih =>
    rw [List.findSome?_cons] at found
    rw [List.find?_cons]
    cases own : (h.cls first).fields.find? name with
    | some held =>
      simp only [own, Option.some.injEq] at found
      subst found
      exact ⟨first, by simp [NameMap.contains, own], own⟩
    | none =>
      simp only [own] at found
      obtain ⟨owner, above, there⟩ := ih found
      have absent : (h.cls first).fields.contains name = false := by rw [NameMap.contains, own, Option.isSome_none]
      exact ⟨owner, by simp only [absent, above], there⟩

end Heap

namespace Evaluator

variable {perform : (a : Activity) → Machine → Outcome a.Result} {n : Machine} {cell : Cell}

theorem refuses_bind {c : Run α} {before : Machine} (f : α → Run β)
    (refused : ((c n).outcome perform).Refuses before) :
    (((c >>= f) n).outcome perform).Refuses before := by
  obtain ⟨e, after, failed, kind, heap, scope⟩ := refused
  refine ⟨e, after, ?_, kind, heap, scope⟩
  change ((c n).andThen _).outcome perform = _
  rw [outcome_andThen, failed]
  rfl

theorem outcome_bind {c : Run α} {a : α} {n' : Machine} (f : α → Run β)
    (done : (c n).outcome perform = .ok a n') :
    ((c >>= f) n).outcome perform = (f a n').outcome perform := by
  change ((c n).andThen _).outcome perform = _
  rw [outcome_andThen, done]

theorem refuses_constant {name : String} (line : Line) :
    (((Run.raise line (.constantAssigned name) : Run α) n).outcome perform).Refuses n :=
  ⟨_, n, rfl, rfl, rfl, rfl⟩

theorem variableWrite_eq {ref : Reference} (found : variableCell ref n = .ok cell) (value : Value) :
    ∃ r, n.heap.here? r ref.name.text = some cell ∧
      variableWrite ref value n = n.heap.assignHere r ref.name.text value := by
  unfold variableCell at found
  unfold variableWrite
  split at found
  · obtain ⟨r, ancestor, there⟩ := Heap.lookupAt_here found
    exact ⟨r, there, by simp only [Heap.assignAt, ancestor]⟩
  · obtain ⟨r, binder, there⟩ := Heap.lookup_here found
    exact ⟨r, there, by simp only [Heap.assign, binder]⟩

/-- In a sound world no constant can be written by an assignment in its scope. -/
theorem assignHere_const {view : View} {w : World} (sound : w.Sound view) {r : Ref .scope} {name : String}
    (found : w.heap.here? r name = some cell) (constant : cell.modifiers.const = true) (value : Value) :
    w.heap.assignHere r name value = .error (.constantAssigned name) := by
  have inside : r.index < w.heap.scopes.size := Heap.lt_of_here? (by rw [found]; rfl)
  -- A static binding of the global scope would be refused for another reason.
  have allowed : (w.heap.isGlobal r && cell.modifiers.static) = false := by
    by_cases global : r.index = 0
    · obtain rfl : r = .globals := Ref.ext_index global
      rw [sound.dynamic name cell found, Bool.and_false]
    · have around := sound.inner r (Nat.pos_of_ne_zero global) inside
      simp [Heap.isGlobal, Option.isSome_iff_ne_none.mp around]
  unfold Heap.assignHere
  rw [found]
  simp only [allowed, Heap.writeCell_const constant, Bool.false_eq_true, if_false]

theorem writeVariable_refuses {view : View} {w : World} (sound : w.Sound view) (heap : w.heap = n.heap)
    {ref : Reference} (found : variableCell ref n = .ok cell) (constant : cell.modifiers.const = true)
    (value : Value) : ((writeVariable ref value n).outcome perform).Refuses n := by
  obtain ⟨r, there, same⟩ := variableWrite_eq found value
  rw [← heap] at there same
  rw [assignHere_const sound there constant] at same
  have refused : writeVariable ref value n = Run.raise ref.name.line (.constantAssigned ref.name.text) n := by
    change ((Run.orRaise ref.name.line (variableWrite ref value n) >>= _) n) = _
    rw [same]
    rfl
  rw [refused]
  exact refuses_constant _

theorem setOfClass_refuses (owner : Ref .cls) (name : Name) (constant : cell.modifiers.const = true)
    (value : Value) : ((setOfClass owner cell name value n).outcome perform).Refuses n := by
  have refused : setOfClass owner cell name value n = Run.raise name.line (.constantAssigned name.text) n := by
    change ((Run.orRaise name.line (n.heap.writeCell cell name.text value) >>= _) n) = _
    rw [Heap.writeCell_const constant]
    rfl
  rw [refused]
  exact refuses_constant _

theorem ownedField_eq {c : Ref .cls} {name : Name} (found : n.heap.findField? c name.text = some cell) :
    ∃ owner, ownedField c name n = .done (.ok (owner, cell) n) := by
  obtain ⟨owner, nearest, there⟩ := Heap.fieldOwner?_of_findField? found
  refine ⟨owner, ?_⟩
  unfold ownedField
  rw [Run.heap_bind]
  simp only [nearest, there]
  rfl

theorem setOfObject_refuses {o : Ref .object} {name : Name}
    (found : ((n.heap.object o).fields.find? name.text).or
      (n.heap.findField? (n.heap.object o).cls name.text) = some cell)
    (constant : cell.modifiers.const = true) (value : Value) :
    ((setOfObject o name value n).outcome perform).Refuses n := by
  cases own : (n.heap.object o).fields.find? name.text with
  | some held =>
    simp only [own, Option.some_or, Option.some.injEq] at found
    subst found
    have refused : setOfObject o name value n = Run.raise name.line (.constantAssigned name.text) n := by
      unfold setOfObject
      rw [Run.reading_bind]
      simp only [own]
      change (Run.orRaise name.line (n.heap.writeCell held name.text value) >>= _) n = _
      rw [Heap.writeCell_const constant]
      rfl
    rw [refused]
    exact refuses_constant _
  | none =>
    simp only [own, Option.none_or] at found
    obtain ⟨owner, owned⟩ := ownedField_eq found
    have shared : setOfObject o name value n = (ownedField (n.heap.object o).cls name >>= fun x =>
        Run.warn name.line (.staticThroughInstance name.text) >>= fun _ => setOfClass x.1 x.2 name value) n := by
      unfold setOfObject
      rw [Run.reading_bind]
      simp only [own]
    rw [shared, outcome_bind _ (by rw [owned]; rfl)]
    obtain ⟨_, warned, done, heap, scope⟩ :=
      Run.warn_quiet name.line (.staticThroughInstance name.text) n
    rw [outcome_bind _ (by rw [done]; rfl)]
    exact (setOfClass_refuses owner name constant value).of_same heap scope

theorem setMember_refuses {target : Value} {name : Name} {qualified : Bool}
    (found : n.heap.memberCell? target name.text qualified = some cell)
    (constant : cell.modifiers.const = true) (value : Value) :
    ((setMember target name value qualified n).outcome perform).Refuses n := by
  unfold Heap.memberCell? at found
  cases target with
  | object o =>
    cases qualified with
    | true => cases found
    | false => exact setOfObject_refuses found constant value
  | cls c =>
    obtain ⟨there, static⟩ := Option.filter_eq_some_iff.mp found
    obtain ⟨owner, owned⟩ := ownedField_eq there
    change ((ownedField c name >>= fun x => if x.2.modifiers.static = true then
      setOfClass x.1 x.2 name value else _) n).outcome perform |>.Refuses n
    rw [outcome_bind _ (by rw [owned]; rfl), if_pos static]
    exact setOfClass_refuses owner name constant value
  | _ => cases found

end Evaluator

def Expr.memberSet (object : Expr) (name : Name) (site : AssignSite) (operand : Option Expr)
    (qualified : Bool) : Expr :=
  if qualified then .staticSet object name site operand else .set object name site operand

theorem Expr.memberSet_plan (fuel : Nat) (object : Expr) (name : Name) (site : AssignSite)
    (operand : Option Expr) (qualified : Bool) :
    (Activity.expr (.memberSet object name site operand qualified)).plan fuel =
      Evaluator.setProperty object name site operand qualified := by
  cases qualified <;> rfl

theorem Reached.assign_refuses {H : List Event} {m : Machine} (reached : Reached H m) {n n' : Machine}
    {ref : Reference} {site : AssignSite} {operand : Option Expr}
    (started : .started (.expr (.assign ref site operand)) n ∈ H) {fuel : Nat} {value : Value}
    (done : (Evaluator.assignedValue ref site operand n).outcome (perform fuel) = .ok value n') {cell : Cell}
    (found : Evaluator.variableCell ref n' = .ok cell) (constant : cell.modifiers.const = true) :
    (perform (fuel + 1) (.expr (.assign ref site operand)) n).Refuses n' := by
  obtain ⟨w, trail, -⟩ := reached.trail
  obtain ⟨v, seen, -, -⟩ := trail.seen started
  obtain ⟨p, stands, around⟩ : (Activity.expr (.assign ref site operand)).Ready .lax v n := seen.good
  have stage : Stage .lax n.calm v n := ⟨seen.sound, seen.heap, Nat.le_refl _⟩
  have safe : Safe .lax n.calm n.scope (World.Known .lax) v
      (Evaluator.assignedValue ref site operand n) :=
    Evaluator.assignedValue_safe stage
      (fun e member => stands.part (by simp_all [Item.parts, Expr.parts])) around
  obtain ⟨w', -, lands⟩ := safe.leaves (history_leaves .lax fuel) fun impossible => impossible.elim
  rw [done] at lands
  change (((Evaluator.assignedValue ref site operand >>= fun result =>
    Evaluator.writeVariable ref result >>= fun _ => pure result) n).outcome (perform fuel)).Refuses n'
  rw [Evaluator.outcome_bind _ done]
  exact Evaluator.refuses_bind _ (Evaluator.writeVariable_refuses lands.sound lands.heap found constant value)

theorem memberSet_refuses {n n' : Machine} {object : Expr} {name : Name} {site : AssignSite}
    {operand : Option Expr} {qualified : Bool} {fuel : Nat} {target value : Value}
    (done : (Evaluator.memberValue object name site operand qualified n).outcome (perform fuel) =
      .ok (target, value) n') {cell : Cell}
    (found : n'.heap.memberCell? target name.text qualified = some cell)
    (constant : cell.modifiers.const = true) :
    (perform (fuel + 1) (.expr (.memberSet object name site operand qualified)) n).Refuses n' := by
  unfold perform
  rw [Expr.memberSet_plan]
  change (((Evaluator.memberValue object name site operand qualified >>= fun x =>
    Evaluator.setMember x.1 name x.2 qualified >>= fun _ => pure x.2) n).outcome (perform fuel)).Refuses n'
  rw [Evaluator.outcome_bind _ done]
  exact Evaluator.refuses_bind _ (Evaluator.setMember_refuses found constant value)

/-- Constants are written once. Those that stand outside the global scope are kept from any moment of a run
to any later one; a global one is kept as long as no statement is run that declares its name; and whatever
comes to write to a constant is refused. -/
theorem constants_written_once {H : List Event} {m : Machine} (reached : Reached H m) :
    ((moments H m).Pairwise fun n later =>
      ∀ slot, (∀ name, slot ≠ .scope .globals name) → n.heap.Keeps later.heap slot) ∧
    (∀ name H' m', Runs (fun s => s.declares?.map Name.text ≠ some name) m H' m' →
      ∀ n ∈ moments H' m', m.heap.Keeps n.heap (.scope .globals name)) ∧
    (∀ ref site operand n, .started (.expr (.assign ref site operand)) n ∈ H → ∀ fuel value n',
      (Evaluator.assignedValue ref site operand n).outcome (perform fuel) = .ok value n' →
      ∀ cell, Evaluator.variableCell ref n' = .ok cell → cell.modifiers.const = true →
        (perform (fuel + 1) (.expr (.assign ref site operand)) n).Refuses n') ∧
    ∀ object name site operand qualified n,
      .started (.expr (.memberSet object name site operand qualified)) n ∈ H → ∀ fuel target value n',
        (Evaluator.memberValue object name site operand qualified n).outcome (perform fuel) =
          .ok (target, value) n' →
        ∀ cell, n'.heap.memberCell? target name.text qualified = some cell → cell.modifiers.const = true →
          (perform (fuel + 1) (.expr (.memberSet object name site operand qualified)) n).Refuses n' := by
  obtain ⟨w, trail, arrived⟩ := reached.trail
  refine ⟨?_, fun name H' m' run => ?_, ?_, ?_⟩
  · refine trail.pairwise_moments arrived.sound arrived.heap ?_
    intro v v' n later sound heap heap' leads slot away
    rw [← heap, ← heap']
    exact leads.keeps sound fun name same => absurd same (away name)
  · exact (run.keeps arrived).2
  · intro ref site operand n started fuel value n' done cell found constant
    exact reached.assign_refuses started done found constant
  · intro object name site operand qualified n _ fuel target value n' done cell found constant
    exact memberSet_refuses done found constant

/-- A constant of the global scope that a function tries to write to. -/
def constantSource : String :=
  "const k = true; fun f() { k = false; } try { f(); } catch { }"

set_option maxRecDepth 100000 in
theorem constants_written_once_global :
    ∃ H m cell, Reached H m ∧ m.heap.here? .globals "k" = some cell ∧ cell.modifiers.const = true ∧
      ∀ H' m', Runs (fun s => s.declares?.map Name.text ≠ some "k") m H' m' →
        ∀ n ∈ moments H' m', n.heap.here? .globals "k" = some cell := by
  have reached := Reached.text 20 constantSource
  have global : (((Session.start {}).run 20 constantSource).machine.heap.here? .globals "k").any
      (·.modifiers.const) = true := by decide +kernel
  generalize ((Session.start {}).run 20 constantSource).machine = m at reached global
  generalize (Session.start {}).events 20 constantSource = H at reached
  obtain ⟨cell, found, constant⟩ := (Option.any_eq_true ..).mp global
  refine ⟨H, m, cell, reached, found, constant, fun H' m' run n member => ?_⟩
  exact ((constants_written_once reached).2.1 "k" H' m' run n member cell found constant).1

end Treewalk
