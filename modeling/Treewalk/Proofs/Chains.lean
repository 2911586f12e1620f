import Treewalk.Proofs.Lineage
import Treewalk.Proofs.Pervasive
import Treewalk.Proofs.Settled
import Treewalk.Proofs.Stretch

/-!
Scopes outward and classes upward. Every link between scopes and between classes leads to an older record, and
there is one record of each kind from which no link leads: the global scope, and the class from which all others
descend. So all walks along the links come to an end there, and what is looked up on the way is found or missed
after finitely many steps.
-/

namespace Treewalk

section

variable {α β : Type} {next : α → Option α} {a : α} {l : List α}

/-- The links from a record on lead through the records of a list, and from the last of them none leads on. -/
inductive Chain (next : α → Option α) : α → List α → Prop where
  | last {a : α} (ends : next a = none) : Chain next a [a]
  | link {a b : α} {l : List α} (leads : next a = some b) (rest : Chain next b l) : Chain next a (a :: l)

/-- A search along the links: the record itself is asked, and if it has no answer, the search goes on with the next
one, as long as there is one. -/
inductive Seeks (next : α → Option α) (ask : α → Option β) : α → Option β → Prop where
  | found {a : α} {b : β} (answer : ask a = some b) : Seeks next ask a (some b)
  | missed {a : α} (silent : ask a = none) (ends : next a = none) : Seeks next ask a none
  | onward {a a' : α} {result : Option β} (silent : ask a = none) (leads : next a = some a')
      (rest : Seeks next ask a' result) : Seeks next ask a result

/-- What is gathered along the links, beginning with the last record. -/
inductive Gathers (next : α → Option α) (add : α → β → β) (none : β) : α → β → Prop where
  | last {a : α} (ends : next a = .none) : Gathers next add none a (add a none)
  | link {a a' : α} {gathered : β} (leads : next a = some a') (rest : Gathers next add none a' gathered) :
      Gathers next add none a (add a gathered)

/-- The records that are met by following the links, as far as the fuel reaches. -/
def follow (next : α → Option α) : Nat → α → List α
  | 0, _ => []
  | fuel + 1, a =>
    a :: match next a with
      | some b => follow next fuel b
      | none => []

namespace Chain

theorem seeks (chain : Chain next a l) (ask : α → Option β) : Seeks next ask a (l.findSome? ask) := by
  induction chain with
  | last ends =>
    rw [List.findSome?_singleton]
    cases answer : ask _ with
    | none => exact .missed answer ends
    | some b => exact .found answer
  | link leads _ ih =>
    rw [List.findSome?_cons]
    cases answer : ask _ with
    | none => exact .onward answer leads ih
    | some b => exact .found answer

theorem gathers (chain : Chain next a l) (add : α → β → β) (none : β) :
    Gathers next add none a (l.reverse.foldl (fun gathered a => add a gathered) none) := by
  induction chain with
  | last ends => exact .last ends
  | link leads _ ih =>
    rw [List.reverse_cons, List.foldl_append]
    exact .link leads ih

end Chain

end

/-- Links between the records of a table lead to older ones, and from all but one record there is a link. -/
structure Converges {region : Region} (next : Ref region → Option (Ref region)) (size : Nat) (root : Ref region) :
    Prop where
  inside : root.index < size
  older : ∀ a b : Ref region, a.index < size → next a = some b → b.index < a.index
  only : ∀ a : Ref region, a.index < size → (next a = none ↔ a = root)

namespace Converges

variable {region : Region} {next : Ref region → Option (Ref region)} {size : Nat} {root a : Ref region}
  (converges : Converges next size root)

include converges

/-- By induction on the fuel, which bounds the positions of the records that are still to come. -/
theorem follow (inside : a.index < size) {fuel : Nat} (enough : a.index < fuel) :
    Chain next a (follow next fuel a) ∧ (Treewalk.follow next fuel a).getLast? = some root := by
  induction fuel generalizing a with
  | zero => omega
  | succ fuel ih =>
    unfold Treewalk.follow
    cases leads : next a with
    | none =>
      obtain rfl := (converges.only a inside).mp leads
      exact ⟨.last leads, rfl⟩
    | some b =>
      have before := converges.older a b inside leads
      obtain ⟨chain, last⟩ := ih (Nat.lt_trans before inside) (by omega)
      refine ⟨.link leads chain, ?_⟩
      rw [List.getLast?_cons, last]
      rfl

end Converges

namespace Heap

variable {h : Heap} {r : Ref .scope} {c : Ref .cls}

def around? (h : Heap) (r : Ref .scope) : Option (Ref .scope) :=
  (h.scope r).enclosing

def parent? (h : Heap) (c : Ref .cls) : Option (Ref .cls) :=
  (h.cls c).superclass

theorem outward_eq_follow (h : Heap) (r : Ref .scope) : h.outward r = follow h.around? (r.index + 1) r := by
  have each (fuel : Nat) : h.outwardFrom fuel r = follow h.around? fuel r := by
    induction fuel generalizing r with
    | zero => rfl
    | succ fuel ih =>
      unfold outwardFrom follow around?
      cases (h.scope r).enclosing with
      | none => rfl
      | some outer => exact congrArg (r :: ·) (ih outer)
  exact each _

theorem lineage_eq_follow (h : Heap) (c : Ref .cls) : h.lineage c = follow h.parent? (c.index + 1) c := by
  have each (fuel : Nat) : h.lineageFrom fuel c = follow h.parent? fuel c := by
    induction fuel generalizing c with
    | zero => rfl
    | succ fuel ih =>
      unfold lineageFrom follow parent?
      cases (h.cls c).superclass with
      | none => rfl
      | some parent => exact congrArg (c :: ·) (ih parent)
  exact each _

def withFields (h : Heap) (c : Ref .cls) (fields : NameMap (Cell × Ref .scope)) : NameMap (Cell × Ref .scope) :=
  (h.cls c).fields.entries.foldl (fun fields (name, cell) =>
    if cell.modifiers.static then fields else fields.insert name (cell, (h.cls c).scope)) fields

/-- Walks outward from a scope end at the global scope, and the lookups of names are such walks. -/
structure EndsOutward (h : Heap) (r : Ref .scope) : Prop where
  only : h.around? r = none ↔ r = .globals
  chain : Chain h.around? r (h.outward r)
  last : (h.outward r).getLast? = some .globals
  lookup : ∀ name, ∃ found, Seeks h.around? (h.here? · name) r found ∧
    h.lookup r name = match found with
      | some cell => .ok cell
      | none => .error (.undefinedVariable name)
  assign : ∀ name value, ∃ found, Seeks h.around? (Option.guard fun s => (h.here? s name).isSome) r found ∧
    h.assign r name value = match found with
      | some s => h.assignHere s name value
      | none => .error (.undefinedVariable name)
  ancestor : ∀ distance, h.ancestor? distance r = (h.outward r)[distance]?

/-- Walks upward from a class end at the root of all classes, and the lookups of members are such walks. -/
structure EndsUpward (h : Heap) (c : Ref .cls) : Prop where
  only : h.parent? c = none ↔ c = .objectClass
  chain : Chain h.parent? c (h.lineage c)
  last : (h.lineage c).getLast? = some .objectClass
  method : ∀ name, Seeks h.parent? (fun d => (h.cls d).methods.find? name) c (h.findMethod? c name)
  field : ∀ name, Seeks h.parent? (fun d => (h.cls d).fields.find? name) c (h.findField? c name)
  owner : ∀ name, Seeks h.parent? (Option.guard fun d => (h.cls d).fields.contains name) c (h.fieldOwner? c name)
  isA : ∀ name, ∃ found, Seeks h.parent? (Option.guard (h.isNamed name)) c found ∧ h.isA c name = found.isSome
  fields : Gathers h.parent? h.withFields .empty c (h.instanceFields c)

theorem ancestor?_of_chain {l : List (Ref .scope)} (chain : Chain h.around? r l) (distance : Nat) :
    h.ancestor? distance r = l[distance]? := by
  induction chain generalizing distance with
  | last ends =>
    cases distance with
    | zero => rfl
    | succ distance =>
      rw [ancestor?, ← around?, ends]
      rfl
  | link leads _ ih =>
    cases distance with
    | zero => rfl
    | succ distance =>
      rw [ancestor?, ← around?, leads]
      exact ih distance

theorem endsOutward (converges : Converges h.around? h.scopes.size .globals) (inside : r.index < h.scopes.size) :
    h.EndsOutward r := by
  obtain ⟨chain, last⟩ := converges.follow inside (Nat.lt_succ_self _)
  rw [← outward_eq_follow] at chain last
  have binder (name : String) : h.binder? r name =
      (h.outward r).findSome? (Option.guard fun s => (h.here? s name).isSome) :=
    List.find?_eq_findSome?_guard
  refine ⟨converges.only r inside, chain, last, fun name => ?_, fun name value => ?_, ancestor?_of_chain chain⟩
  · exact ⟨_, chain.seeks _, lookup_eq h r name⟩
  · refine ⟨_, chain.seeks _, ?_⟩
    rw [← binder]
    rfl

theorem endsUpward (converges : Converges h.parent? h.classes.size .objectClass) (inside : c.index < h.classes.size) :
    h.EndsUpward c := by
  obtain ⟨chain, last⟩ := converges.follow inside (Nat.lt_succ_self _)
  rw [← lineage_eq_follow] at chain last
  refine ⟨converges.only c inside, chain, last, fun _ => chain.seeks _, fun _ => chain.seeks _, fun name => ?_,
    fun name => ⟨_, chain.seeks _, ?_⟩, chain.gathers h.withFields .empty⟩
  · rw [fieldOwner?, List.find?_eq_findSome?_guard]
    exact chain.seeks _
  · rw [isA, ← List.find?_eq_findSome?_guard, List.isSome_find?]

end Heap

/-! Classes with a superclass. -/

/-- There is one class without a superclass, the root of all classes. -/
structure Heap.Heirs (h : Heap) : Prop where
  root : 0 < h.classes.size
  only : ∀ c : Ref .cls, c.index < h.classes.size → (h.parent? c = none ↔ c = .objectClass)

/-- Between two heaps the root of all classes stays the only one of its kind. -/
def Heap.Inherits (h h' : Heap) : Prop :=
  h.Heirs → h'.Heirs

namespace Heap.Heirs

variable {h h' : Heap}

theorem same (heirs : h.Heirs) (size : h'.classes.size = h.classes.size) (parents : ∀ c, h'.parent? c = h.parent? c) :
    h'.Heirs := by
  refine ⟨by rw [size]; exact heirs.root, fun c inside => ?_⟩
  rw [size] at inside
  rw [parents]
  exact heirs.only c inside

theorem addClass (heirs : h.Heirs) {cls : Class} (heir : cls.superclass.isSome = true) : (h.addClass cls).2.Heirs := by
  have held (c : Ref .cls) : (h.addClass cls).2.parent? c =
      if c.index = h.classes.size then cls.superclass else h.parent? c := by
    rw [parent?, cls_addClass]
    split <;> rfl
  refine ⟨by simp [Heap.addClass], fun c inside => ?_⟩
  rw [held]
  by_cases new : c.index = h.classes.size
  · have other : c ≠ .objectClass := by
      rintro rfl
      exact Nat.ne_of_lt heirs.root new
    have heir' : cls.superclass ≠ none := Option.isSome_iff_ne_none.mp heir
    rw [if_pos new]
    exact ⟨fun none => absurd none heir', fun root => absurd root other⟩
  · rw [if_neg new]
    have before : c.index < h.classes.size + 1 := by simpa [Heap.addClass] using inside
    exact heirs.only c (by omega)

theorem setClassFields (heirs : h.Heirs) (c : Ref .cls) (fields : NameMap Cell) : (h.setClassFields c fields).Heirs := by
  refine heirs.same (by simp [Heap.setClassFields]) fun d => ?_
  rw [parent?, cls_setClassFields]
  split <;> rfl

theorem setClassField (heirs : h.Heirs) (c : Ref .cls) (name : String) (cell : Cell) :
    (h.setClassField c name cell).Heirs := by
  refine heirs.same (by simp [Heap.setClassField]) fun d => ?_
  rw [parent?, cls_setClassField]
  split <;> rfl

end Heap.Heirs

theorem Heap.Inherits.narrow : Local (fun _ => Inherits) Inherits where
  refl _ heirs := heirs
  within _ _ _ inherits := inherits
  same inherits _ classes heirs :=
    (inherits heirs).same (by rw [classes]) fun c => by rw [parent?, parent?, cls, cls, classes]

theorem inherits_pervasive : Pervasive (Run.Keeps (fun _ => Heap.Inherits) Heap.Inherits) where
  toCompositional := keeps_compositional Heap.Inherits.narrow
  exec _ := .ask Heap.Inherits.narrow _
  define _ _ _ := .update Heap.Inherits.narrow (fun _ => rfl) fun _ => rfl
  addObject _ _ _ _ begun heirs := (begun heirs).same rfl fun _ => rfl
  setFields _ _ _ _ _ begun heirs := (begun heirs).same rfl fun _ => rfl
  setField _ _ _ _ _ _ begun heirs := (begun heirs).same rfl fun _ => rfl
  setClassField c name cell _ _ _ begun heirs := (begun heirs).setClassField c name cell
  inScope := .inScope
  catching := .catching
  declareClass := by
    have comp := keeps_compositional Heap.Inherits.narrow
    apply comp.declareClass
    · exact fun _ _ _ => .update Heap.Inherits.narrow (fun _ => rfl) fun _ => rfl
    · exact fun r _ => .inScope r
    · intro cls heir
      apply comp.addClass
      · exact fun _ _ _ begun heirs => (begun heirs).addClass heir
      · exact fun c fields _ _ _ begun heirs => (begun heirs).setClassFields c fields

/-- What every stretch of a history keeps holds at all its events, and so after the last one. -/
theorem Linked.invariant {P : Heap → Prop} {past H : List Event} {h : Heap}
    (linked : Linked (fun _ h h' => P h → P h') past h H) (start : P h) :
    (∀ e ∈ H, P e.machine.heap) ∧ P (heapAfter h H) := by
  induction H generalizing past h with
  | nil => exact ⟨by simp, start⟩
  | cons first rest ih =>
    have now := linked.1 start
    obtain ⟨later, last⟩ := ih linked.2 now
    refine ⟨fun e member => ?_, last⟩
    rcases List.mem_cons.mp member with rfl | member
    · exact now
    · exact later e member

theorem Reached.heirs {H : List Event} {m : Machine} (reached : Reached H m) : ∀ n ∈ moments H m, n.heap.Heirs := by
  obtain ⟨echo, clock, run⟩ := reached
  have goes : Activity.Goes fun _ => Heap.Inherits := fun a fuel m past =>
    (inherits_pervasive.plan a fuel past m.heap m fun heirs => heirs)
  have start : initialHeap.Heirs := by
    refine ⟨Nat.one_pos, fun c inside => ?_⟩
    obtain ⟨i⟩ := c
    obtain rfl : i = 0 := Nat.lt_one_iff.mp inside
    exact ⟨fun _ => rfl, fun _ => rfl⟩
  obtain ⟨linked, last⟩ := run.linked (fun _ _ heirs => heirs) goes
  intro n member
  rcases List.mem_append.mp member with earlier | now
  · obtain ⟨e, among, rfl⟩ := List.mem_map.mp earlier
    exact (linked.invariant start).1 e among
  · obtain rfl := List.mem_singleton.mp now
    rw [← last]
    exact (linked.invariant start).2

/-! At every moment of a run. -/

theorem Reached.scopes_converge {H : List Event} {m : Machine} (reached : Reached H m) :
    ∀ n ∈ moments H m, Converges n.heap.around? n.heap.scopes.size .globals := by
  obtain ⟨w, trail, arrived⟩ := reached.trail
  intro n member
  refine trail.forall_moments (Q := fun n => n.Settled → Converges n.heap.around? n.heap.scopes.size .globals)
    arrived.sound arrived.heap (fun v n sound heap settled => ?_) n member (reached.settled.1 n member)
  rw [← heap]
  refine ⟨sound.globals, fun a b _ leads => ?_, fun a inside => ⟨fun ends => ?_, ?_⟩⟩
  · exact settled.guarded.older a b (heap ▸ leads)
  · rcases Nat.eq_zero_or_pos a.index with zero | positive
    · exact Ref.ext_index zero
    · have around := sound.inner a positive inside
      rw [show (v.heap.scope a).enclosing = none from ends] at around
      cases around
  · rintro rfl
    exact sound.outermost

theorem Reached.classes_converge {H : List Event} {m : Machine} (reached : Reached H m) :
    ∀ n ∈ moments H m, Converges n.heap.parent? n.heap.classes.size .objectClass := by
  obtain ⟨w, trail, arrived⟩ := reached.trail
  intro n member
  have heirs := reached.heirs n member
  have older : n.heap.Ancestry := trail.forall_moments (Q := fun n => n.heap.Ancestry) arrived.sound arrived.heap
    (fun v n sound heap => heap ▸ sound.ancestry) n member
  exact ⟨heirs.root, older, heirs.only⟩

/-- At every moment of a run, following the scopes outward from any scope ends at the global one, which alone has
none around it, and following the superclasses from any class ends at the root of all classes, which alone has
none. The lookups of variables and members that walk along them come to their answers. -/
theorem chains_end {H : List Event} {m : Machine} (reached : Reached H m) :
    ∀ n ∈ moments H m,
      (∀ r : Ref .scope, r.index < n.heap.scopes.size → n.heap.EndsOutward r) ∧
        ∀ c : Ref .cls, c.index < n.heap.classes.size → n.heap.EndsUpward c := by
  intro n member
  constructor
  · exact fun r inside => Heap.endsOutward (reached.scopes_converge n member) inside
  · exact fun c inside => Heap.endsUpward (reached.classes_converge n member) inside

/-- A class, an heir of it, and a second class of the first name that is an heir of the heir. -/
def replacedClassSource : String :=
  "class A \x7b \x7d class B <- A \x7b \x7d class A <- B \x7b var f = fun () \x7b return 1; \x7d; \x7d"

set_option maxRecDepth 100000 in
theorem replacedClassSource_lineage :
    let h := ((Session.start {}).run 30 replacedClassSource).machine.heap
    (h.lineage ⟨3⟩).map (fun c => (h.cls c).name) = ["A", "B", "A", "Object"] ∧
      h.classes.size = 4 ∧ h.scopes.size = 4 := by
  decide +kernel

/-- The second class of a name descends from the first one, and walks from it come to an end. -/
theorem chains_end_redeclaring :
    ∃ H m, Reached H m ∧ ∃ n ∈ moments H m,
      (n.heap.lineage ⟨3⟩).map (fun c => (n.heap.cls c).name) = ["A", "B", "A", "Object"] ∧
        n.heap.EndsUpward ⟨3⟩ ∧ n.heap.EndsOutward ⟨3⟩ := by
  obtain ⟨names, classes, scopes⟩ := replacedClassSource_lineage
  have reached := Reached.text 30 replacedClassSource
  obtain ⟨outward, upward⟩ := chains_end reached _ (last_mem_moments _ _)
  refine ⟨_, _, reached, _, last_mem_moments _ _, names, upward _ ?_, outward _ ?_⟩
  · rw [classes]
    decide
  · rw [scopes]
    decide

end Treewalk
