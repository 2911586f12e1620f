import Mathlib.Logic.Relation
import Treewalk.Proofs.ArrayTypes
import Treewalk.Proofs.Lineage

/-!
What object types admit. An annotation names a class or an interface, and an instance conforms to it if the
name is that of its class or of a class further up, or that of an interface which one of these classes lists.
Two names are out of this order: the type of nil is an object type with a name of its own, which a class may
have as well, so that its instances pass for nil and any instance conforms to an annotation of that name.
-/

namespace Treewalk

theorem TypeDesc.agrees_object {a b : String} (flat : (object a).isArray = false)
    (flat' : (object b).isArray = false) :
    (object a).agrees (object b) = true ↔ a = b ∨ a = "null" ∨ b = "null" := by
  have known (name : String) : (object name).isPlainAny = false := by simp [isPlainAny, object]
  rw [agrees, dimensions_flat flat]
  simp only [agreesWithin, known, agreesFlat, flat, flat', Bool.or_self, Bool.false_or, Bool.false_eq_true, if_false]
  rw [if_pos ⟨rfl, rfl⟩, Bool.or_eq_true, Bool.or_eq_true, decide_eq_true_iff, isNull_iff, isNull_iff, or_assoc]
  simp [object, null]

namespace Heap

def Derives (h : Heap) (c parent : Ref .cls) : Prop :=
  (h.cls c).superclass = some parent

/-- The name is that of a class, of a class from which it descends, or of an interface that one of them
lists. -/
def Names (h : Heap) (name : String) (c : Ref .cls) : Prop :=
  ∃ ancestor, Relation.ReflTransGen h.Derives c ancestor ∧
    ((h.cls ancestor).name = name ∨ ∃ i ∈ (h.cls ancestor).interfaces, (h.interface i).name = name)

variable {h : Heap} {c parent : Ref .cls} {name : String}

theorem mem_lineage (older : h.Ancestry) (inside : c.index < h.classes.size) (ancestor : Ref .cls) :
    ancestor ∈ h.lineage c ↔ Relation.ReflTransGen h.Derives c ancestor := by
  rw [Relation.ReflTransGen.cases_head_iff]
  -- A superclass is older than its class, so the descent comes to an end.
  induction found : c.index using Nat.strongRecOn generalizing c with
  | ind index ih =>
    cases up : (h.cls c).superclass with
    | none =>
      rw [lineage_root up, List.mem_singleton]
      refine ⟨fun same => .inl same.symm, ?_⟩
      rintro (same | ⟨parent, derives, -⟩)
      · exact same.symm
      · exact absurd (derives.symm.trans up) (by simp)
    | some parent =>
      have before : parent.index < c.index := older c parent inside up
      rw [lineage_cons older inside up, List.mem_cons, ih parent.index (found ▸ before)
        (Nat.lt_trans before inside) rfl, ← Relation.ReflTransGen.cases_head_iff]
      constructor
      · rintro (same | further)
        · exact .inl same.symm
        · exact .inr ⟨parent, up, further⟩
      · rintro (same | ⟨other, derives, further⟩)
        · exact .inl same.symm
        · obtain rfl : other = parent := Option.some.inj (derives.symm.trans up)
          exact .inr further

theorem isA_iff (older : h.Ancestry) (inside : c.index < h.classes.size) :
    h.isA c name = true ↔ h.Names name c := by
  unfold isA Names
  rw [List.any_eq_true]
  refine exists_congr fun ancestor => and_congr (mem_lineage older inside ancestor) ?_
  simp [isNamed]

/-- A type that is a word is resolved to itself unless the word is bound to a type. -/
theorem resolveType_object {r : Ref .scope} (word : ∀ x ∈ name.toList, Piece.isWordChar x = true)
    (free : ∀ cell t, h.lookup r name = .ok cell → cell.content ≠ .plain (.type t)) :
    h.resolveType (.object name) r = .object name := by
  have flat : (TypeDesc.object name).dimensions = 0 := TypeDesc.dimensions_flat (TypeDesc.isArray_of_word word)
  have base : (TypeDesc.object name).base = .object name := by rw [TypeDesc.base, flat, TypeDesc.elementAt]
  unfold resolveType
  rw [base]
  split
  · rfl
  · split
    · rename_i found
      exact absurd rfl (free _ _ found)
    · rfl

/-- An instance conforms to an annotation that names its class or something above it, to the type of nil, and
to anything if its class has the name of that type. -/
theorem conforms_object (words : ∀ c, ∀ x ∈ (h.cls c).name.toList, Piece.isWordChar x = true)
    (older : h.Ancestry) {o : Ref .object} (inside : (h.object o).cls.index < h.classes.size)
    (word : ∀ x ∈ name.toList, Piece.isWordChar x = true) :
    h.conforms (.object o) (.object name) = true ↔
      h.Names name (h.object o).cls ∨ name = "null" ∨ (h.cls (h.object o).cls).name = "null" := by
  have own : (TypeDesc.object (h.cls (h.object o).cls).name).isArray = false :=
    TypeDesc.isArray_of_word (words (h.object o).cls)
  have flat : (TypeDesc.object name).isArray = false := TypeDesc.isArray_of_word word
  have conforms : h.conforms (.object o) (.object name) = true ↔
      (h.typeOf (.object o)).agrees (.object name) = true ∨ h.isA (h.object o).cls name = true := by
    have kind : (TypeDesc.object name).kind = .object := rfl
    simp only [Heap.conforms, kind, flat, Bool.or_eq_true, decide_true, Bool.not_false, Bool.and_true, Bool.true_and]
    rfl
  have itself (same : (h.cls (h.object o).cls).name = name) : h.Names name (h.object o).cls :=
    ⟨_, .refl, .inl same⟩
  rw [conforms, typeOf, TypeDesc.agrees_object own flat, isA_iff older inside]
  constructor
  · rintro ((same | named | named) | names)
    · exact .inl (itself same)
    · exact .inr (.inr named)
    · exact .inr (.inl named)
    · exact .inl names
  · rintro (names | named | named)
    · exact .inr names
    · exact .inl (.inr (.inr named))
    · exact .inl (.inr (.inl named))

end Heap

/-- At every moment of a run, an instance conforms to an annotation that is not bound to a type exactly if the
annotation names its class, a class from which this one descends, or an interface that one of them lists, but
for the annotation with the name of the type of nil and for the instances of a class of that name. -/
theorem object_types_nominal {H : List Event} {m : Machine} (reached : Reached H m) :
    ∀ n ∈ moments H m, ∀ o : Ref .object, o.index < n.heap.objects.size → ∀ (name : String) (r : Ref .scope),
      (∀ x ∈ name.toList, Piece.isWordChar x = true) →
      (∀ cell t, n.heap.lookup r name = .ok cell → cell.content ≠ .plain (.type t)) →
      (n.heap.conforms (.object o) (n.heap.resolveType (.object name) r) = true ↔
        n.heap.Names name (n.heap.object o).cls ∨ name = "null" ∨
          (n.heap.cls (n.heap.object o).cls).name = "null") := by
  obtain ⟨w, trail, arrived⟩ := reached.trail
  refine trail.forall_moments arrived.sound arrived.heap fun v n sound heap o inside name r word free => ?_
  rw [← heap] at inside free ⊢
  rw [Heap.resolveType_object word free]
  exact Heap.conforms_object sound.classWord sound.ancestry (sound.objects o inside).cls word

/-- An instance of a class whose superclass lists an interface, beside a class that it has nothing to do with. -/
def heirSource : String :=
  "interface I \x7b \x7d class A -> I \x7b \x7d class B <- A \x7b \x7d class C \x7b \x7d var b = B();"

def Cell.holdsType (cell : Cell) : Bool :=
  match cell.content with
  | .plain (.type _) => true
  | _ => false

set_option maxRecDepth 100000 in
theorem object_types_nominal_heir :
    ∃ H m, Reached H m ∧ m.heap.Names "I" (m.heap.object ⟨0⟩).cls ∧ ¬m.heap.Names "C" (m.heap.object ⟨0⟩).cls := by
  have reached := Reached.text 20 heirSource
  have facts : let h := ((Session.start {}).run 20 heirSource).machine.heap
      0 < h.objects.size ∧ (h.cls (h.object ⟨0⟩).cls).name ≠ "null" ∧
        ∀ x ∈ [("I", true), ("C", false)],
          h.conforms (.object ⟨0⟩) (h.resolveType (.object x.1) .globals) = x.2 ∧
            (h.lookup .globals x.1).toOption.all (!·.holdsType) := by decide +kernel
  generalize ((Session.start {}).run 20 heirSource).machine = m at reached facts
  obtain ⟨inside, unlucky, names⟩ := facts
  have nominal (name : String) (admitted : Bool) (member : (name, admitted) ∈ [("I", true), ("C", false)])
      (word : ∀ x ∈ name.toList, Piece.isWordChar x = true) (known : name ≠ "null") :
      admitted = true ↔ m.heap.Names name (m.heap.object ⟨0⟩).cls := by
    obtain ⟨conforms, free⟩ := names _ member
    have settled := object_types_nominal reached m (last_mem_moments _ m) ⟨0⟩ inside name .globals word
      fun cell t found content => by simp [found, Except.toOption, Cell.holdsType, content] at free
    rw [conforms] at settled
    simpa [known, unlucky] using settled
  refine ⟨_, m, reached, ?_, ?_⟩
  · have word : ∀ x ∈ "I".toList, Piece.isWordChar x = true := List.forall_mem_singleton.mpr (by decide)
    exact (nominal "I" true List.mem_cons_self word (by decide)).mp rfl
  · have word : ∀ x ∈ "C".toList, Piece.isWordChar x = true := List.forall_mem_singleton.mpr (by decide)
    exact fun named => absurd ((nominal "C" false (by simp) word (by decide)).mpr named) (by decide)

end Treewalk
