import Treewalk.Proofs.Trail
import Treewalk.Proofs.TypeNames

/-!
What array types admit. A type is an array type if its name ends in a pair of brackets, and names end so for
two reasons: a type has been made the element type of another, or a signature spells out a result type that
is an array type. Names of classes are words, and never end so. At every moment of a run, an array type
therefore admits nil, the arrays whose element type agrees with its own, functions that return arrays, and
the instances of a class that has the name of the type of nil.
-/

namespace Treewalk

namespace TypeDesc

/-- A name that is a word does not end in brackets. -/
theorem isArray_of_word {t : TypeDesc} (word : ∀ c ∈ t.name.toList, Piece.isWordChar c = true) :
    t.isArray = false := by
  refine Bool.eq_false_iff.mpr fun array => ?_
  have last : ']' ∈ t.element.arrayOf.name.toList := by simp [arrayOf]
  rw [arrayOf_element array] at last
  exact absurd (word ']' last) (by decide)

/-- A signature ends as its result type does. -/
theorem function_arrayOf (params : List TypeDesc) (returns : TypeDesc) :
    function params returns.arrayOf = (function params returns).arrayOf := by
  simp [function, arrayOf, object, String.append_assoc]

theorem isArray_function (params : List TypeDesc) (returns : TypeDesc) :
    (function params returns).isArray = returns.isArray := by
  have ending : (function params returns).name.toList.reverse = returns.name.toList.reverse ++
      ':' :: ("func(" ++ ",".intercalate (params.map name) ++ ")").toList.reverse := by
    simp [function, object]
  unfold isArray
  rw [ending]
  -- What comes before the result type ends in a colon, which is no part of any brackets.
  rcases returns.name.toList.reverse with _ | ⟨last, _ | ⟨next, rest⟩⟩
  · rfl
  · simp [dropBrackets?]
  · unfold dropBrackets?
    split <;> split <;> simp_all

end TypeDesc

/-- The values that an array type admits, given the type of its elements. -/
inductive Heap.AdmittedByArray (h : Heap) (t : TypeDesc) : Value → Prop where
  | nil : h.AdmittedByArray t .nil
  | array {a : Ref .array} (agrees : (h.array a).elementType.agrees t = true) : h.AdmittedByArray t (.array a)
  | returning {f : Ref .function} (array : (h.function f).returns.isArray = true)
      (agrees : (TypeDesc.function (h.function f).paramTypes (h.function f).returns.element).agrees t = true) :
      h.AdmittedByArray t (.function f)
  | nullNamed {o : Ref .object} (named : (h.cls (h.object o).cls).name = "null") :
      h.AdmittedByArray t (.object o)

/-- A function is taken for an array if it returns one. -/
theorem Function.signature_agrees (f : Function) (t : TypeDesc) :
    f.signature.agrees t.arrayOf = true ↔ f.returns.isArray = true ∧
      (TypeDesc.function f.paramTypes f.returns.element).agrees t = true := by
  have ends : f.signature.isArray = f.returns.isArray := TypeDesc.isArray_function _ _
  cases array : f.returns.isArray with
  | true =>
    have made : f.signature = (TypeDesc.function f.paramTypes f.returns.element).arrayOf := by
      rw [← TypeDesc.function_arrayOf, TypeDesc.arrayOf_element array]
      rfl
    rw [made, TypeDesc.agrees_arrayOf]
    simp
  | false =>
    have named : f.signature ≠ .null := fun same => by
      have first := congrArg (fun t => t.name.toList.head?) same
      simp [signature, TypeDesc.function, TypeDesc.null, TypeDesc.object] at first
    have known : f.signature.kind ≠ .any := fun same => by cases same
    rw [TypeDesc.agrees_flat (ends.trans array)]
    simp [known, named]

theorem Heap.conforms_arrayOf {h : Heap} (words : ∀ c, ∀ x ∈ (h.cls c).name.toList, Piece.isWordChar x = true)
    (v : Value) (t : TypeDesc) : h.conforms v t.arrayOf = true ↔ h.AdmittedByArray t v := by
  have own : h.conforms v t.arrayOf = (h.typeOf v).agrees t.arrayOf := by
    unfold conforms
    cases v <;> simp
  rw [own]
  cases v with
  | nil =>
    rw [typeOf, TypeDesc.agrees_flat (by decide)]
    exact ⟨fun _ => .nil, fun _ => .inr rfl⟩
  | array a =>
    rw [typeOf, ArrayObject.type, TypeDesc.agrees_arrayOf]
    constructor
    · exact .array
    · rintro (_ | agrees)
      exact agrees
  | function f =>
    rw [typeOf, Function.signature_agrees]
    constructor
    · rintro ⟨array, agrees⟩
      exact .returning array agrees
    · rintro (_ | _ | ⟨array, agrees⟩)
      exact ⟨array, agrees⟩
  | object o =>
    have flat : (TypeDesc.object (h.cls (h.object o).cls).name).isArray = false :=
      TypeDesc.isArray_of_word (words (h.object o).cls)
    rw [typeOf, TypeDesc.agrees_flat flat]
    constructor
    · rintro (impossible | same)
      · cases impossible
      · exact .nullNamed (congrArg TypeDesc.name same)
    · rintro (_ | _ | _ | named)
      exact .inr (congrArg TypeDesc.object named)
  | _ =>
    rw [typeOf, TypeDesc.agrees_flat (by decide)]
    exact ⟨fun held => absurd held (by decide), fun admitted => by cases admitted⟩

theorem World.Sound.classWord {view : View} {w : World} (sound : w.Sound view) (c : Ref .cls) :
    ∀ x ∈ (w.heap.cls c).name.toList, Piece.isWordChar x = true := by
  by_cases inside : c.index < w.heap.classes.size
  · exact (sound.classes c inside).word
  · have absent : w.heap.cls c = default := by
      simp [Heap.cls, Array.getD_eq_getD_getElem?, Nat.le_of_not_lt inside]
    intro x member
    rw [absent] at member
    cases member

/-- At every moment of a run, a value conforms to an array type exactly if it is nil, an array whose element
type agrees with that of the array type, a function that returns such an array, as its signature is read, or an
instance of a class with the name of the type of nil. -/
theorem array_types_accept {H : List Event} {m : Machine} (reached : Reached H m) :
    ∀ n ∈ moments H m, ∀ (v : Value) (t : TypeDesc),
      n.heap.conforms v t.arrayOf = true ↔ n.heap.AdmittedByArray t v := by
  obtain ⟨w, trail, arrived⟩ := reached.trail
  refine trail.forall_moments arrived.sound arrived.heap fun u n sound heap v t => ?_
  rw [← heap]
  exact Heap.conforms_arrayOf sound.classWord v t

/-- A function that returns an array and an instance of a class with an unlucky name, each in a variable of an
array type. -/
def disguisedSource : String :=
  "fun f() -> num[] \x7b return [1]; \x7d any[] a = f; class null \x7b \x7d num[] b = null();"

def Cell.isDisguised (h : Heap) (t : TypeDesc) (cell : Cell) : Bool :=
  cell.declared = some t.arrayOf && match cell.content with
    | .plain .nil | .plain (.array _) | .computed _ => false
    | .plain value => h.conforms value t.arrayOf

theorem Cell.isDisguised_cases {h : Heap} {t : TypeDesc} {cell : Cell} (disguised : cell.isDisguised h t = true) :
    cell.declared = some t.arrayOf ∧ ∃ value, cell.content = .plain value ∧ value ≠ .nil ∧
      (∀ a, value ≠ .array a) ∧ h.conforms value t.arrayOf = true := by
  simp only [isDisguised, Bool.and_eq_true, decide_eq_true_eq] at disguised
  obtain ⟨declared, held⟩ := disguised
  refine ⟨declared, ?_⟩
  split at held
  · cases held
  · cases held
  · cases held
  · rename_i value notNil notArray content
    exact ⟨value, content, notNil, notArray, held⟩

set_option maxRecDepth 100000 in
theorem array_types_accept_disguised :
    ∃ H m, Reached H m ∧ ∀ x ∈ [("a", TypeDesc.any), ("b", .number)],
      ∃ cell value, m.heap.here? .globals x.1 = some cell ∧ cell.declared = some x.2.arrayOf ∧
        cell.content = .plain value ∧ value ≠ .nil ∧ (∀ a, value ≠ .array a) ∧
        m.heap.AdmittedByArray x.2 value := by
  have reached := Reached.text 20 disguisedSource
  have held : [("a", TypeDesc.any), ("b", .number)].all (fun x =>
      (((Session.start {}).run 20 disguisedSource).machine.heap.here? .globals x.1).any
        (·.isDisguised ((Session.start {}).run 20 disguisedSource).machine.heap x.2)) = true := by decide +kernel
  generalize ((Session.start {}).run 20 disguisedSource).machine = m at reached held
  refine ⟨_, m, reached, fun x member => ?_⟩
  obtain ⟨cell, found, disguised⟩ := (Option.any_eq_true ..).mp (List.all_eq_true.mp held x member)
  obtain ⟨declared, value, content, notNil, notArray, conforms⟩ := Cell.isDisguised_cases disguised
  have admitted := (array_types_accept reached m (last_mem_moments _ m) value x.2).mp conforms
  exact ⟨cell, value, found, declared, content, notNil, notArray, admitted⟩

end Treewalk
