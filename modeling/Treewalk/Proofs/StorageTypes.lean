import Treewalk.Proofs.Trail

/-!
Types of variables. At every moment of a run, a variable holds nil or a value that conforms to its declared
type, and a number that its modifiers admit; what conforms to a type once does so from then on.
-/

namespace Treewalk

open Scoping

/-- A cell is that of a variable: a scope binds a name to it, or it is a static field of a class. -/
inductive Heap.HasVariable (h : Heap) (cell : Cell) : Prop where
  | bound (r : Ref .scope) (name : String) (found : h.here? r name = some cell)
  | static (c : Ref .cls) (name : String) (found : (h.cls c).fields.find? name = some cell)
      (static : cell.modifiers.static = true)

variable {view : View} {w : World} {cell : Cell}

theorem World.Sound.stored (sound : w.Sound view) (stored : w.heap.HasVariable cell) :
    w.CellKnown view (w.Closed view) cell ∧ w.heap.Admits cell := by
  cases stored with
  | bound r name found => exact sound.cells r name cell found
  | static c name found static =>
    have member := NameMap.mem_of_find? found
    have known := (sound.classes c (Heap.lt_of_classField member)).fields _ member
    unfold FieldKnown at known
    rwa [if_pos static] at known

theorem World.Sound.content (sound : w.Sound view) (stored : w.heap.HasVariable cell) {value : Value}
    (plain : cell.content = .plain value) : w.Known view value := by
  have known := (sound.stored stored).1
  unfold CellKnown at known
  rwa [plain] at known

/-- Every variable admits what it holds, and whatever a variable holds conforms for good to the types to
which it conforms. -/
theorem variables_conform {H : List Event} {m : Machine} (reached : Reached H m) :
    (∀ n ∈ moments H m, ∀ cell, n.heap.HasVariable cell → n.heap.Admits cell) ∧
    (moments H m).Pairwise fun n later => ∀ cell value t, n.heap.HasVariable cell →
      cell.content = .plain value → n.heap.conforms value t = true → later.heap.conforms value t = true := by
  obtain ⟨w, trail, arrived⟩ := reached.trail
  constructor
  · refine trail.forall_moments arrived.sound arrived.heap fun v n sound heap cell stored => ?_
    rw [← heap] at stored ⊢
    exact (sound.stored stored).2
  · refine trail.pairwise_moments arrived.sound arrived.heap ?_
    intro v v' n later sound heap heap' leads cell value t stored plain conforms
    rw [← heap] at stored conforms
    rw [← heap', World.conforms_stays sound leads (sound.content stored plain)]
    exact conforms

/-- A static field and a variable with declared types, both written to. -/
def typedSource : String :=
  "class A { static bool s = true; } bool t = false; A.s = t; t = true;"

set_option maxRecDepth 100000 in
theorem variables_conform_typed :
    ∃ H m, Reached H m ∧
      (∃ cell, m.heap.here? .globals "t" = some cell ∧ cell.declared = some .boolean ∧ m.heap.Admits cell) ∧
      ∃ cell, (m.heap.cls ⟨1⟩).fields.find? "s" = some cell ∧ cell.declared = some .boolean ∧
        m.heap.Admits cell := by
  have reached := Reached.text 20 typedSource
  have global : (((Session.start {}).run 20 typedSource).machine.heap.here? .globals "t").any
      (·.declared = some .boolean) = true := by decide +kernel
  have static : ((((Session.start {}).run 20 typedSource).machine.heap.cls ⟨1⟩).fields.find? "s").any
      (fun cell => cell.declared = some .boolean && cell.modifiers.static) = true := by decide +kernel
  generalize ((Session.start {}).run 20 typedSource).machine = m at reached global static
  generalize (Session.start {}).events 20 typedSource = H at reached
  have admits := (variables_conform reached).1 m (last_mem_moments H m)
  refine ⟨H, m, reached, ?_, ?_⟩
  · obtain ⟨cell, found, typed⟩ := Option.any_eq_true .. |>.mp global
    exact ⟨cell, found, by simpa using typed, admits cell (.bound .globals "t" found)⟩
  · obtain ⟨cell, found, typed⟩ := Option.any_eq_true .. |>.mp static
    simp only [Bool.and_eq_true, decide_eq_true_eq] at typed
    exact ⟨cell, found, typed.1, admits cell (.static ⟨1⟩ "s" found typed.2)⟩

end Treewalk
