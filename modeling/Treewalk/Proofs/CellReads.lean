import Treewalk.Proofs.Safety

/-!
Reads of cells. A variable is read by reading the cell that is found for it, and a member by reading the cell that is
found under its name on the heap as it is. What comes between the two is a warning at most.
-/

namespace Treewalk.Evaluator

variable {m : Machine} {cell : Cell} {name : Name}

theorem readCell_plain {value : Value} (plain : cell.content = .plain value) (line : Line) :
    readCell cell line = pure value := by
  unfold readCell
  rw [plain]

theorem readCell_computed {p : Ref .property} (computed : cell.content = .computed p) (line : Line) :
    readCell cell line = readProperty p line := by
  unfold readCell
  rw [computed]

theorem readVariable_found {ref : Reference} (found : variableCell ref m = .ok cell) :
    readVariable ref m = readCell cell ref.name.line m := by
  change (Run.orRaise ref.name.line (variableCell ref m) >>= fun cell => readCell cell ref.name.line) m = _
  rw [found]
  rfl

theorem getMember_own {o : Ref .object} (found : (m.heap.object o).fields.find? name.text = some cell) :
    getMember (.object o) name false m = readCell cell name.line m := by
  change getOfObject o name m = _
  rw [getOfObject, Run.reading_bind, found]

/-- What an instance has from its class only is read with a warning. -/
theorem getMember_shared {o : Ref .object} (absent : (m.heap.object o).fields.find? name.text = none)
    (found : m.heap.findField? (m.heap.object o).cls name.text = some cell) :
    getMember (.object o) name false m =
      (Run.warn name.line (.staticThroughInstance name.text) >>= fun _ => readCell cell name.line) m := by
  change getOfObject o name m = _
  rw [getOfObject, Run.reading_bind, absent]
  change getShared o name m = _
  rw [getShared, Run.heap_bind, found]

theorem getMember_class {c : Ref .cls} (found : m.heap.findField? c name.text = some cell) (qualified : Bool) :
    getMember (.cls c) name qualified m =
      (throughClass c name cell.modifiers.static qualified >>= fun _ => readCell cell name.line) m := by
  change getOfClass c name qualified m = _
  rw [getOfClass, Run.heap_bind, found]

end Treewalk.Evaluator
