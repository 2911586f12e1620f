import Treewalk.Eval.Construct
import Treewalk.Eval.Member
import Treewalk.Proofs.SafeCall

/-!
Operators, casts, members and indexing. An accessor that is read off a class is the only function that is
called without the scopes of its place.
-/

namespace Treewalk.Evaluator

open Scoping Plan

variable {view : View} {k : Permit} {w : World} {m : Machine}

theorem numbers_safe (stage : Stage view k w m) (left right : Value) (line : Line) :
    Safe view k m.scope (fun _ _ => True) w (numbers left right line m) := by
  unfold numbers
  cases left with
  | num l =>
    cases right with
    | num r => exact .pure stage trivial
    | _ => exact .raise stage line _
  | _ => exact .raise stage line _

/-- What is computed from two numbers refers to nothing. -/
theorem arithmetic_safe (stage : Stage view k w m) (left right : Value) (line : Line)
    {f : Float × Float → Value} (plain : ∀ w x, World.Known view w (f x)) :
    Safe view k m.scope (World.Known view) w
      ((numbers left right line >>= fun x => pure (f x)) m) :=
  .bind stage (numbers_safe stage.calm left right line) fun w₁ _ _ stage₁ _ _ _ =>
    .pure stage₁ (plain w₁ _)

theorem joined_safe {left right : Value} (stage : Stage view k w m) (knownLeft : w.Known view left)
    (knownRight : w.Known view right) :
    Safe view k m.scope (World.Known view) w
      ((Run.spell left >>= fun l => Run.spell right >>= fun r => pure (.str (l ++ r))) m) := by
  refine .bind stage (.spell stage.calm knownLeft) ?_
  intro w₁ m₁ l stage₁ leads₁ _ _
  refine .bind stage₁ (.spell stage₁.calm (knownRight.mono leads₁)) ?_
  exact fun _ _ _ stage₂ _ _ _ => .pure stage₂ trivial

theorem sum_safe {left right : Value} (stage : Stage view k w m) (knownLeft : w.Known view left)
    (knownRight : w.Known view right) :
    Safe view k m.scope (World.Known view) w (sum left right m) := by
  have joined := joined_safe stage knownLeft knownRight
  unfold sum
  cases left with
  | num l =>
    cases right with
    | num r => exact .pure stage trivial
    | _ => exact joined
  | str l =>
    cases right with
    | str r => exact .pure stage trivial
    | _ => exact joined
  | _ => exact joined

theorem plainOperation_safe {left right : Value} (stage : Stage view k w m) (op : Operator) (line : Line)
    (knownLeft : w.Known view left) (knownRight : w.Known view right) :
    Safe view k m.scope (World.Known view) w (plainOperation op line left right m) := by
  unfold plainOperation
  cases op with
  | add => exact sum_safe stage knownLeft knownRight
  | equal | notEqual => exact .pure stage trivial
  | _ => exact arithmetic_safe stage left right line fun _ _ => trivial

theorem operation_safe {left right : Value} (stage : Stage view k w m) (op : Operator) (symbol : String)
    (line : Line) (knownLeft : w.Known view left) (knownRight : w.Known view right) :
    Safe view k m.scope (World.Known view) w (operation op symbol line left right m) := by
  unfold operation
  cases asked : overloader? left right with
  | none => exact plainOperation_safe stage op line knownLeft knownRight
  | some o =>
    have known : w.Known view (.object o) := by
      unfold overloader? at asked
      split at asked
      · cases asked
        exact knownLeft
      · cases asked
        exact knownRight
      · cases asked
    refine .heap ?_
    cases found : m.heap.findMethod? (m.heap.object o).cls op.method with
    | none =>
      exact .ite (fun _ => plainOperation_safe stage op line knownLeft knownRight)
        fun _ => .raise stage line _
    | some method =>
      rw [← stage.heap] at found
      have awaits := stage.sound.findMethod? (stage.sound.objects o known).cls found
      refine .ite (fun _ => ?_) fun _ => .raise stage line _
      exact callMethod_safe stage awaits known trivial (by simp [knownLeft, knownRight]) line

theorem binaryOperation_safe {left right : Value} (stage : Stage view k w m) (op : BinaryOp) (line : Line)
    (knownLeft : w.Known view left) (knownRight : w.Known view right) :
    Safe view k m.scope (World.Known view) w (binaryOperation op line left right m) := by
  cases op with
  | operator op => exact operation_safe stage op _ line knownLeft knownRight
  | orElse =>
    refine .pure stage ?_
    split
    · exact knownRight
    · exact knownLeft
  | nilEqual =>
    exact .ite (fun _ => .pure stage trivial) fun _ => operation_safe stage .equal _ line knownLeft knownRight

theorem unaryOperation_safe (stage : Stage view k w m) (op : UnaryOp) (line : Line) (operand : Value) :
    Safe view k m.scope (World.Known view) w (unaryOperation op line operand m) := by
  cases op with
  | not => exact .pure stage trivial
  | negate =>
    cases operand with
    | num n => exact .pure stage trivial
    | _ => exact .raise stage line _

theorem step_safe (stage : Stage view k w m) (site : AssignSite) (current : Value) (delta : Float) :
    Safe view k m.scope (World.Known view) w (step site current delta m) := by
  cases current with
  | num n => exact .pure stage trivial
  | _ => exact .raise stage site.line _

theorem getD_known {value : Option Value} (known : ∀ x ∈ value, w.Known view x) :
    w.Known view (value.getD .nil) := by
  cases value with
  | none => trivial
  | some x => exact known x rfl

theorem assigned_safe {current : Value} {value : Option Value} (stage : Stage view k w m)
    (site : AssignSite) (knownCurrent : w.Known view current)
    (known : ∀ x ∈ value, w.Known view x) :
    Safe view k m.scope (World.Known view) w (assigned site current value m) := by
  have operand := getD_known known
  unfold assigned
  cases site.op with
  | set => exact .pure stage operand
  | power => exact arithmetic_safe stage current _ site.line fun _ _ => trivial
  | increment => exact step_safe stage site current 1
  | decrement => exact step_safe stage site current (-1)
  | _ => exact operation_safe stage _ _ site.line knownCurrent operand

theorem newValue_safe {current : Run Value} {value : Option Value} (stage : Stage view k w m)
    (site : AssignSite) (safe : Safe view m.calm m.scope (World.Known view) w (current m))
    (known : ∀ x ∈ value, w.Known view x) :
    Safe view k m.scope (World.Known view) w (newValue site current value m) := by
  refine .ite (fun _ => .pure stage (getD_known known)) fun _ => .bind stage safe ?_
  intro w₁ m₁ old stage₁ leads₁ _ knownOld
  exact assigned_safe stage₁ site knownOld fun x member => (known x member).mono leads₁

theorem typeArgument_safe {value : Value} (stage : Stage view k w m)
    (known : view.typed → w.Known view value) (line : Line) :
    Safe view k m.scope (fun w' t => w' = w ∧ (view.typed → t.Denotable)) w (typeArgument value line m) := by
  refine .heap ?_
  cases value with
  | type t => exact .pure stage ⟨rfl, fun typed => known typed typed⟩
  | cls c | interface i | enumeration e => exact .pure stage ⟨rfl, fun _ => .object _⟩
  | _ => exact .raise stage line _

theorem castObject_safe {o : Ref .object} (stage : Stage view k w m)
    (known : w.Known view (.object o)) (target : TypeDesc) (line : Line) :
    Safe view k m.scope (World.Known view) w (castObject o target line m) := by
  refine .heap (.orRaise stage line fun method done => ?_)
  have found : w.heap.findMethod? (w.heap.object o).cls target.castMethod = some method := by
    rw [← stage.heap] at done
    unfold castMethodFor at done
    simp only at done
    split at done
    · cases done
    · rename_i f there
      split at done
      · cases done
      · split at done
        · cases done
        · split at done
          · cases done
          · cases done
            exact there
  have awaits := stage.sound.findMethod? (stage.sound.objects o known).cls found
  refine .bind stage (callMethod_safe stage.calm awaits known trivial (by simp) line) ?_
  intro w₁ m₁ result stage₁ _ _ knownResult
  exact .heap (.demand stage₁ line _ fun _ => .pure stage₁ knownResult)

theorem castPlain_safe {value : Value} (stage : Stage view k w m) (known : w.Known view value)
    (target : TypeDesc) (line : Line) :
    Safe view k m.scope (World.Known view) w (castPlain value target line m) := by
  generalize conversion : castPlain value target line = c
  unfold castPlain at conversion
  split at conversion
  · split at conversion <;> subst conversion
    · exact .pure stage trivial
    · exact .raise stage line _
  all_goals subst conversion
  · exact .pure stage trivial
  · exact .bind stage (.spell stage.calm known) fun _ _ _ stage₁ _ _ _ => .pure stage₁ trivial
  · exact .pure stage trivial
  · exact .pure stage trivial
  · exact .pure stage trivial
  · exact .pure stage known
  · exact .heap (.raise stage line _)

theorem castValue_safe {value : Value} (stage : Stage view k w m) (known : w.Known view value)
    (target : TypeDesc) (line : Line) :
    Safe view k m.scope (World.Known view) w (castValue value target line m) := by
  refine .heap (.ite (fun _ => .pure stage known) fun _ => ?_)
  cases value with
  | object o =>
    exact .ite (fun _ => castObject_safe stage known target line)
      fun _ => castPlain_safe stage known target line
  | _ => exact .ite (fun _ => .raise stage line _) fun _ => castPlain_safe stage known target line

theorem throughClass_safe (stage : Stage view k w m) (c : Ref .cls) (name : Name)
    (static qualified : Bool) :
    Safe view k m.scope (fun w' _ => w' = w) w (throughClass c name static qualified m) := by
  refine .reading (.ite (fun _ => .pure stage rfl) fun _ => .ite (fun _ => .raise stage _ _) fun _ => ?_)
  exact .quiet stage (Run.warn_quiet _ _)

/-- A field of a class can be used. Accessors of instance properties are then without a receiver. -/
theorem fieldUsable (sound : w.Sound view) {owner : Ref .cls} {name : String} {cell : Cell}
    (inside : owner.index < w.heap.classes.size)
    (member : (name, cell) ∈ (w.heap.cls owner).fields.entries) : w.Usable view cell := by
  have known := (sound.classes owner inside).fields _ member
  unfold World.FieldKnown at known
  split at known
  · exact known.1.imp fun _ => .inl
  · rename_i own
    unfold World.Usable
    unfold World.CellKnown at known ⊢
    simp only [Bool.not_eq_true] at own
    split
    · rename_i found
      rwa [found] at known
    · rename_i p found
      rw [found] at known
      obtain ⟨there, modifiers, getter, setter⟩ := known
      refine ⟨there, modifiers, ⟨getter.1, .inr ⟨owner, name, cell, p, member, own, found, .inl rfl⟩⟩,
        fun f member' => ⟨(setter f member').1, .inr ?_⟩⟩
      exact ⟨owner, name, cell, p, member, own, found, .inr ⟨f, member', rfl⟩⟩

theorem findFieldUsable (sound : w.Sound view) {c : Ref .cls} {name : String} {cell : Cell}
    (inside : c.index < w.heap.classes.size) (found : w.heap.findField? c name = some cell) :
    w.Usable view cell := by
  obtain ⟨ancestor, member, own⟩ := List.exists_of_findSome?_eq_some found
  exact fieldUsable sound (Heap.lineageFrom_inside sound.linked _ inside member)
    (NameMap.mem_of_find? own)

theorem getShared_safe {o : Ref .object} (stage : Stage view k w m) (known : w.Known view (.object o))
    (name : Name) : Safe view k m.scope (World.Known view) w (getShared o name m) := by
  have inside := (stage.sound.objects o known).cls
  refine .heap ?_
  rw [← stage.heap]
  cases field : w.heap.findField? (w.heap.object o).cls name.text with
  | some cell =>
    refine .quietly stage (Run.warn_quiet _ _) fun m₁ _ _ _ stage₁ => ?_
    exact readCell_safe stage₁ (findFieldUsable stage.sound inside field) _
  | none =>
    cases found : w.heap.findMethod? (w.heap.object o).cls name.text with
    | none => exact .raise stage _ _
    | some method =>
      have awaits := stage.sound.findMethod? inside found
      refine .ite (fun _ => ?_) fun _ => bindMethod_safe stage awaits known trivial
      refine .quietly stage (Run.warn_quiet _ _) fun m₁ _ _ _ stage₁ => ?_
      exact bindMethod_safe stage₁ awaits inside trivial

theorem getOfObject_safe {o : Ref .object} (stage : Stage view k w m)
    (known : w.Known view (.object o)) (name : Name) :
    Safe view k m.scope (World.Known view) w (getOfObject o name m) := by
  refine .reading ?_
  cases found : (m.heap.object o).fields.find? name.text with
  | none => exact getShared_safe stage known name
  | some cell =>
    rw [← stage.heap] at found
    have field := (stage.sound.objects o known).fields _ (NameMap.mem_of_find? found)
    exact readCell_safe stage (field.imp fun _ => .inl) _

theorem getOfClass_safe {c : Ref .cls} (stage : Stage view k w m) (known : w.Known view (.cls c))
    (name : Name) (qualified : Bool) :
    Safe view k m.scope (World.Known view) w (getOfClass c name qualified m) := by
  refine .heap ?_
  rw [← stage.heap]
  cases field : w.heap.findField? c name.text with
  | some cell =>
    refine .bind stage (throughClass_safe stage.calm c name _ qualified) ?_
    rintro w₁ m₁ - stage₁ - - rfl
    exact readCell_safe stage₁ (findFieldUsable stage.sound known field) _
  | none =>
    cases found : w.heap.findMethod? c name.text with
    | none => exact .raise stage _ _
    | some method =>
      refine .bind stage (throughClass_safe stage.calm c name _ qualified) ?_
      rintro w₁ m₁ - stage₁ - - rfl
      exact bindMethod_safe stage₁ (stage.sound.findMethod? known found) known trivial

theorem getMember_safe {target : Value} (stage : Stage view k w m) (known : w.Known view target)
    (name : Name) (qualified : Bool) :
    Safe view k m.scope (World.Known view) w (getMember target name qualified m) := by
  cases target with
  | object o => exact .ite (fun _ => .raise stage _ _) fun _ => getOfObject_safe stage known name
  | cls c => exact getOfClass_safe stage known name qualified
  | enumeration e =>
    refine .reading ?_
    cases (m.heap.enumeration e).ordinal? name.text with
    | none => exact .raise stage _ _
    | some ordinal => exact .pure stage trivial
  | _ => exact .raise stage _ _

theorem setOfClass_safe {owner : Ref .cls} {cell : Cell} {name : Name} {value : Value}
    (stage : Stage view k w m) (inside : owner.index < w.heap.classes.size)
    (found : (w.heap.cls owner).fields.find? name.text = some cell) (known : w.Known view value) :
    Safe view k m.scope (fun _ _ => True) w (setOfClass owner cell name value m) := by
  refine .heap (.orRaise stage _ fun write done => ?_)
  rw [← stage.heap] at done
  cases write with
  | stored written =>
    obtain ⟨variable', rfl, admits⟩ := Heap.writeCell_stored done
    have kept (constant : cell.modifiers.const = true) : { cell with content := .plain value } = cell := by
      rw [variable'] at constant
      cases constant
    have field : w.FieldKnown view { cell with content := .plain value } := by
      unfold World.FieldKnown
      split
      · exact ⟨known, admits⟩
      · exact known
    refine .updated (.setClassField found kept rfl) (stage.sound.setClassField found kept field) ?_ trivial
    rw [stage.heap]
    rfl
  | computed p =>
    have usable := fieldUsable stage.sound inside (NameMap.mem_of_find? found)
    obtain ⟨computed, open'⟩ := Heap.writeCell_computed done
    exact writeProperty_safe stage usable computed open' known _

theorem ownedField_safe {c : Ref .cls} (stage : Stage view k w m) (known : w.Known view (.cls c))
    (name : Name) :
    Safe view k m.scope (fun w' owned => w' = w ∧ owned.1.index < w.heap.classes.size ∧
      (w.heap.cls owned.1).fields.find? name.text = some owned.2) w (ownedField c name m) := by
  refine .heap ?_
  rw [← stage.heap]
  cases owned : w.heap.fieldOwner? c name.text with
  | none => exact .raise stage _ _
  | some owner =>
    have inside := Heap.lineageFrom_inside stage.sound.linked _ known (List.mem_of_find?_eq_some owned)
    simp only
    cases found : (w.heap.cls owner).fields.find? name.text with
    | none => exact .raise stage _ _
    | some cell => exact .pure stage ⟨rfl, inside, found⟩

theorem setOfObject_safe {o : Ref .object} {value : Value} (stage : Stage view k w m)
    (knownObject : w.Known view (.object o)) (name : Name) (known : w.Known view value) :
    Safe view k m.scope (fun _ _ => True) w (setOfObject o name value m) := by
  refine .reading ?_
  rw [← stage.heap]
  cases found : (w.heap.object o).fields.find? name.text with
  | some cell =>
    refine .heap (.orRaise stage _ fun write done => ?_)
    rw [← stage.heap] at done
    have field := (stage.sound.objects o knownObject).fields _ (NameMap.mem_of_find? found)
    cases write with
    | stored written =>
      obtain ⟨variable', rfl, -⟩ := Heap.writeCell_stored done
      have kept (constant : cell.modifiers.const = true) :
          { cell with content := .plain value } = cell := by
        rw [variable'] at constant
        cases constant
      refine .updated (.set (.setField found kept) rfl) (stage.sound.setField found kept known) ?_ trivial
      rw [stage.heap]
      rfl
    | computed p =>
      obtain ⟨computed, open'⟩ := Heap.writeCell_computed done
      exact writeProperty_safe stage (field.imp fun _ => .inl) computed open' known _
  | none =>
    refine .bind stage (ownedField_safe stage.calm (stage.sound.objects o knownObject).cls name) ?_
    rintro w₁ m₁ ⟨owner, cell⟩ stage₁ - - ⟨rfl, inside, own⟩
    refine .quietly stage₁ (Run.warn_quiet _ _) fun m₂ _ _ _ stage₂ => ?_
    exact setOfClass_safe stage₂ inside own known

theorem setMember_safe {target value : Value} (stage : Stage view k w m)
    (knownTarget : w.Known view target) (name : Name) (known : w.Known view value) (qualified : Bool) :
    Safe view k m.scope (fun _ _ => True) w (setMember target name value qualified m) := by
  cases target with
  | object o => exact .ite (fun _ => .raise stage _ _) fun _ => setOfObject_safe stage knownTarget name known
  | cls c =>
    refine .bind stage (ownedField_safe stage.calm knownTarget name) ?_
    rintro w₁ m₁ ⟨owner, cell⟩ stage₁ - - ⟨rfl, inside, own⟩
    exact .ite (fun _ => setOfClass_safe stage₁ inside own known) fun _ => .reading (.raise stage₁ _ _)
  | enumeration e => exact .reading (.raise stage _ _)
  | _ => exact .raise stage _ _

theorem invoke_safe {target : Value} {args : List Value} (stage : Stage view k w m)
    (known : w.Known view target) (method : String) (argsKnown : ∀ value ∈ args, w.Known view value)
    (line : Line) : Safe view k m.scope (World.Known view) w (invoke target method args line m) := by
  cases target with
  | object o =>
    refine .heap ?_
    rw [← stage.heap]
    cases found : w.heap.findMethod? (w.heap.object o).cls method with
    | none => exact .raise stage line _
    | some f =>
      have awaits := stage.sound.findMethod? (stage.sound.objects o known).cls found
      exact callMethod_safe stage awaits known trivial argsKnown line
  | _ => exact .raise stage line _

theorem indexNumber_safe (stage : Stage view k w m) (position : Value) (line : Line) :
    Safe view k m.scope (fun w' _ => w' = w) w (indexNumber position line m) := by
  cases position with
  | num n => exact .pure stage rfl
  | _ => exact .heap (.raise stage line _)

theorem getIndex_safe {target position : Value} (stage : Stage view k w m)
    (known : w.Known view target) (knownPosition : w.Known view position) (line : Line) :
    Safe view k m.scope (World.Known view) w (getIndex target position line m) := by
  have args : ∀ value ∈ [position], w.Known view value := by simpa using knownPosition
  cases target with
  | array a =>
    refine .bind stage (indexNumber_safe stage.calm position line) ?_
    rintro w₁ m₁ index stage₁ - - rfl
    refine .heap (.raised stage₁ line fun value read => ?_)
    rw [← stage₁.heap] at read
    obtain ⟨i, slot, same⟩ := bind_eq_ok.mp read
    cases same
    rw [Array.getD_eq_getD_getElem?]
    cases element : (w₁.heap.array a).elements[i]? with
    | none => trivial
    | some value => exact (stage.sound.arrays a known).elements value (Array.mem_of_getElem? element)
  | _ => exact invoke_safe stage known _ args line

theorem setIndex_safe {target position value : Value} (stage : Stage view k w m)
    (knownTarget : w.Known view target) (knownPosition : w.Known view position)
    (known : w.Known view value) (line : Line) :
    Safe view k m.scope (fun _ _ => True) w (setIndex target position value line m) := by
  cases target with
  | array a =>
    refine .bind stage (indexNumber_safe stage.calm position line) ?_
    rintro w₁ m₁ index stage₁ - - rfl
    refine .heap (.ite (fun _ => .orRaise stage₁ line fun _ _ => .stop stage₁ _) fun _ => ?_)
    refine .orRaise stage₁ line fun slot free => ?_
    rw [← stage₁.heap] at free
    refine .updated (.set (.setElement _ _ a slot value) rfl)
      (stage₁.sound.setElement a slot known fun _ => .inr (Heap.slotFor_conforms free)) ?_ trivial
    rw [stage₁.heap]
    rfl
  | _ =>
    refine .bind stage (invoke_safe stage.calm knownTarget _ (by simp [knownPosition, known]) line) ?_
    exact fun _ _ _ stage₁ _ _ _ => .pure stage₁ trivial

end Treewalk.Evaluator
