import Treewalk.Eval.Cast
import Treewalk.Eval.Member
import Treewalk.Proofs.MatchCall

/-!
Operators, casts, members and indexing on two machines that are tied together. None of them looks at a scope,
so that each goes the same way on both.
-/

namespace Treewalk.Evaluator

open Tie

variable {T : Tie} {h : Heap} {r : Ref .scope}

/-! Operators. -/

theorem numbers_matches (left right : Value) (line : Line) :
    T.Matches h r Same (numbers left right line) (numbers left right line) := by
  unfold numbers
  split
  · exact .value _
  · exact .raise line _

theorem sum_matches (left right : Value) : T.Matches h r Same (sum left right) (sum left right) := by
  unfold sum
  split
  · exact .value _
  · exact .value _
  · exact .andThen (.spell left) fun _ _ _ _ => .andThen (.spell right) fun _ _ _ _ => .value _

theorem plainOperation_matches (op : Operator) (line : Line) (left right : Value) :
    T.Matches h r Same (plainOperation op line left right) (plainOperation op line left right) := by
  cases op with
  | add => exact sum_matches left right
  | equal | notEqual => exact .value _
  | _ => exact .andThen (numbers_matches left right line) fun _ _ _ _ => .value _

theorem operation_matches (op : Operator) (symbol : String) (line : Line) (left right : Value) :
    T.Matches h r Same (operation op symbol line left right) (operation op symbol line left right) := by
  unfold operation
  cases overloader? left right with
  | none => exact plainOperation_matches op line left right
  | some o =>
    refine .heap fun h₁ S _ _ _ => ?_
    simp only [Heap.rescoped_object, Heap.rescoped_findMethod?, Heap.rescoped_function, Heap.rescoped_cls]
    cases h₁.findMethod? (h₁.object o).cls op.method with
    | none => exact .ite (fun _ => plainOperation_matches op line left right) fun _ => .raise line _
    | some method => exact .ite (fun _ => callMethod_matches method _ _ line) fun _ => .raise line _

theorem binaryOperation_matches (op : BinaryOp) (line : Line) (left right : Value) :
    T.Matches h r Same (binaryOperation op line left right) (binaryOperation op line left right) := by
  cases op with
  | operator op => exact operation_matches op _ line left right
  | orElse => exact .value _
  | nilEqual => exact .ite (fun _ => .value _) fun _ => operation_matches _ _ line left right

theorem unaryOperation_matches (op : UnaryOp) (line : Line) (operand : Value) :
    T.Matches h r Same (unaryOperation op line operand) (unaryOperation op line operand) := by
  unfold unaryOperation
  split
  · exact .value _
  · exact .value _
  · exact .raise line _

theorem step_matches (site : AssignSite) (current : Value) (delta : Float) :
    T.Matches h r Same (step site current delta) (step site current delta) := by
  cases current with
  | num n => exact .value _
  | _ => exact .raise site.line _

theorem assigned_matches (site : AssignSite) (current : Value) (value : Option Value) :
    T.Matches h r Same (assigned site current value) (assigned site current value) := by
  unfold assigned
  cases site.op with
  | set => exact .value _
  | add | subtract | multiply | divide => exact operation_matches _ _ _ _ _
  | power => exact .andThen (numbers_matches _ _ _) fun _ _ _ _ => .value _
  | increment | decrement => exact step_matches site current _

theorem newValue_matches {current current' : Run Value} (site : AssignSite) (value : Option Value)
    (reads : T.Matches h r Same current current') :
    T.Matches h r Same (newValue site current value) (newValue site current' value) :=
  .ite (fun _ => .value _) fun _ => .andThen reads fun _ held _ _ => assigned_matches site held value

/-! Casts. -/

theorem typeArgument_matches (value : Value) (line : Line) :
    T.Matches h r Same (typeArgument value line) (typeArgument value line) := by
  refine .heap fun _ _ _ _ _ => ?_
  cases value with
  | type t => exact .value t
  | cls | interface | enumeration => exact .value _
  | _ => exact .raise line _

theorem castMethodFor_rescoped (h : Heap) (S : Array Scope) (c : Ref .cls) (target : TypeDesc) :
    castMethodFor (h.rescoped S) c target = castMethodFor h c target := by
  simp [castMethodFor]

theorem castObject_matches (o : Ref .object) (target : TypeDesc) (line : Line) :
    T.Matches h r Same (castObject o target line) (castObject o target line) := by
  refine .heap fun _ _ _ _ _ => ?_
  rw [Heap.rescoped_object, castMethodFor_rescoped]
  refine .andThen (.orRaise line _) fun _ method _ _ => ?_
  refine .andThen (callMethod_matches method _ [] line) fun _ result _ _ => .heap fun _ _ _ _ _ => ?_
  rw [Heap.rescoped_conforms, Heap.rescoped_typeOf]
  exact .andThen (.demand _ line _) fun _ _ _ _ => .value result

theorem castPlain_matches (value : Value) (target : TypeDesc) (line : Line) :
    T.Matches h r Same (castPlain value target line) (castPlain value target line) := by
  unfold castPlain
  split
  · split
    · exact .value _
    · exact .raise line _
  · exact .value _
  · exact .andThen (.spell _) fun _ _ _ _ => .value _
  · exact .value _
  · exact .value _
  · exact .value _
  · exact .value _
  · refine .heap fun _ _ _ _ _ => ?_
    rw [Heap.rescoped_typeOf]
    exact .raise line _

theorem castValue_matches (value : Value) (target : TypeDesc) (line : Line) :
    T.Matches h r Same (castValue value target line) (castValue value target line) := by
  refine .heap fun _ _ _ _ _ => ?_
  rw [Heap.rescoped_conforms]
  refine .ite (fun _ => .value value) fun _ => ?_
  cases value with
  | object o =>
    exact .ite (fun _ => castObject_matches o target line) fun _ => castPlain_matches _ target line
  | _ => exact .ite (fun _ => .raise line _) fun _ => castPlain_matches _ target line

/-! Members. -/

theorem throughClass_matches (c : Ref .cls) (name : Name) (static qualified : Bool) :
    T.Matches h r Same (throughClass c name static qualified) (throughClass c name static qualified) := by
  refine .reading (fun _ _ => rfl) fun _ _ _ => ?_
  refine .ite (fun _ => .value ()) fun _ => ?_
  exact .ite (fun _ => .raise name.line _) fun _ => .warn name.line _

theorem getShared_matches (o : Ref .object) (name : Name) :
    T.Matches h r Same (getShared o name) (getShared o name) := by
  refine .heap fun h₁ S _ _ _ => ?_
  simp only [Heap.rescoped_object, Heap.rescoped_findField?, Heap.rescoped_findMethod?, Heap.rescoped_function]
  cases h₁.findField? (h₁.object o).cls name.text with
  | some cell => exact .andThen (.warn name.line _) fun _ _ _ _ => readCell_matches cell name.line
  | none =>
    cases h₁.findMethod? (h₁.object o).cls name.text with
    | none => exact .raise name.line _
    | some method =>
      refine .ite (fun _ => ?_) fun _ => bindMethod_matches method _
      exact .andThen (.warn name.line _) fun _ _ _ _ => bindMethod_matches method _

theorem getOfObject_matches (o : Ref .object) (name : Name) :
    T.Matches h r Same (getOfObject o name) (getOfObject o name) := by
  refine .reading (fun _ _ => rfl) fun h₁ _ _ => ?_
  cases (h₁.object o).fields.find? name.text with
  | some cell => exact readCell_matches cell name.line
  | none => exact getShared_matches o name

theorem getOfClass_matches (c : Ref .cls) (name : Name) (qualified : Bool) :
    T.Matches h r Same (getOfClass c name qualified) (getOfClass c name qualified) := by
  refine .heap fun h₁ S _ _ _ => ?_
  simp only [Heap.rescoped_findField?, Heap.rescoped_findMethod?, Heap.rescoped_function]
  cases h₁.findField? c name.text with
  | some cell =>
    exact .andThen (throughClass_matches c name _ qualified) fun _ _ _ _ => readCell_matches cell name.line
  | none =>
    cases h₁.findMethod? c name.text with
    | none => exact .raise name.line _
    | some method =>
      exact .andThen (throughClass_matches c name _ qualified) fun _ _ _ _ => bindMethod_matches method _

theorem getMember_matches (target : Value) (name : Name) (qualified : Bool) :
    T.Matches h r Same (getMember target name qualified) (getMember target name qualified) := by
  cases target with
  | object o => exact .ite (fun _ => .raise name.line _) fun _ => getOfObject_matches o name
  | cls c => exact getOfClass_matches c name qualified
  | enumeration e =>
    refine .reading (fun _ _ => rfl) fun h₁ _ _ => ?_
    cases (h₁.enumeration e).ordinal? name.text with
    | some ordinal => exact .value _
    | none => exact .raise name.line _
  | _ => exact .raise name.line _

theorem writtenCell_matches {store : Cell → Heap → Heap} (cell : Cell) (name : Name) (value : Value)
    (same : ∀ written h S, store written (h.rescoped S) = (store written h).rescoped S)
    (scopes : ∀ written h, (store written h).scopes = h.scopes)
    (guards : ∀ written h, T.Guarded h → T.Guarded (store written h)) :
    T.Matches h r Same
      (do match ← Run.orRaise name.line ((← Run.heap).writeCell cell name.text value) with
          | .stored written => Run.update (store written)
          | .computed property => writeProperty property value name.line)
      (do match ← Run.orRaise name.line ((← Run.heap).writeCell cell name.text value) with
          | .stored written => Run.update (store written)
          | .computed property => writeProperty property value name.line) := by
  refine .heap fun _ _ _ _ _ => ?_
  rw [Heap.rescoped_writeCell]
  refine .andThen (.orRaise name.line _) fun _ outcome _ _ => ?_
  cases outcome with
  | stored written => exact .update (same written) (scopes written) fun h' _ => guards written h'
  | computed property => exact writeProperty_matches property value name.line

theorem setOfClass_matches (owner : Ref .cls) (cell : Cell) (name : Name) (value : Value) :
    T.Matches h r Same (setOfClass owner cell name value) (setOfClass owner cell name value) :=
  writtenCell_matches cell name value (fun _ _ _ => rfl) (fun _ _ => rfl) fun written _ guarded =>
    guarded.setClassField owner name.text written

theorem ownedField_matches (c : Ref .cls) (name : Name) :
    T.Matches h r Same (ownedField c name) (ownedField c name) := by
  refine .heap fun h₁ S _ _ _ => ?_
  simp only [Heap.rescoped_fieldOwner?, Heap.rescoped_cls]
  cases h₁.fieldOwner? c name.text with
  | none => exact .raise name.line _
  | some owner =>
    dsimp only
    cases (h₁.cls owner).fields.find? name.text with
    | none => exact .raise name.line _
    | some cell => exact .value _

theorem setOfObject_matches (o : Ref .object) (name : Name) (value : Value) :
    T.Matches h r Same (setOfObject o name value) (setOfObject o name value) := by
  refine .reading (fun _ _ => rfl) fun h₁ _ _ => ?_
  cases (h₁.object o).fields.find? name.text with
  | some cell =>
    exact writtenCell_matches cell name value (fun _ _ _ => rfl) (fun _ _ => rfl) fun written _ guarded =>
      guarded.setField o name.text written
  | none =>
    refine .andThen (ownedField_matches _ name) fun _ _ _ _ => ?_
    exact .andThen (.warn name.line _) fun _ _ _ _ => setOfClass_matches _ _ name value

theorem setMember_matches (target : Value) (name : Name) (value : Value) (qualified : Bool) :
    T.Matches h r Same (setMember target name value qualified) (setMember target name value qualified) := by
  cases target with
  | object o => exact .ite (fun _ => .raise name.line _) fun _ => setOfObject_matches o name value
  | cls c =>
    refine .andThen (ownedField_matches c name) fun _ _ _ _ => ?_
    refine .ite (fun _ => setOfClass_matches _ _ name value) fun _ => ?_
    exact .reading (fun _ _ => rfl) fun _ _ _ => .raise name.line _
  | enumeration e => exact .reading (fun _ _ => rfl) fun _ _ _ => .raise name.line _
  | _ => exact .raise name.line _

/-! Indexing. -/

theorem invoke_matches (target : Value) (method : String) (args : List Value) (line : Line) :
    T.Matches h r Same (invoke target method args line) (invoke target method args line) := by
  cases target with
  | object o =>
    refine .heap fun h₁ S _ _ _ => ?_
    simp only [Heap.rescoped_object, Heap.rescoped_findMethod?, Heap.rescoped_cls]
    cases h₁.findMethod? (h₁.object o).cls method with
    | none => exact .raise line _
    | some f => exact callMethod_matches f _ args line
  | _ => exact .raise line _

theorem indexNumber_matches (position : Value) (line : Line) :
    T.Matches h r Same (indexNumber position line) (indexNumber position line) := by
  cases position with
  | num n => exact .value n
  | _ => exact .heap fun _ _ _ _ _ => .raise line _

theorem getIndex_matches (target position : Value) (line : Line) :
    T.Matches h r Same (getIndex target position line) (getIndex target position line) := by
  unfold getIndex
  split
  · exact .andThen (indexNumber_matches position line) fun _ _ _ _ => .heap fun _ _ _ _ _ => .orRaise line _
  · exact invoke_matches _ _ _ line

theorem setIndex_matches (target position value : Value) (line : Line) :
    T.Matches h r Same (setIndex target position value line) (setIndex target position value line) := by
  unfold setIndex
  split
  · refine .andThen (indexNumber_matches position line) fun _ _ _ _ => .heap fun _ _ _ _ _ => ?_
    rw [Heap.rescoped_slotFor]
    split
    · exact .andThen (.orRaise line _) fun _ _ _ _ => .stop _
    · refine .andThen (.orRaise line _) fun _ slot _ _ => ?_
      exact .update (fun _ _ => rfl) (fun _ => rfl) fun _ _ guarded => guarded.sameScopes rfl
  · exact .andThen (invoke_matches _ _ _ line) fun _ _ _ _ => .value ()

end Treewalk.Evaluator
