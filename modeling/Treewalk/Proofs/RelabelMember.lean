import Treewalk.Eval.Cast
import Treewalk.Eval.Member
import Treewalk.Proofs.RelabelRun

/-!
Cells, calls, operators, casts and members, none of which looks at the ids of references.
-/

namespace Treewalk.Evaluator

variable {f : Reference → Reference} {act : (a : Activity) → Machine → Outcome a.Result} [unseen : Unseen f act]
  {α : Type}

/-! Sequences and cells. -/

theorem exprs_relabel (es : List Expr) : Relabelled f act (exprs es) (exprs (es.map (Expr.relabel f))) := by
  induction es with
  | nil => exact .pure []
  | cons e rest ih => exact .bind (.eval e) fun _ => .bind ih fun _ => .pure _

theorem option_relabel (e : Option Expr) : Relabelled f act (option e) (option (e.map (Expr.relabel f))) := by
  cases e with
  | none => exact .pure none
  | some e => exact .map _ (.eval e)

theorem stmts_relabel (ss : List Stmt) : Relabelled f act (stmts ss) (stmts (ss.map (Stmt.relabel f))) := by
  induction ss with
  | nil => exact .pure _
  | cons s rest ih =>
    refine .bind (.exec s) fun signal => ?_
    cases signal with
    | normal => exact ih
    | _ => exact .pure _

theorem block_relabel (r : Ref .scope) (body : List Stmt) :
    Relabelled f act (block r body) (block r (body.map (Stmt.relabel f))) :=
  .inScope r (stmts_relabel body)

theorem readProperty_relabel (p : Ref .property) (line : Line) :
    Relabelled f act (readProperty p line) (readProperty p line) := by
  refine .reading fun h => .reading fun _ => ?_
  rw [Heap.relabel_property, Heap.relabel_function]
  refine .bind (.call _ _ _ line) fun _ => .heap fun _ => ?_
  rw [Heap.relabel_checkType]
  exact .bind (.orRaise line _) fun _ => .pure _

theorem writeProperty_relabel (p : Ref .property) (value : Value) (line : Line) :
    Relabelled f act (writeProperty p value line) (writeProperty p value line) := by
  refine .reading fun h => ?_
  rw [Heap.relabel_property]
  cases (h.property p).setter with
  | none => exact .raise line _
  | some setter =>
    refine .heap fun _ => ?_
    rw [Heap.relabel_checkType]
    refine .bind (.orRaise line _) fun _ => .bind (.orRaise line _) fun _ => .reading fun _ => ?_
    rw [Heap.relabel_function]
    exact .bind (.call _ _ _ line) fun _ => .update fun _ => rfl

theorem readCell_relabel (cell : Cell) (line : Line) : Relabelled f act (readCell cell line) (readCell cell line) := by
  unfold readCell
  cases cell.content with
  | plain value => exact .pure value
  | computed property => exact readProperty_relabel property line

omit unseen in
theorem typeIn_relabel (t : TypeDesc) (scope : Ref .scope) : Relabelled f act (typeIn t scope) (typeIn t scope) := by
  refine .heap fun _ => ?_
  rw [Heap.relabel_resolveType]
  exact .pure _

omit unseen in
theorem typeHere_relabel (t : TypeDesc) : Relabelled f act (typeHere t) (typeHere t) :=
  .currentScope fun r => typeIn_relabel t r

theorem readVariable_relabel (ref : Reference) : Relabelled f act (readVariable ref) (readVariable (f ref)) := by
  refine .get fun m => ?_
  have same : variableCell (f ref) (m.relabel f) = variableCell ref m := by
    simp only [variableCell, unseen.name, unseen.depth, Machine.relabel, Heap.relabel_lookupAt, Heap.relabel_lookup]
  rw [same, unseen.name]
  exact .bind (.orRaise _ _) fun cell => readCell_relabel cell _

theorem writeVariable_relabel (ref : Reference) (value : Value) :
    Relabelled f act (writeVariable ref value) (writeVariable (f ref) value) := by
  refine .get fun m => ?_
  have same : variableWrite (f ref) value (m.relabel f) = variableWrite ref value m := by
    simp only [variableWrite, unseen.name, unseen.depth, Machine.relabel, Heap.relabel_assignAt, Heap.relabel_assign]
  rw [same, unseen.name]
  refine .bind (.orRaise _ _) fun written => ?_
  cases written with
  | stored target cell => exact .update fun _ => rfl
  | computed property => exact writeProperty_relabel property value _

/-! Calls. -/

omit unseen in
theorem bind_user {g : Function} {body : List Stmt} {closure : Ref .scope} (user : g.body = .user body closure)
    (receiver : Value) (k : Function → Run α) (m : Machine) :
    (bind g receiver >>= k) m = k { g with body := .user body ⟨m.heap.scopes.size⟩ }
      { m with heap := (m.heap.addScope ⟨some (m.heap.scopeWithin receiver closure),
        NameMap.empty.insert "this" (Cell.ofValue receiver)⟩).2 } := by
  unfold bind
  rw [user]
  rfl

omit unseen in
theorem bind_relabel {k k' : Function → Run α} (next : ∀ g, Relabelled f act (k g) (k' (g.relabel f))) (g : Function)
    (receiver : Value) : Relabelled f act (bind g receiver >>= k) (bind (g.relabel f) receiver >>= k') := by
  cases body : g.body with
  | user statements closure =>
    intro m
    have user : (g.relabel f).body = .user (Stmt.relabelAll f statements) closure := by
      rw [Function.relabel_user f g body]
    have within : (m.relabel f).heap.scopeWithin receiver closure = m.heap.scopeWithin receiver closure :=
      m.heap.relabel_scopeWithin f receiver closure
    rw [bind_user body, bind_user user, within, Function.relabel_user f g body]
    exact next { g with body := .user statements ⟨m.heap.scopes.size⟩ }
      { m with heap := (m.heap.addScope ⟨some (m.heap.scopeWithin receiver closure),
        NameMap.empty.insert "this" (Cell.ofValue receiver)⟩).2 }
  | native native _ =>
    rw [Function.relabel_other f g (by simp [body])]
    unfold bind
    rw [body]
    exact next { g with body := .native native (some receiver) }
  | missing =>
    have same := Function.relabel_other f g (by simp [body])
    have first := next g
    rw [same] at first ⊢
    unfold bind
    rw [body]
    exact first

omit unseen in
theorem bindFunction_relabel (g : Ref .function) (receiver : Value) :
    Relabelled f act (bindFunction g receiver) (bindFunction g receiver) := by
  refine .reading fun h => ?_
  rw [Heap.relabel_function]
  exact bind_relabel (fun bound => .allocate fun h => h.relabel_addFunction f bound) _ receiver

omit unseen in
theorem bindMethod_relabel (method : Ref .function) (receiver : Value) :
    Relabelled f act (bindMethod method receiver) (bindMethod method receiver) :=
  .bind (bindFunction_relabel method receiver) fun _ => .pure _

theorem callMethod_relabel (method : Ref .function) (receiver : Value) (args : List Value) (line : Line) :
    Relabelled f act (callMethod method receiver args line) (callMethod method receiver args line) := by
  refine .reading fun h => ?_
  rw [Heap.relabel_function]
  exact bind_relabel (fun bound => .call bound args [] line) _ receiver

theorem callNative_relabel (native : Native) (args : List Value) :
    Relabelled f act (callNative native args) (callNative native args) := by
  cases native with
  | clock =>
    refine .bind .readClock fun shown => ?_
    cases shown with
    | ofNat => exact .pure _
    | negSucc => exact .raise _ _
  | objectText =>
    cases args with
    | nil => exact .pure _
    | cons value rest =>
      refine .heap fun _ => ?_
      rw [Heap.relabel_text]
      exact .pure _
  | print | println =>
    cases args with
    | nil => exact .pure _
    | cons value rest => exact .bind (.spell value) fun _ => .bind (.printOut _) fun _ => .pure _
  | error =>
    cases args with
    | nil => exact .pure _
    | cons value rest => exact .bind (.spell value) fun _ => .bind (.printErr _) fun _ => .pure _

omit unseen in
theorem resultOf_relabel (g : Function) (closure : Ref .scope) (line : Line) (signal : Signal) :
    Relabelled f act (resultOf g closure line signal) (resultOf (g.relabel f) closure line signal) := by
  refine .heap fun h => ?_
  simp only [Function.relabel_returns, Function.relabel_name, Heap.relabel_resolveType, Heap.relabel_conforms,
    Heap.relabel_typeOf]
  cases signal <;> exact .bind (.demand _ line _) fun _ => .pure _

theorem constructed_relabel (closure : Ref .scope) (line : Line) :
    Relabelled f act (constructed closure line) (constructed closure line) := by
  refine .reading fun h => ?_
  rw [Heap.relabel_here?]
  cases h.here? closure "this" with
  | none => exact .pure _
  | some cell => exact readCell_relabel cell line

theorem callUser_relabel (g : Function) (body : List Stmt) (closure : Ref .scope) (args : List Value) (line : Line) :
    Relabelled f act (callUser g body closure args line)
      (callUser (g.relabel f) (body.map (Stmt.relabel f)) closure args line) := by
  refine .heap fun h => ?_
  rw [Function.relabel_name, Function.relabel_params, Heap.relabel_argumentCells]
  refine .bind (.orRaise line _) fun cells => .bind (.allocate fun _ => rfl) fun scope => ?_
  refine .bind (block_relabel scope body) fun signal => ?_
  rw [Function.relabel_constructs]
  exact .ite (constructed_relabel closure line) (resultOf_relabel g closure line signal)

omit unseen in
theorem callMissing_relabel (g : Function) (line : Line) :
    Relabelled f act (callMissing g line) (callMissing (g.relabel f) line) := by
  unfold callMissing
  rw [Function.relabel_name]
  exact .inGlobalScope fun _ => .ite (.bind (.warn line _) fun _ => .pure _) (.raise line _)

theorem callFunction_relabel (g : Function) (args generics : List Value) (line : Line) :
    Relabelled f act (callFunction g args generics line) (callFunction (g.relabel f) args generics line) := by
  unfold callFunction
  rw [Function.relabel_arity]
  refine .ite (.raise line _) ?_
  cases body : g.body with
  | native native receiver =>
    rw [Function.relabel_other f g (by simp [body]), body]
    exact callNative_relabel native _
  | missing =>
    have missing : Relabelled f act _ _ := callMissing_relabel g line
    rw [Function.relabel_other f g (by simp [body])] at missing ⊢
    rw [body]
    exact missing
  | user statements closure =>
    have run : Relabelled f act _ _ := callUser_relabel g statements closure args line
    rw [Function.relabel_user f g body] at run ⊢
    rw [← Stmt.relabelAll_eq] at run
    exact .ite run (.raise line _)

theorem texts_relabel (values : List Value) : Relabelled f act (texts values) (texts values) := by
  induction values with
  | nil => exact .pure []
  | cons value rest ih => exact .bind (.spell value) fun _ => .bind ih fun _ => .pure _

theorem textOf_relabel (value : Value) : Relabelled f act (textOf value) (textOf value) := by
  have plain (value : Value) : Relabelled f act (Run.heap >>= fun h => pure (h.text value))
      (Run.heap >>= fun h => pure (h.text value)) := by
    refine .heap fun _ => ?_
    rw [Heap.relabel_text]
    exact .pure _
  cases value with
  | object o =>
    refine .heap fun h => ?_
    rw [Heap.relabel_object, Heap.relabel_findMethod?, Heap.relabel_text]
    cases h.findMethod? (h.object o).cls "toString" with
    | some method => exact .bind (callMethod_relabel method _ [] 0) fun result => plain result
    | none => exact .pure _
  | array a => exact .reading fun _ => .bind (texts_relabel _) fun _ => .pure _
  | _ => exact plain _

/-! Operators. -/

omit unseen in
theorem numbers_relabel (left right : Value) (line : Line) :
    Relabelled f act (numbers left right line) (numbers left right line) := by
  unfold numbers
  split
  · exact .pure _
  · exact .raise line _

theorem sum_relabel (left right : Value) : Relabelled f act (sum left right) (sum left right) := by
  unfold sum
  split
  · exact .pure _
  · exact .pure _
  · exact .bind (.spell left) fun _ => .bind (.spell right) fun _ => .pure _

theorem plainOperation_relabel (op : Operator) (line : Line) (left right : Value) :
    Relabelled f act (plainOperation op line left right) (plainOperation op line left right) := by
  cases op with
  | add => exact sum_relabel left right
  | equal | notEqual => exact .pure _
  | _ => exact .bind (numbers_relabel left right line) fun _ => .pure _

theorem operation_relabel (op : Operator) (symbol : String) (line : Line) (left right : Value) :
    Relabelled f act (operation op symbol line left right) (operation op symbol line left right) := by
  unfold operation
  cases overloader? left right with
  | none => exact plainOperation_relabel op line left right
  | some o =>
    refine .heap fun h => ?_
    simp only [Heap.relabel_object, Heap.relabel_findMethod?, Heap.relabel_function, Heap.relabel_cls,
      Function.relabel_modifiers]
    cases h.findMethod? (h.object o).cls op.method with
    | none => exact .ite (plainOperation_relabel op line left right) (.raise line _)
    | some method => exact .ite (callMethod_relabel method _ _ line) (.raise line _)

theorem binaryOperation_relabel (op : BinaryOp) (line : Line) (left right : Value) :
    Relabelled f act (binaryOperation op line left right) (binaryOperation op line left right) := by
  cases op with
  | operator op => exact operation_relabel op _ line left right
  | orElse => exact .pure _
  | nilEqual => exact .ite (.pure _) (operation_relabel _ _ line left right)

omit unseen in
theorem unaryOperation_relabel (op : UnaryOp) (line : Line) (operand : Value) :
    Relabelled f act (unaryOperation op line operand) (unaryOperation op line operand) := by
  unfold unaryOperation
  split
  · exact .pure _
  · exact .pure _
  · exact .raise line _

omit unseen in
theorem step_relabel (site : AssignSite) (current : Value) (delta : Float) :
    Relabelled f act (step site current delta) (step site current delta) := by
  cases current with
  | num n => exact .pure _
  | _ => exact .raise site.line _

theorem assigned_relabel (site : AssignSite) (current : Value) (value : Option Value) :
    Relabelled f act (assigned site current value) (assigned site current value) := by
  unfold assigned
  cases site.op with
  | set => exact .pure _
  | add | subtract | multiply | divide => exact operation_relabel _ _ _ _ _
  | power => exact .bind (numbers_relabel _ _ _) fun _ => .pure _
  | increment | decrement => exact step_relabel site current _

theorem newValue_relabel {current current' : Run Value} (site : AssignSite) (value : Option Value)
    (reads : Relabelled f act current current') :
    Relabelled f act (newValue site current value) (newValue site current' value) :=
  .ite (.pure _) (.bind reads fun held => assigned_relabel site held value)

/-! Casts. -/

omit unseen in
theorem typeArgument_relabel (value : Value) (line : Line) :
    Relabelled f act (typeArgument value line) (typeArgument value line) := by
  refine .heap fun h => ?_
  rw [Heap.relabel_typeOf]
  cases value with
  | type | cls | interface | enumeration => exact .pure _
  | _ => exact .raise line _

theorem castMethodFor_relabel (h : Heap) (c : Ref .cls) (target : TypeDesc) :
    castMethodFor (h.relabel f) c target = castMethodFor h c target := by
  simp [castMethodFor]

theorem castObject_relabel (o : Ref .object) (target : TypeDesc) (line : Line) :
    Relabelled f act (castObject o target line) (castObject o target line) := by
  refine .heap fun h => ?_
  rw [Heap.relabel_object, castMethodFor_relabel]
  refine .bind (.orRaise line _) fun method => .bind (callMethod_relabel method _ [] line) fun result => .heap fun h => ?_
  rw [Heap.relabel_conforms, Heap.relabel_typeOf]
  exact .bind (.demand _ line _) fun _ => .pure result

theorem castPlain_relabel (value : Value) (target : TypeDesc) (line : Line) :
    Relabelled f act (castPlain value target line) (castPlain value target line) := by
  unfold castPlain
  split
  · split
    · exact .pure _
    · exact .raise line _
  · exact .pure _
  · exact .bind (.spell _) fun _ => .pure _
  · exact .pure _
  · exact .pure _
  · exact .pure _
  · exact .pure _
  · refine .heap fun h => ?_
    rw [Heap.relabel_typeOf]
    exact .raise line _

theorem castValue_relabel (value : Value) (target : TypeDesc) (line : Line) :
    Relabelled f act (castValue value target line) (castValue value target line) := by
  refine .heap fun h => ?_
  rw [Heap.relabel_conforms, Heap.relabel_typeOf]
  refine .ite (.pure value) ?_
  cases value with
  | object o => exact .ite (castObject_relabel o target line) (castPlain_relabel _ target line)
  | _ => exact .ite (.raise line _) (castPlain_relabel _ target line)

/-! Members. -/

omit unseen in
theorem throughClass_relabel (c : Ref .cls) (name : Name) (static qualified : Bool) :
    Relabelled f act (throughClass c name static qualified) (throughClass c name static qualified) :=
  .reading fun _ => .ite (.pure ()) (.ite (.raise name.line _) (.warn name.line _))

theorem getShared_relabel (o : Ref .object) (name : Name) : Relabelled f act (getShared o name) (getShared o name) := by
  refine .heap fun h => ?_
  simp only [Heap.relabel_object, Heap.relabel_findField?, Heap.relabel_findMethod?, Heap.relabel_function,
    Function.relabel_modifiers]
  cases h.findField? (h.object o).cls name.text with
  | some cell => exact .bind (.warn name.line _) fun _ => readCell_relabel cell name.line
  | none =>
    cases h.findMethod? (h.object o).cls name.text with
    | none => exact .raise name.line _
    | some method =>
      exact .ite (.bind (.warn name.line _) fun _ => bindMethod_relabel method _) (bindMethod_relabel method _)

theorem getOfObject_relabel (o : Ref .object) (name : Name) :
    Relabelled f act (getOfObject o name) (getOfObject o name) := by
  refine .reading fun h => ?_
  rw [Heap.relabel_object]
  cases (h.object o).fields.find? name.text with
  | some cell => exact readCell_relabel cell name.line
  | none => exact getShared_relabel o name

theorem getOfClass_relabel (c : Ref .cls) (name : Name) (qualified : Bool) :
    Relabelled f act (getOfClass c name qualified) (getOfClass c name qualified) := by
  refine .heap fun h => ?_
  simp only [Heap.relabel_findField?, Heap.relabel_findMethod?, Heap.relabel_function, Function.relabel_modifiers]
  cases h.findField? c name.text with
  | some cell => exact .bind (throughClass_relabel c name _ qualified) fun _ => readCell_relabel cell name.line
  | none =>
    cases h.findMethod? c name.text with
    | none => exact .raise name.line _
    | some method => exact .bind (throughClass_relabel c name _ qualified) fun _ => bindMethod_relabel method _

theorem getMember_relabel (target : Value) (name : Name) (qualified : Bool) :
    Relabelled f act (getMember target name qualified) (getMember target name qualified) := by
  cases target with
  | object o => exact .ite (.raise name.line _) (getOfObject_relabel o name)
  | cls c => exact getOfClass_relabel c name qualified
  | enumeration e =>
    refine .reading fun h => ?_
    rw [Heap.relabel_enumeration]
    cases (h.enumeration e).ordinal? name.text with
    | some ordinal => exact .pure _
    | none => exact .raise name.line _
  | _ => exact .raise name.line _

theorem writtenCell_relabel {store : Cell → Heap → Heap} (cell : Cell) (name : Name) (value : Value)
    (same : ∀ written h, store written (h.relabel f) = (store written h).relabel f) :
    Relabelled f act
      (do match ← Run.orRaise name.line ((← Run.heap).writeCell cell name.text value) with
          | .stored written => Run.update (store written)
          | .computed property => writeProperty property value name.line)
      (do match ← Run.orRaise name.line ((← Run.heap).writeCell cell name.text value) with
          | .stored written => Run.update (store written)
          | .computed property => writeProperty property value name.line) := by
  refine .heap fun h => ?_
  rw [Heap.relabel_writeCell]
  refine .bind (.orRaise name.line _) fun outcome => ?_
  cases outcome with
  | stored written => exact .update (same written)
  | computed property => exact writeProperty_relabel property value name.line

theorem setOfClass_relabel (owner : Ref .cls) (cell : Cell) (name : Name) (value : Value) :
    Relabelled f act (setOfClass owner cell name value) (setOfClass owner cell name value) :=
  writtenCell_relabel cell name value fun _ _ => rfl

omit unseen in
theorem ownedField_relabel (c : Ref .cls) (name : Name) : Relabelled f act (ownedField c name) (ownedField c name) := by
  refine .heap fun h => ?_
  simp only [Heap.relabel_fieldOwner?, Heap.relabel_cls]
  cases h.fieldOwner? c name.text with
  | none => exact .raise name.line _
  | some owner =>
    dsimp only
    cases (h.cls owner).fields.find? name.text with
    | none => exact .raise name.line _
    | some cell => exact .pure _

theorem setOfObject_relabel (o : Ref .object) (name : Name) (value : Value) :
    Relabelled f act (setOfObject o name value) (setOfObject o name value) := by
  refine .reading fun h => ?_
  rw [Heap.relabel_object]
  cases (h.object o).fields.find? name.text with
  | some cell => exact writtenCell_relabel cell name value fun _ _ => rfl
  | none =>
    refine .bind (ownedField_relabel _ name) fun _ => ?_
    exact .bind (.warn name.line _) fun _ => setOfClass_relabel _ _ name value

theorem setMember_relabel (target : Value) (name : Name) (value : Value) (qualified : Bool) :
    Relabelled f act (setMember target name value qualified) (setMember target name value qualified) := by
  cases target with
  | object o => exact .ite (.raise name.line _) (setOfObject_relabel o name value)
  | cls c =>
    refine .bind (ownedField_relabel c name) fun _ => ?_
    exact .ite (setOfClass_relabel _ _ name value) (.reading fun _ => .raise name.line _)
  | enumeration e => exact .reading fun _ => .raise name.line _
  | _ => exact .raise name.line _

/-! Indexing. -/

theorem invoke_relabel (target : Value) (method : String) (args : List Value) (line : Line) :
    Relabelled f act (invoke target method args line) (invoke target method args line) := by
  cases target with
  | object o =>
    refine .heap fun h => ?_
    simp only [Heap.relabel_object, Heap.relabel_findMethod?, Heap.relabel_cls]
    cases h.findMethod? (h.object o).cls method with
    | none => exact .raise line _
    | some found => exact callMethod_relabel found _ args line
  | _ => exact .raise line _

omit unseen in
theorem indexNumber_relabel (position : Value) (line : Line) :
    Relabelled f act (indexNumber position line) (indexNumber position line) := by
  cases position with
  | num n => exact .pure n
  | _ =>
    refine .heap fun h => ?_
    rw [Heap.relabel_typeOf]
    exact .raise line _

theorem getIndex_relabel (target position : Value) (line : Line) :
    Relabelled f act (getIndex target position line) (getIndex target position line) := by
  unfold getIndex
  split
  · exact .bind (indexNumber_relabel position line) fun _ => .heap fun _ => .orRaise line _
  · exact invoke_relabel _ _ _ line

theorem setIndex_relabel (target position value : Value) (line : Line) :
    Relabelled f act (setIndex target position value line) (setIndex target position value line) := by
  unfold setIndex
  split
  · refine .bind (indexNumber_relabel position line) fun _ => .heap fun _ => ?_
    rw [Heap.relabel_slotFor]
    refine .ite (.bind (.orRaise line _) fun _ => .stop _) ?_
    exact .bind (.orRaise line _) fun _ => .update fun _ => rfl
  · exact .bind (invoke_relabel _ _ _ line) fun _ => .pure ()

end Treewalk.Evaluator
