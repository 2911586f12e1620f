import Treewalk.Proofs.RelabelMember
import Treewalk.Proofs.Composition

/-!
Instances, expressions, declarations and statements, and with them whole activities, none of which looks at the ids of
references.
-/

namespace Treewalk

variable {f : Reference → Reference} {act : (a : Activity) → Machine → Outcome a.Result}

namespace Evaluator

/-! Instances. -/

theorem bindProperty_relabel (property : Property) (receiver : Value) :
    Relabelled f act (bindProperty property receiver) (bindProperty property receiver) :=
  .bind (bindFunction_relabel property.getter receiver) fun _ =>
    .bind (.mapM fun setter => bindFunction_relabel setter receiver) fun _ => .pure _

theorem propertyCell_relabel (property : Property) : Relabelled f act (propertyCell property) (propertyCell property) :=
  .bind (.allocate fun _ => rfl) fun _ => .pure _

theorem ownCell_relabel (cell : Cell) (scope : Ref .scope) (receiver : Value) :
    Relabelled f act (ownCell cell scope receiver) (ownCell cell scope receiver) := by
  refine .bind (.mapM fun t => typeIn_relabel t scope) fun declared => ?_
  cases cell.content with
  | plain value => exact .pure _
  | computed p =>
    exact .reading fun _ => .bind (bindProperty_relabel _ receiver) fun _ => propertyCell_relabel _

theorem ownCells_relabel (receiver : Value) (fields : List (String × Cell × Ref .scope)) :
    Relabelled f act (ownCells receiver fields) (ownCells receiver fields) := by
  induction fields with
  | nil => exact .pure []
  | cons field rest ih => exact .bind (ownCell_relabel _ _ receiver) fun _ => .bind ih fun _ => .pure _

theorem typeArguments_relabel (line : Line) (values : List Value) :
    Relabelled f act (typeArguments line values) (typeArguments line values) := by
  induction values with
  | nil => exact .pure []
  | cons value rest ih => exact .bind (typeArgument_relabel value line) fun _ => .bind ih fun _ => .pure _

theorem templateScope_relabel (c : Class) (generics : List Value) (line : Line) :
    Relabelled f act (templateScope c generics line) (templateScope c generics line) :=
  .ite (.pure none) (.bind (typeArguments_relabel line generics) fun _ => .reading fun _ =>
    .map _ (.allocate fun _ => rfl))

theorem fillFields_relabel (o : Ref .object) (c : Ref .cls) (scope : Option (Ref .scope)) :
    Relabelled f act (fillFields o c scope) (fillFields o c scope) := by
  refine .heap fun h => ?_
  simp only [Heap.relabel_instanceFields, Heap.relabel_cls]
  exact .bind (ownCells_relabel _ _) fun _ => .update fun _ => rfl

variable [unseen : Unseen f act]

theorem runConstructor_relabel (o : Ref .object) (c : Ref .cls) (args : List Value) (line : Line) :
    Relabelled f act (runConstructor o c args line) (runConstructor o c args line) := by
  refine .reading fun h => ?_
  rw [Heap.relabel_constructor?]
  cases h.constructor? c with
  | some method => exact callMethod_relabel method _ args line
  | none => exact .bind (.demand _ line _) fun _ => .pure _

theorem construct_relabel (c : Ref .cls) (args generics : List Value) (line : Line) :
    Relabelled f act (construct c args generics line) (construct c args generics line) :=
  .reading fun _ => .bind (.demand _ line _) fun _ => .bind (templateScope_relabel _ generics line) fun scope =>
    .bind (.allocate fun _ => rfl) fun o => .bind (fillFields_relabel o c scope) fun _ =>
      runConstructor_relabel o c args line

/-! Expressions. -/

theorem assign_relabel (ref : Reference) (site : AssignSite) (value : Option Expr) :
    Relabelled f act (assign ref site value) (assign (f ref) site (value.map (Expr.relabel f))) := by
  refine .bind (.bind (option_relabel value) fun operand => ?_) fun result => ?_
  · exact newValue_relabel site operand (readVariable_relabel ref)
  · exact .bind (writeVariable_relabel ref result) fun _ => .pure result

theorem setProperty_relabel (object : Expr) (name : Name) (site : AssignSite) (value : Option Expr) (qualified : Bool) :
    Relabelled f act (setProperty object name site value qualified)
      (setProperty (object.relabel f) name site (value.map (Expr.relabel f)) qualified) := by
  refine .bind (.bind (.eval object) fun target => ?_) fun x => ?_
  · refine .bind (option_relabel value) fun operand => ?_
    exact .bind (newValue_relabel site operand (getMember_relabel target name qualified)) fun _ => .pure _
  · exact .bind (setMember_relabel x.1 name x.2 qualified) fun _ => .pure _

theorem setIndexed_relabel (object : Expr) (line : Line) (position : Expr) (site : AssignSite) (value : Option Expr) :
    Relabelled f act (setIndexed object line position site value)
      (setIndexed (object.relabel f) line (position.relabel f) site (value.map (Expr.relabel f))) := by
  refine .bind (.bind (.eval object) fun target => .bind (.eval position) fun index => ?_) fun x => ?_
  · refine .bind (option_relabel value) fun operand => ?_
    exact .bind (newValue_relabel site operand (getIndex_relabel target index line)) fun _ => .pure _
  · exact .bind (setIndex_relabel x.1 x.2.1 x.2.2 line) fun _ => .pure _

theorem apply_relabel (callee : Value) (args generics : List Value) (line : Line) :
    Relabelled f act (apply callee args generics line) (apply callee args generics line) := by
  cases callee with
  | function g =>
    refine .reading fun h => ?_
    simp only [Heap.relabel_function, Function.relabel_modifiers, Function.relabel_name]
    exact .ite (.raise line _) (.call _ args generics line)
  | cls c => exact construct_relabel c args generics line
  | _ => exact .raise line _

theorem evalCall_relabel (callee : Expr) (line : Line) (args generics : List Expr) (nullSafe : Bool) :
    Relabelled f act (evalCall callee line args generics nullSafe)
      (evalCall (callee.relabel f) line (args.map (Expr.relabel f)) (generics.map (Expr.relabel f)) nullSafe) :=
  .bind (.eval callee) fun target => .ite (.pure _) (.bind (exprs_relabel args) fun args =>
    .bind (exprs_relabel generics) fun generics => apply_relabel target args generics line)

theorem nearerReceiver_relabel (line : Line) (depth : Nat) :
    Relabelled f act (nearerReceiver line depth) (nearerReceiver line depth) := by
  cases depth with
  | zero => exact .stop _
  | succ near =>
    refine .get fun m => ?_
    simp only [Machine.relabel, Heap.relabel_lookupAt]
    exact .bind (.orRaise _ _) fun cell => readCell_relabel cell _

theorem superMethod_relabel (ref : Reference) (method : Name) :
    Relabelled f act (superMethod ref method) (superMethod (f ref) method) := by
  unfold superMethod
  rw [unseen.depth, unseen.name]
  cases ref.depth with
  | none => exact .raise _ _
  | some depth =>
    refine .get fun m => ?_
    simp only [Machine.relabel, Heap.relabel_lookupAt]
    refine .bind (.orRaise _ _) fun cell => .bind (readCell_relabel cell _) fun value => ?_
    cases value with
    | cls superclass =>
      refine .bind (nearerReceiver_relabel _ depth) fun receiver => .reading fun h => ?_
      rw [Heap.relabel_findMethod?]
      cases h.findMethod? superclass method.text with
      | some method => exact bindMethod_relabel method receiver
      | none => exact .raise _ _
    | _ => exact .raise _ _

omit unseen in
theorem arraySize_relabel (size : Value) (line : Line) :
    Relabelled f act (arraySize size line) (arraySize size line) := by
  cases size with
  | num n =>
    dsimp only [arraySize]
    cases Number.rounded n with
    | whole negative magnitude => exact .ite (.raise line _) (.ite (.pure magnitude) (.raise line _))
    | _ => exact .raise line _
  | _ =>
    refine .heap fun h => ?_
    rw [Heap.relabel_text]
    exact .raise line _

theorem sizedArray_relabel (line : Line) (elementType : TypeDesc) (size : Expr) :
    Relabelled f act (sizedArray line elementType size) (sizedArray line elementType (size.relabel f)) :=
  .bind (typeHere_relabel elementType) fun _ => .bind (.eval size) fun size =>
    .bind (arraySize_relabel size line) fun _ => .bind (.allocate fun _ => rfl) fun _ => .pure _

theorem elementTypeOf_relabel (h : Heap) (declared : Option TypeDesc) (values : List Value) :
    elementTypeOf (h.relabel f) declared values = elementTypeOf h declared values := by
  unfold elementTypeOf
  split <;> simp

theorem checkElements_relabel (h : Heap) (elementType : TypeDesc) (i : Nat) (values : List Value) :
    checkElements (h.relabel f) elementType i values = checkElements h elementType i values := by
  induction values generalizing i with
  | nil => rfl
  | cons value rest ih => simp [checkElements, ih]

theorem listedArray_relabel (line : Line) (declared : Option TypeDesc) (elements : List Expr) :
    Relabelled f act (listedArray line declared elements)
      (listedArray line declared (elements.map (Expr.relabel f))) := by
  refine .bind (.mapM typeHere_relabel) fun _ => .bind (exprs_relabel elements) fun values => .heap fun h => ?_
  simp only [elementTypeOf_relabel, checkElements_relabel]
  exact .bind (.orRaise line _) fun _ => .bind (.allocate fun _ => rfl) fun _ => .pure _

omit unseen in
theorem lengthOf_relabel (line : Line) (value : Value) :
    Relabelled f act (lengthOf line value) (lengthOf line value) := by
  cases value with
  | array a => exact .reading fun _ => .pure _
  | str s => exact .pure _
  | _ =>
    refine .heap fun h => ?_
    rw [Heap.relabel_typeOf]
    exact .raise line _

omit unseen in
theorem addFunction_relabel (decl : FunctionDecl) (closure : Ref .scope) (constructs : Bool) :
    Relabelled f act (Run.allocate (·.addFunction (.ofDecl decl closure constructs)))
      (Run.allocate (·.addFunction (.ofDecl (decl.relabel f) closure constructs))) := by
  refine .allocate fun h => ?_
  rw [Function.relabel_ofDecl]
  exact h.relabel_addFunction f _

theorem evalExpr_relabel (e : Expr) : Relabelled f act (evalExpr e) (evalExpr (e.relabel f)) := by
  cases e with
  | literal value => exact .pure _
  | group inner => exact .eval inner
  | unary op line operand => exact .bind (.eval operand) fun value => unaryOperation_relabel op line value
  | binary op line left right =>
    exact .bind (.eval left) fun l => .bind (.eval right) fun r => binaryOperation_relabel op line l r
  | logical op line left right => exact .bind (.eval left) fun l => .ite (.pure l) (.eval right)
  | ternary line condition yes no => exact .bind (.eval condition) fun _ => .ite (.eval yes) (.eval no)
  | use ref | this ref | value ref => exact readVariable_relabel ref
  | super ref method => exact superMethod_relabel ref method
  | assign ref site value =>
    simp only [Expr.relabel, Expr.relabelOption_eq]
    exact assign_relabel ref site value
  | call callee line args generics nullSafe =>
    simp only [Expr.relabel, Expr.relabelAll_eq]
    exact evalCall_relabel callee line args generics nullSafe
  | get object name nullSafe =>
    exact .bind (.eval object) fun target => .ite (.pure _) (getMember_relabel target name false)
  | staticGet object name => exact .bind (.eval object) fun target => getMember_relabel target name true
  | set object name site value =>
    simp only [Expr.relabel, Expr.relabelOption_eq]
    exact setProperty_relabel object name site value false
  | staticSet object name site value =>
    simp only [Expr.relabel, Expr.relabelOption_eq]
    exact setProperty_relabel object name site value true
  | index object line position =>
    exact .bind (.eval object) fun target => .bind (.eval position) fun index => getIndex_relabel target index line
  | indexSet object line position site value =>
    simp only [Expr.relabel, Expr.relabelOption_eq]
    exact setIndexed_relabel object line position site value
  | cast operand line target =>
    exact .bind (.eval operand) fun value => .bind (.eval target) fun desc =>
      .bind (typeArgument_relabel desc line) fun desc => castValue_relabel value desc line
  | array line elementType elements =>
    simp only [Expr.relabel, Expr.relabelAll_eq]
    exact listedArray_relabel line elementType elements
  | sizedArray line elementType size => exact sizedArray_relabel line elementType size
  | lambda decl => exact .currentScope fun closure => .bind (addFunction_relabel decl closure false) fun _ => .pure _
  | type line desc => exact .bind (typeHere_relabel desc) fun _ => .pure _
  | length line operand => exact .bind (.eval operand) fun value => lengthOf_relabel line value
  | typeOf line operand =>
    refine .bind (.eval operand) fun value => .heap fun h => ?_
    rw [Heap.relabel_typeOf]
    exact .pure _

/-! Declarations. -/

omit unseen in
theorem defineChecked_relabel (name : Name) (cell : Cell) :
    Relabelled f act (defineChecked name cell) (defineChecked name cell) :=
  .inGlobalScope fun _ => .bind (.demand _ name.line _) fun _ => .currentScope fun _ => .update fun _ => rfl

theorem initialValue_relabel (decl : VarDecl) (scope : Ref .scope) :
    Relabelled f act (initialValue decl scope) (initialValue (decl.relabel f) scope) := by
  rw [VarDecl.relabel_eq]
  refine .bind (option_relabel decl.initializer) fun value => .heap fun h => ?_
  simp only [Heap.relabel_resolveType, Heap.relabel_checkType]
  cases value with
  | none => exact .pure _
  | some value => exact .bind (.orRaise _ _) fun _ => .bind (.orRaise _ _) fun _ => .pure _

theorem declareVariable_relabel (decl : VarDecl) :
    Relabelled f act (declareVariable decl) (declareVariable (decl.relabel f)) := by
  refine .currentScope fun scope => .bind (initialValue_relabel decl scope) fun x => ?_
  rw [VarDecl.relabel_eq]
  exact defineChecked_relabel decl.name _

omit unseen in
theorem declaredProperty_relabel (decl : PropertyDecl) (closure : Ref .scope) (declared : TypeDesc) :
    Relabelled f act (declaredProperty decl closure declared) (declaredProperty (decl.relabel f) closure declared) := by
  rw [PropertyDecl.relabel_eq]
  refine .bind (addFunction_relabel decl.getter closure false) fun getter => .bind ?_ fun setter => .pure _
  cases decl.setter with
  | none => exact .pure none
  | some setter => exact .map _ (addFunction_relabel setter closure false)

omit unseen in
theorem resolvedPropertyCell_relabel (decl : PropertyDecl) (closure : Ref .scope) :
    Relabelled f act (resolvedPropertyCell decl closure) (resolvedPropertyCell (decl.relabel f) closure) := by
  unfold resolvedPropertyCell
  rw [show (decl.relabel f).declared = decl.declared by rw [PropertyDecl.relabel_eq]]
  refine .reading fun h => ?_
  rw [Heap.relabel_resolveType]
  exact .bind (declaredProperty_relabel decl closure _) fun property => propertyCell_relabel property

omit unseen in
theorem declareProperty_relabel (decl : PropertyDecl) :
    Relabelled f act (declareProperty decl) (declareProperty (decl.relabel f)) := by
  refine .currentScope fun closure => .bind (resolvedPropertyCell_relabel decl closure) fun cell => ?_
  rw [PropertyDecl.relabel_eq]
  exact defineChecked_relabel decl.name cell

omit unseen in
theorem declareFunction_relabel (decl : FunctionDecl) :
    Relabelled f act (declareFunction decl) (declareFunction (decl.relabel f)) := by
  refine .currentScope fun closure => .bind (addFunction_relabel decl closure false) fun g => ?_
  rw [FunctionDecl.relabel_eq]
  exact defineChecked_relabel decl.name _

omit unseen in
theorem declareEnum_relabel (name : Name) (elements : List Name) :
    Relabelled f act (declareEnum name elements) (declareEnum name elements) :=
  .bind (.allocate fun _ => rfl) fun _ => .currentScope fun _ => .update fun _ => rfl

/-! Classes. -/

omit unseen in
theorem declaredMethod_relabel (className : String) (scope : Ref .scope) (interfaces : List (Ref .interface))
    (decl : FunctionDecl) :
    Relabelled f act (declaredMethod className scope interfaces decl)
      (declaredMethod className scope interfaces (decl.relabel f)) := by
  have name : (decl.relabel f).name = decl.name := by rw [FunctionDecl.relabel_eq]
  have shape (g : Function) : checkShape className (g.relabel f) = checkShape className g := by
    simp [checkShape]
  simp only [declaredMethod, name, Function.relabel_ofDecl, shape, Function.relabel_hasBody, Function.relabel_name]
  refine .bind (.orRaise _ _) fun _ => .ite (.allocate fun h => h.relabel_addFunction f _) (.heap fun h => ?_)
  have same (g : Function) : (h.relabel f).defaultFor? (g.relabel f) = h.defaultFor? g :=
    funext (h.relabel_defaultFor? f g)
  rw [same]
  cases interfaces.findSome? _ with
  | some supplied => exact .pure supplied
  | none => exact .raise _ _

omit unseen in
theorem declaredMethods_relabel (className : String) (scope : Ref .scope) (interfaces : List (Ref .interface))
    (decls : List FunctionDecl) (methods : NameMap (Ref .function)) :
    Relabelled f act (declaredMethods className scope interfaces decls methods)
      (declaredMethods className scope interfaces (decls.map (FunctionDecl.relabel f)) methods) := by
  induction decls generalizing methods with
  | nil => exact .pure methods
  | cons decl rest ih =>
    refine .bind (declaredMethod_relabel className scope interfaces decl) fun method => ?_
    rw [show (decl.relabel f).name = decl.name by rw [FunctionDecl.relabel_eq]]
    exact ih _

theorem addDefaults_relabel (h : Heap) (superclass : Ref .cls) (interfaces : List (Ref .interface))
    (methods : NameMap (Ref .function)) :
    addDefaults (h.relabel f) superclass interfaces methods = addDefaults h superclass interfaces methods := by
  have same : (h.relabel f).defaults = h.defaults := funext (h.relabel_defaults f)
  simp [addDefaults, same]

omit unseen in
theorem fieldProperty_relabel (scope : Ref .scope) (decl : PropertyDecl) :
    Relabelled f act (fieldProperty scope decl) (fieldProperty scope (decl.relabel f)) := by
  have same : (decl.relabel f).modifiers = decl.modifiers ∧ (decl.relabel f).declared = decl.declared := by
    simp [PropertyDecl.relabel_eq]
  unfold fieldProperty
  rw [same.1, same.2]
  exact .ite (resolvedPropertyCell_relabel decl scope)
    (.bind (declaredProperty_relabel decl scope _) fun property => propertyCell_relabel property)

theorem fieldCell_relabel (scope : Ref .scope) (field : Field) :
    Relabelled f act (fieldCell scope field) (fieldCell scope (field.relabel f)) := by
  cases field with
  | var decl =>
    refine .bind (initialValue_relabel decl scope) fun x => ?_
    rw [VarDecl.relabel_eq]
    exact .pure _
  | property decl =>
    refine .bind (fieldProperty_relabel scope decl) fun cell => ?_
    rw [PropertyDecl.relabel_eq]
    exact .pure _

theorem fieldCells_relabel (scope : Ref .scope) (fields : List Field) (cells : NameMap Cell) :
    Relabelled f act (fieldCells scope fields cells) (fieldCells scope (fields.map (Field.relabel f)) cells) := by
  induction fields generalizing cells with
  | nil => exact .pure cells
  | cons field rest ih => exact .bind (fieldCell_relabel scope field) fun _ => ih _

omit unseen in
theorem bindStatic_relabel (receiver : Value) (cell : Cell) :
    Relabelled f act (bindStatic receiver cell) (bindStatic receiver cell) := by
  unfold bindStatic
  cases cell.content with
  | plain value => exact .pure cell
  | computed p =>
    exact .ite (.reading fun _ => .bind (bindProperty_relabel _ receiver) fun bound => propertyCell_relabel bound)
      (.pure cell)

omit unseen in
theorem bindStatics_relabel (receiver : Value) (fields : List (String × Cell)) :
    Relabelled f act (bindStatics receiver fields) (bindStatics receiver fields) := by
  induction fields with
  | nil => exact .pure []
  | cons field rest ih => exact .bind (bindStatic_relabel receiver _) fun _ => .bind ih fun _ => .pure _

theorem evalSuperclass_relabel (decl : ClassDecl) :
    Relabelled f act (evalSuperclass decl) (evalSuperclass (decl.relabel f)) := by
  rw [ClassDecl.relabel_eq]
  unfold evalSuperclass
  cases decl.superclass with
  | none => exact .pure _
  | some ref =>
    refine .bind (.eval (.use ref)) fun value => ?_
    cases value with
    | cls c => exact .bind (.demand _ _ _) fun _ => .pure c
    | _ => exact .raise _ _

theorem evalInterfaces_relabel (name : Name) (refs : List Reference) :
    Relabelled f act (evalInterfaces name refs) (evalInterfaces name (refs.map f)) := by
  induction refs with
  | nil => exact .pure []
  | cons ref rest ih =>
    refine .bind (.eval (.use ref)) fun value => ?_
    cases value with
    | interface i => exact .bind ih fun _ => .pure _
    | _ =>
      refine .heap fun h => ?_
      rw [Heap.relabel_text]
      exact .raise _ _

omit unseen in
theorem addClass_relabel (cls : Class) : Relabelled f act (addClass cls) (addClass cls) :=
  .bind (.allocate fun _ => rfl) fun c => .bind (bindStatics_relabel _ _) fun _ =>
    .bind (.update fun _ => rfl) fun _ => .pure c

theorem declaredClass_relabel (decl : ClassDecl) (superclass : Ref .cls) (interfaces : List (Ref .interface))
    (scope : Ref .scope) :
    Relabelled f act (declaredClass decl superclass interfaces scope)
      (declaredClass (decl.relabel f) superclass interfaces scope) := by
  rw [ClassDecl.relabel_eq]
  refine .bind (declaredMethods_relabel _ scope interfaces decl.methods .empty) fun methods => .heap fun h => ?_
  simp only [addDefaults_relabel]
  refine .bind (.inScope scope (fieldCells_relabel scope decl.fields .empty)) fun fields => .heap fun h => ?_
  simp only [Heap.relabel_checkConformance, Heap.relabel_interface]
  exact .bind (.orRaise _ _) fun _ => .pure _

theorem declareClass_relabel (decl : ClassDecl) :
    Relabelled f act (declareClass decl) (declareClass (decl.relabel f)) := by
  have parts : (decl.relabel f).name = decl.name ∧ (decl.relabel f).interfaces = decl.interfaces.map f ∧
      (decl.relabel f).templates = decl.templates := by
    simp [ClassDecl.relabel_eq]
  unfold declareClass
  rw [parts.1, parts.2.1, parts.2.2]
  refine .bind (evalSuperclass_relabel decl) fun superclass => .bind (evalInterfaces_relabel _ _) fun interfaces => ?_
  refine .currentScope fun outer => .bind (.update fun _ => rfl) fun _ => .bind (.allocate fun _ => rfl) fun scope => ?_
  refine .bind (declaredClass_relabel decl superclass interfaces scope) fun cls => ?_
  exact .bind (addClass_relabel cls) fun c => .update fun _ => rfl

/-! Interfaces. -/

omit unseen in
theorem interfaceMethods_relabel (closure : Ref .scope) (decls : List FunctionDecl) (methods : NameMap (Ref .function)) :
    Relabelled f act (interfaceMethods closure decls methods)
      (interfaceMethods closure (decls.map (FunctionDecl.relabel f)) methods) := by
  induction decls generalizing methods with
  | nil => exact .pure methods
  | cons decl rest ih =>
    refine .bind (addFunction_relabel decl closure false) fun g => ?_
    rw [show (decl.relabel f).name = decl.name by rw [FunctionDecl.relabel_eq]]
    exact ih _

theorem requiredCell_relabel (closure : Ref .scope) (field : Field) :
    Relabelled f act (requiredCell closure field) (requiredCell closure (field.relabel f)) := by
  cases field with
  | var decl =>
    simp only [Field.relabel, VarDecl.relabel_eq]
    exact .bind (option_relabel decl.initializer) fun _ => .pure _
  | property decl =>
    refine .bind (resolvedPropertyCell_relabel decl closure) fun cell => ?_
    rw [PropertyDecl.relabel_eq]
    exact .pure _

theorem requiredCells_relabel (closure : Ref .scope) (fields : List Field) (cells : NameMap Cell) :
    Relabelled f act (requiredCells closure fields cells)
      (requiredCells closure (fields.map (Field.relabel f)) cells) := by
  induction fields generalizing cells with
  | nil => exact .pure cells
  | cons field rest ih => exact .bind (requiredCell_relabel closure field) fun _ => ih _

theorem declareInterface_relabel (decl : InterfaceDecl) :
    Relabelled f act (declareInterface decl) (declareInterface (decl.relabel f)) := by
  rw [InterfaceDecl.relabel_eq]
  refine .currentScope fun scope => .bind (interfaceMethods_relabel scope decl.methods .empty) fun methods => ?_
  refine .bind (requiredCells_relabel scope decl.fields .empty) fun fields => ?_
  exact .bind (.allocate fun _ => rfl) fun i => .update fun _ => rfl

/-! Statements. -/

theorem whileLoop_relabel (condition : Expr) {body body' : Run Signal} (increment : Option Expr)
    (round : Relabelled f act body body') (fuel : Nat) :
    Relabelled f act (whileLoop condition body increment fuel)
      (whileLoop (condition.relabel f) body' (increment.map (Expr.relabel f)) fuel) := by
  induction fuel with
  | zero => exact .stop _
  | succ fuel ih =>
    refine .bind (.eval condition) fun _ => .ite (.bind round fun signal => ?_) (.pure _)
    cases signal with
    | normal | continuing => exact .bind (option_relabel increment) fun _ => ih
    | _ => exact .pure _

theorem untilLoop_relabel (condition : Expr) (body : Stmt) (fuel : Nat) :
    Relabelled f act (untilLoop condition body fuel) (untilLoop (condition.relabel f) (body.relabel f) fuel) := by
  induction fuel with
  | zero => exact .stop _
  | succ fuel ih =>
    refine .bind (.eval condition) fun _ => .ite (.pure _) (.bind (.exec body) fun signal => ?_)
    cases signal with
    | normal | continuing => exact ih
    | _ => exact .pure _

omit unseen in
theorem copyNames_relabel (source target : Ref .scope) (names : List Name) :
    Relabelled f act (copyNames source target names) (copyNames source target names) := by
  induction names with
  | nil => exact .pure ()
  | cons name rest ih =>
    refine .reading fun h => ?_
    rw [Heap.relabel_here?]
    cases h.here? source name.text with
    | some cell => exact .bind (.update fun _ => rfl) fun _ => ih
    | none => exact .bind (.pure ()) fun _ => ih

theorem iteration_relabel (body : Stmt) (names : List Name) :
    Relabelled f act (iteration body names) (iteration (body.relabel f) names) := by
  refine .currentScope fun outer => .reading fun h => ?_
  rw [Heap.relabel_copies]
  exact .bind (.allocate fun _ => rfl) fun scope => .bind (block_relabel scope [body]) fun signal =>
    .bind (copyNames_relabel scope outer names) fun _ => .pure signal

theorem runWhile_relabel (fuel : Nat) (condition : Expr) (body : Stmt) (increment : Option Expr) (names : List Name) :
    Relabelled f act (runWhile fuel condition body increment names)
      (runWhile fuel (condition.relabel f) (body.relabel f) (increment.map (Expr.relabel f)) names) :=
  .ite (whileLoop_relabel condition increment (.exec body) fuel)
    (whileLoop_relabel condition increment (iteration_relabel body names) fuel)

theorem runWhen_relabel (fuel : Nat) (condition : Expr) (body : Stmt) (finish : Option Stmt) :
    Relabelled f act (runWhen fuel condition body finish)
      (runWhen fuel (condition.relabel f) (body.relabel f) (finish.map (Stmt.relabel f))) := by
  refine .bind (untilLoop_relabel condition body fuel) fun signal => ?_
  cases signal with
  | normal =>
    cases finish with
    | none => exact .pure _
    | some last => exact .exec last
  | _ => exact .pure _

/-- The body that is selected has other ids. What is done with it is said of both. -/
theorem selectCase_relabel {α : Type} {k k' : Option Stmt → Run α} (line : Line) (value : Value) (default : Option Stmt)
    (cases : List (Expr × Stmt)) (next : ∀ s, Relabelled f act (k s) (k' (s.map (Stmt.relabel f)))) :
    Relabelled f act (selectCase line value default cases >>= k)
      (selectCase line value (default.map (Stmt.relabel f))
        (cases.map fun (candidate, body) => (candidate.relabel f, body.relabel f)) >>= k') := by
  induction cases with
  | nil => exact next default
  | cons first rest ih =>
    simp only [selectCase, List.map_cons, Run.bind_assoc]
    refine .bind (.eval first.1) fun other => .bind (operation_relabel .equal "switch" line value other) fun decided => ?_
    split
    · exact next (some first.2)
    · exact ih

theorem runSwitch_relabel (line : Line) (value : Expr) (cases : List (Expr × Stmt)) (default : Option Stmt) :
    Relabelled f act (runSwitch line value cases default)
      (runSwitch line (value.relabel f) (cases.map fun (candidate, body) => (candidate.relabel f, body.relabel f))
        (default.map (Stmt.relabel f))) := by
  refine .bind (.eval value) fun value => selectCase_relabel line value default cases fun selected => ?_
  cases selected with
  | none => exact .pure _
  | some body =>
    refine .bind (.exec body) fun signal => ?_
    cases signal <;> exact .pure _

theorem handle_relabel (name : Option Name) (handler : List Stmt) (e : RuntimeError) :
    Relabelled f act (handle name handler e) (handle name (handler.map (Stmt.relabel f)) e) :=
  .currentScope fun _ => .bind (.allocate fun _ => rfl) fun scope => block_relabel scope handler

theorem runTest_relabel (line : Line) (name : Expr) (body : Stmt) :
    Relabelled f act (runTest line name body) (runTest line (name.relabel f) (body.relabel f)) := by
  refine .bind (.eval name) fun title => ?_
  cases title with
  | str text =>
    refine .bind (.exec body) fun signal => ?_
    have verdict : Relabelled f act (passes line signal) (passes line signal) := by
      cases signal with
      | returning value => exact .raise line _
      | _ => exact .pure _
    exact .bind verdict fun _ => .bind (.printOut _) fun _ => .pure _
  | _ => exact .raise line _

theorem evalStmt_relabel (fuel : Nat) (s : Stmt) :
    Relabelled f act (evalStmt fuel s) (evalStmt fuel (s.relabel f)) := by
  have normally {c c' : Run Unit} (first : Relabelled f act c c') :
      Relabelled f act (c >>= fun _ => pure Signal.normal) (c' >>= fun _ => pure Signal.normal) :=
    .bind first fun _ => .pure _
  cases s with
  | expr e => exact .bind (.eval e) fun _ => .pure _
  | var decl => exact normally (declareVariable_relabel decl)
  | property decl => exact normally (declareProperty_relabel decl)
  | function decl => exact normally (declareFunction_relabel decl)
  | classDecl decl => exact normally (declareClass_relabel decl)
  | interfaceDecl decl => exact normally (declareInterface_relabel decl)
  | enumDecl name elements => exact normally (declareEnum_relabel name elements)
  | block body =>
    simp only [Stmt.relabel, Stmt.relabelAll_eq]
    exact .currentScope fun _ => .bind (.allocate fun _ => rfl) fun scope => block_relabel scope body
  | ifElse condition yes no =>
    refine .bind (.eval condition) fun _ => .ite (.exec yes) ?_
    cases no with
    | none => exact .pure _
    | some other => exact .exec other
  | whileLoop condition body increment names =>
    simp only [Stmt.relabel, Expr.relabelOption_eq]
    exact runWhile_relabel fuel condition body increment names
  | whenLoop condition body finish =>
    simp only [Stmt.relabel, Stmt.relabelOption_eq]
    exact runWhen_relabel fuel condition body finish
  | switch line value cases default =>
    simp only [Stmt.relabel, Stmt.relabelOption_eq, Stmt.relabelCases_eq]
    exact runSwitch_relabel line value cases default
  | tryCatch body name handler =>
    simp only [Stmt.relabel, Stmt.relabelAll_eq]
    exact .catching (.exec body) fun e => handle_relabel name handler e
  | test line name body => exact runTest_relabel line name body
  | expect line value => exact .bind (.eval value) fun _ => .pure _
  | returning line value =>
    simp only [Stmt.relabel, Expr.relabelOption_eq]
    exact .bind (option_relabel value) fun _ => .pure _
  | breaking line | continuing line | moduleName line name => exact .pure _

end Evaluator

/-! Whole activities. -/

theorem perform_unseen (name : ∀ ref, (f ref).name = ref.name) (depth : ∀ ref, (f ref).depth = ref.depth)
    (fuel : Nat) : Unseen f (perform fuel) := by
  induction fuel with
  | zero => exact ⟨name, depth, fun _ _ => rfl, fun _ _ => rfl, fun _ _ _ _ _ => rfl, fun _ _ => rfl⟩
  | succ fuel ih =>
    exact ⟨name, depth, fun e m => Evaluator.evalExpr_relabel e m, fun s m => Evaluator.evalStmt_relabel fuel s m,
      fun g args generics line m => Evaluator.callFunction_relabel g args generics line m,
      fun value m => Evaluator.textOf_relabel value m⟩

namespace Machine

variable (name : ∀ ref, (f ref).name = ref.name) (depth : ∀ ref, (f ref).depth = ref.depth)

include name depth

/-- A program with other ids does the same. -/
theorem interpret_relabel (fuel : Nat) (program : List Stmt) (m : Machine) :
    (m.relabel f).interpret fuel (program.map (Stmt.relabel f)) =
      ((m.interpret fuel program).1, (m.interpret fuel program).2.relabel f) := by
  induction program generalizing m with
  | nil => rfl
  | cons s rest ih =>
    have first := (perform_unseen name depth fuel).stmt s m
    simp only [List.map_cons, interpret, first]
    cases perform fuel (.stmt s) m with
    | ok signal after => exact ih after
    | error reason after => rfl

theorem global_relabel (fuel : Nat) (x : String) (m : Machine) :
    (m.relabel f).global fuel x = ((m.global fuel x).1, (m.global fuel x).2.relabel f) := by
  have unseen := perform_unseen name depth fuel
  unfold global
  rw [show (m.relabel f).heap.here? .globals x = m.heap.here? .globals x from rfl]
  cases m.heap.here? .globals x with
  | none => rfl
  | some cell =>
    have read : Relabelled f (perform fuel) _ _ := Evaluator.readCell_relabel cell 0
    simp only [read m]
    cases (Evaluator.readCell cell 0 m).outcome (perform fuel) <;> rfl

end Machine

end Treewalk
