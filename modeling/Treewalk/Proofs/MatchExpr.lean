import Treewalk.Eval.Expr
import Treewalk.Proofs.MatchMember
import Treewalk.Proofs.SafeConstruct

/-!
Instances and expressions on two machines that are tied together. An instance may get a scope of its own,
which is clear because the scope of its class is.
-/

namespace Treewalk.Evaluator

open Tie

variable {T : Tie} {h : Heap} {r : Ref .scope} {seat : Seat}

/-! Instances. -/

theorem bindProperty_matches (property : Property) (receiver : Value) :
    T.Matches h r Same (bindProperty property receiver) (bindProperty property receiver) := by
  refine .andThen (bindFunction_matches property.getter receiver) fun _ _ _ _ => ?_
  refine .andThen (.mapM fun setter _ => bindFunction_matches setter receiver) fun _ _ _ _ => ?_
  exact .value _

theorem propertyCell_matches (property : Property) :
    T.Matches h r Same (propertyCell property) (propertyCell property) := by
  refine .andThen (.allocate (fun _ _ => rfl) (fun _ => rfl) fun _ _ guarded => ?_) fun _ _ _ _ => .value _
  exact guarded.sameScopes rfl

theorem ownCell_matches {scope : Ref .scope} (clear : T.Clear h scope) (cell : Cell) (receiver : Value) :
    T.Matches h r Same (ownCell cell scope receiver) (ownCell cell scope receiver) := by
  refine .andThen (.mapM fun t _ => typeIn_matches (.free clear) t) fun _ declared _ _ => ?_
  cases cell.content with
  | plain value => exact .value _
  | computed p =>
    refine .reading (fun _ _ => rfl) fun _ _ _ => ?_
    exact .andThen (bindProperty_matches _ receiver) fun _ _ _ _ => propertyCell_matches _

theorem ownCells_matches (receiver : Value) {fields : List (String × Cell × Ref .scope)}
    (clear : ∀ field ∈ fields, T.Clear h field.2.2) :
    T.Matches h r Same (ownCells receiver fields) (ownCells receiver fields) := by
  induction fields generalizing h with
  | nil => exact .value []
  | cons field rest ih =>
    refine .andThen (ownCell_matches (clear field (by simp)) _ receiver) fun _ _ later _ => ?_
    refine .andThen (ih fun other member => ?_) fun _ _ _ _ => .value _
    exact (clear other (by simp [member])).mono later

theorem typeArguments_matches (line : Line) (values : List Value) :
    T.Matches h r Same (typeArguments line values) (typeArguments line values) := by
  induction values generalizing h with
  | nil => exact .value []
  | cons value rest ih =>
    exact .andThen (typeArgument_matches value line) fun _ _ _ _ => .andThen ih fun _ _ _ _ => .value _

/-- The scope of an instance stands where the scope of its class does. -/
theorem templateScope_matches {c : Class} (clear : T.Clear h c.scope) (generics : List Value) (line : Line) :
    T.Matches h r (fun h' s s' => s' = s ∧ ∀ scope ∈ s, T.Clear h' scope) (templateScope c generics line)
      (templateScope c generics line) := by
  refine .ite (fun _ => .pure fun _ _ _ => ⟨rfl, by simp⟩) fun _ => ?_
  refine .andThen (typeArguments_matches line generics) fun _ types later _ => ?_
  refine .readingIn (fun _ _ _ _ alike => alike.same _ clear.away) fun h₂ later₂ _ => ?_
  refine .map ((Matches.addClear fun p around => ?_).weaken fun _ _ _ _ made => ?_)
  · exact ((clear.mono later).mono later₂).outer around
  · obtain ⟨rfl, fresh⟩ := made
    refine ⟨rfl, fun scope member => ?_⟩
    cases member
    exact fresh

theorem fillFields_matches {scope : Option (Ref .scope)} (clear : ∀ s ∈ scope, T.Clear h s) (o : Ref .object)
    (c : Ref .cls) : T.Matches h r Same (fillFields o c scope) (fillFields o c scope) := by
  refine .heap fun h₁ S later guarded _ => ?_
  simp only [Heap.rescoped_instanceFields, Heap.rescoped_cls]
  refine .andThen (ownCells_matches _ fun field member => ?_) fun _ cells _ _ => ?_
  · obtain ⟨entry, among, rfl⟩ := List.mem_map.mp member
    obtain ⟨ancestor, -, -, -, home⟩ := Heap.mem_instanceFields among
    have declared : T.Clear h₁ entry.2.2 := home ▸ guarded.classes ancestor
    dsimp only
    split
    · cases scope with
      | none => exact declared
      | some s => exact (clear s rfl).mono later
    · exact declared
  · exact .update (fun _ _ => rfl) (fun _ => rfl) fun _ _ guarded => guarded.setFields o _

theorem runConstructor_matches (o : Ref .object) (c : Ref .cls) (args : List Value) (line : Line) :
    T.Matches h r Same (runConstructor o c args line) (runConstructor o c args line) := by
  refine .reading (fun h S => h.rescoped_constructor? S c) fun h₁ _ _ => ?_
  cases h₁.constructor? c with
  | some method => exact callMethod_matches method _ args line
  | none => exact .andThen (.demand _ line _) fun _ _ _ _ => .value _

theorem construct_matches (c : Ref .cls) (args generics : List Value) (line : Line) :
    T.Matches h r Same (construct c args generics line) (construct c args generics line) := by
  refine .reading (fun _ _ => rfl) fun h₁ _ guarded => .andThen (.demand _ line _) fun h₂ _ later₂ _ => ?_
  refine .bind (templateScope_matches ((guarded.classes c).mono later₂) generics line) ?_
  intro h₃ scope _ later₃ guarded₃ made
  obtain ⟨rfl, clear⟩ := made
  refine .andThen (.allocate (fun _ _ => rfl) (fun _ => rfl) fun h₄ later₄ guarded₄ => ?_)
    fun h₅ o later₅ _ => ?_
  · exact guarded₄.addObject fun s member => (clear s member).mono later₄
  · refine .andThen (fillFields_matches (fun s member => (clear s member).mono later₅) o c) fun _ _ _ _ => ?_
    exact runConstructor_matches o c args line

/-! Expressions. -/

theorem assign_matches {ref ref' : Reference} {value value' : Option Expr} (seated : T.Seated h seat r)
    (located : ref.Paired seat ref') (site : AssignSite) (operand : Paired seat (.option value) (.option value')) :
    T.Matches h r Same (assign ref site value) (assign ref' site value') := by
  refine .andThen (.andThen (option_matches seated operand) fun _ operand later _ => ?_)
    fun _ result later _ => ?_
  · exact newValue_matches site operand (readVariable_matches (seated.mono later) located)
  · exact .andThen (writeVariable_matches (seated.mono later) located result) fun _ _ _ _ => .value result

theorem setProperty_matches {e e' : Expr} {value value' : Option Expr} (seated : T.Seated h seat r)
    (object : Paired seat (.expr e) (.expr e')) (name : Name) (site : AssignSite)
    (operand : Paired seat (.option value) (.option value')) (qualified : Bool) :
    T.Matches h r Same (setProperty e name site value qualified) (setProperty e' name site value' qualified) := by
  refine .andThen (.andThen (.eval seated object) fun _ target later _ => ?_) fun _ pair _ _ => ?_
  · refine .andThen (option_matches (seated.mono later) operand) fun _ operand _ _ => ?_
    refine .andThen (newValue_matches site operand (getMember_matches target name qualified)) ?_
    exact fun _ _ _ _ => .value _
  · exact .andThen (setMember_matches pair.1 name pair.2 qualified) fun _ _ _ _ => .value _

theorem setIndexed_matches {e e' i i' : Expr} {value value' : Option Expr} (seated : T.Seated h seat r)
    (object : Paired seat (.expr e) (.expr e')) (line : Line) (position : Paired seat (.expr i) (.expr i'))
    (site : AssignSite) (operand : Paired seat (.option value) (.option value')) :
    T.Matches h r Same (setIndexed e line i site value) (setIndexed e' line i' site value') := by
  refine .andThen (.andThen (.eval seated object) fun h₁ target later₁ _ => ?_) fun _ x _ _ => ?_
  · have seated₁ := seated.mono later₁
    refine .andThen (.eval seated₁ position) fun h₂ index later₂ _ => ?_
    refine .andThen (option_matches (seated₁.mono later₂) operand) fun _ operand _ _ => ?_
    refine .andThen (newValue_matches site operand (getIndex_matches target index line)) ?_
    exact fun _ _ _ _ => .value _
  · exact .andThen (setIndex_matches x.1 x.2.1 x.2.2 line) fun _ _ _ _ => .value _

theorem apply_matches (callee : Value) (args generics : List Value) (line : Line) :
    T.Matches h r Same (apply callee args generics line) (apply callee args generics line) := by
  cases callee with
  | function f =>
    refine .reading (fun _ _ => rfl) fun _ _ guarded => ?_
    exact .ite (fun _ => .raise line _) fun _ => .call (guarded.functions f) args generics line
  | cls c => exact construct_matches c args generics line
  | _ => exact .raise line _

theorem evalCall_matches {e e' : Expr} {as as' gs gs' : List Expr} (seated : T.Seated h seat r)
    (callee : Paired seat (.expr e) (.expr e')) (line : Line) (args : Paired seat (.exprs as) (.exprs as'))
    (generics : Paired seat (.exprs gs) (.exprs gs')) (nullSafe : Bool) :
    T.Matches h r Same (evalCall e line as gs nullSafe) (evalCall e' line as' gs' nullSafe) := by
  refine .andThen (.eval seated callee) fun h₁ target later₁ _ => .ite (fun _ => .value _) fun _ => ?_
  have seated₁ := seated.mono later₁
  refine .andThen (exprs_matches seated₁ args) fun h₂ args later₂ _ => ?_
  refine .andThen (exprs_matches (seated₁.mono later₂) generics) fun _ generics _ _ => ?_
  exact apply_matches target args generics line

/-- A name other than the variable of a loop is found the same from both machines. -/
theorem lookupAt_beside {m : Machine} {S : Array Scope} {e : String} (seated : T.Seated h seat r)
    (held : T.Holds m S e) (later : h.Extends m.heap) (scope : m.scope = r) (distance : Nat) {name : String}
    (unmarked : ∀ depth, seat ≠ .inside (some (name, depth))) :
    (m.beside S e).heap.lookupAt (m.beside S e).scope distance name = m.heap.lookupAt m.scope distance name :=
  held.lookupAt_same (by rw [scope]; exact seated.mono later) distance fun depth same => absurd same (unmarked depth)

theorem nearerReceiver_matches (seated : T.Seated h seat r) (other : ∀ depth, seat ≠ .inside (some ("this", depth)))
    (line : Line) (depth : Nat) : T.Matches h r Same (nearerReceiver line depth) (nearerReceiver line depth) := by
  cases depth with
  | zero => exact .stop _
  | succ near =>
    refine .get fun m S e held later scope => ?_
    rw [lookupAt_beside seated held later scope near other]
    exact .andThen (.orRaise _ _) fun _ cell _ _ => readCell_matches cell _

/-- A reference that is neither `super` nor `this` is never the variable of a loop. -/
theorem superMethod_matches {ref : Reference} (seated : T.Seated h seat r)
    (other : ∀ name depth, seat = .inside (some (name, depth)) → ref.name.text ≠ name ∧ "this" ≠ name)
    (method : Name) : T.Matches h r Same (superMethod ref method) (superMethod ref method) := by
  unfold superMethod
  cases ref.depth with
  | none => exact .raise _ _
  | some depth =>
    refine .get fun m S e held later scope => ?_
    rw [lookupAt_beside seated held later scope depth fun _ same => (other _ _ same).1 rfl]
    refine .andThen (.orRaise _ _) fun _ cell later₁ _ => ?_
    refine .andThen (readCell_matches cell _) fun _ value later₂ _ => ?_
    cases value with
    | cls superclass =>
      have since := seated.mono (later.trans (later₁.trans later₂))
      refine .andThen (nearerReceiver_matches since (fun _ same => (other _ _ same).2 rfl) _ depth) fun _ receiver _ _ => ?_
      refine .reading (fun h S => h.rescoped_findMethod? S _ _) fun h₃ _ _ => ?_
      cases h₃.findMethod? superclass method.text with
      | some method => exact bindMethod_matches method receiver
      | none => exact .raise _ _
    | _ => exact .raise _ _

theorem arraySize_matches (size : Value) (line : Line) :
    T.Matches h r Same (arraySize size line) (arraySize size line) := by
  cases size with
  | num n =>
    dsimp only [arraySize]
    cases Number.rounded n with
    | whole negative magnitude =>
      refine .ite (fun _ => .raise line _) fun _ => ?_
      exact .ite (fun _ => .value magnitude) fun _ => .raise line _
    | _ => exact .raise line _
  | _ =>
    refine .heap fun _ _ _ _ _ => ?_
    rw [Heap.rescoped_text]
    exact .raise line _

theorem addArray_matches (array : ArrayObject) :
    T.Matches h r Same (Run.allocate (·.addArray array)) (Run.allocate (·.addArray array)) :=
  .allocate (fun _ _ => rfl) (fun _ => rfl) fun _ _ guarded => guarded.sameScopes rfl

theorem sizedArray_matches {e e' : Expr} (seated : T.Seated h seat r) (line : Line) (elementType : TypeDesc)
    (size : Paired seat (.expr e) (.expr e')) :
    T.Matches h r Same (sizedArray line elementType e) (sizedArray line elementType e') := by
  refine .andThen (typeHere_matches seated elementType) fun _ _ later _ => ?_
  refine .andThen (.eval (seated.mono later) size) fun _ size _ _ => ?_
  refine .andThen (arraySize_matches size line) fun _ _ _ _ => ?_
  exact .andThen (addArray_matches _) fun _ _ _ _ => .value _

theorem elementTypeOf_rescoped (h : Heap) (S : Array Scope) (declared : Option TypeDesc) (values : List Value) :
    elementTypeOf (h.rescoped S) declared values = elementTypeOf h declared values := by
  unfold elementTypeOf
  split <;> simp

theorem checkElements_rescoped (h : Heap) (S : Array Scope) (elementType : TypeDesc) (i : Nat)
    (values : List Value) :
    checkElements (h.rescoped S) elementType i values = checkElements h elementType i values := by
  induction values generalizing i with
  | nil => rfl
  | cons value rest ih => simp [checkElements, ih]

theorem listedArray_matches {es es' : List Expr} (seated : T.Seated h seat r) (line : Line)
    (declared : Option TypeDesc) (elements : Paired seat (.exprs es) (.exprs es')) :
    T.Matches h r Same (listedArray line declared es) (listedArray line declared es') := by
  refine .andThen (.mapM fun t _ => typeHere_matches seated t) fun _ _ later _ => ?_
  refine .andThen (exprs_matches (seated.mono later) elements) fun _ values _ _ => .heap fun _ _ _ _ _ => ?_
  simp only [elementTypeOf_rescoped, checkElements_rescoped]
  exact .andThen (.orRaise line _) fun _ _ _ _ => .andThen (addArray_matches _) fun _ _ _ _ => .value _

theorem lengthOf_matches (line : Line) (value : Value) :
    T.Matches h r Same (lengthOf line value) (lengthOf line value) := by
  cases value with
  | array a => exact .reading (fun _ _ => rfl) fun _ _ _ => .value _
  | str s => exact .value _
  | _ => exact .heap fun _ _ _ _ _ => .raise line _

theorem evalExpr_matches {e e' : Expr} (seated : T.Seated h seat r) (paired : Paired seat (.expr e) (.expr e')) :
    T.Matches h r Same (evalExpr e) (evalExpr e') := by
  cases paired with
  | literal value => exact .value _
  | group inner => exact .eval seated inner
  | unary operand => exact .andThen (.eval seated operand) fun _ value _ _ => unaryOperation_matches _ _ value
  | binary left right =>
    refine .andThen (.eval seated left) fun _ l later _ => ?_
    exact .andThen (.eval (seated.mono later) right) fun _ r _ _ => binaryOperation_matches _ _ l r
  | logical left right =>
    refine .andThen (.eval seated left) fun _ l later _ => ?_
    exact .ite (fun _ => .value l) fun _ => .eval (seated.mono later) right
  | ternary condition yes no =>
    refine .andThen (.eval seated condition) fun _ _ later _ => ?_
    exact .ite (fun _ => .eval (seated.mono later) yes) fun _ => .eval (seated.mono later) no
  | use located | this located | value located => exact readVariable_matches seated located
  | super other => exact superMethod_matches seated other _
  | assign located operand => exact assign_matches seated located _ operand
  | call callee args generics => exact evalCall_matches seated callee _ args generics _
  | get object =>
    refine .andThen (.eval seated object) fun _ target _ _ => ?_
    exact .ite (fun _ => .value _) fun _ => getMember_matches target _ false
  | staticGet object => exact .andThen (.eval seated object) fun _ target _ _ => getMember_matches target _ true
  | set object operand => exact setProperty_matches seated object _ _ operand false
  | staticSet object operand => exact setProperty_matches seated object _ _ operand true
  | index object position =>
    refine .andThen (.eval seated object) fun _ target later _ => ?_
    exact .andThen (.eval (seated.mono later) position) fun _ index _ _ => getIndex_matches target index _
  | indexSet object position operand => exact setIndexed_matches seated object _ position _ operand
  | cast operand target =>
    refine .andThen (.eval seated operand) fun _ value later _ => ?_
    refine .andThen (.eval (seated.mono later) target) fun _ desc _ _ => ?_
    exact .andThen (typeArgument_matches desc _) fun _ desc _ _ => castValue_matches value desc _
  | array elements => exact listedArray_matches seated _ _ elements
  | sizedArray size => exact sizedArray_matches seated _ _ size
  | lambda decl =>
    cases seated with
    | free clear =>
      exact .currentScope (.andThen (.addFunction (clear.bears decl false)) fun _ _ _ _ => .value _)
  | type line desc => exact .andThen (typeHere_matches seated desc) fun _ _ _ _ => .value _
  | length operand => exact .andThen (.eval seated operand) fun _ value _ _ => lengthOf_matches _ value
  | typeOf operand =>
    refine .andThen (.eval seated operand) fun _ value _ _ => .heap fun _ _ _ _ _ => ?_
    rw [Heap.rescoped_typeOf]
    exact .value _

end Treewalk.Evaluator
