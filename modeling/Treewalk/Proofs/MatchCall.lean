import Treewalk.Eval.Call
import Treewalk.Proofs.Match

/-!
Sequences, cells and calls on two machines that are tied together.
-/

namespace Treewalk.Evaluator

open Tie

variable {T : Tie} {h : Heap} {r : Ref .scope} {seat : Seat}

theorem exprs_matches {es es' : List Expr} (seated : T.Seated h seat r)
    (paired : Paired seat (.exprs es) (.exprs es')) : T.Matches h r Same (exprs es) (exprs es') := by
  induction es generalizing es' h with
  | nil =>
    cases paired
    exact .value []
  | cons e rest ih =>
    cases paired with
    | moreExprs first others =>
      refine .andThen (.eval seated first) fun _ _ later _ => ?_
      exact .andThen (ih (seated.mono later) others) fun _ _ _ _ => .value _

theorem option_matches {e e' : Option Expr} (seated : T.Seated h seat r)
    (paired : Paired seat (.option e) (.option e')) : T.Matches h r Same (option e) (option e') := by
  cases paired with
  | absent => exact .value none
  | present inner => exact .map ((Matches.eval seated inner).weaken fun _ _ _ _ same => by rw [same])

theorem stmts_matches {ss ss' : List Stmt} (seated : T.Seated h seat r)
    (paired : Paired seat (.stmts ss) (.stmts ss')) : T.Matches h r Same (stmts ss) (stmts ss') := by
  induction ss generalizing ss' h with
  | nil =>
    cases paired
    exact .value _
  | cons s rest ih =>
    cases paired with
    | moreStmts first others =>
      refine .andThen (.exec seated first) fun _ signal later _ => ?_
      cases signal with
      | normal => exact ih (seated.mono later) others
      | _ => exact .value _

theorem block_matches {inner : Ref .scope} {ss ss' : List Stmt} (seated : T.Seated h seat inner)
    (paired : Paired seat (.stmts ss) (.stmts ss')) : T.Matches h r Same (block inner ss) (block inner ss') :=
  .inScope seated.inside (stmts_matches seated paired)

theorem readProperty_matches (p : Ref .property) (line : Line) :
    T.Matches h r Same (readProperty p line) (readProperty p line) := by
  refine .reading (fun _ _ => rfl) fun _ _ _ => .reading (fun _ _ => rfl) fun _ _ guarded => ?_
  refine .andThen (.call (guarded.functions _) _ _ line) fun _ _ _ _ => .heap fun _ _ _ _ _ => ?_
  simp only [Heap.rescoped_checkType]
  exact .andThen (.orRaise line _) fun _ _ _ _ => .value _

theorem writeProperty_matches (p : Ref .property) (value : Value) (line : Line) :
    T.Matches h r Same (writeProperty p value line) (writeProperty p value line) := by
  refine .reading (fun _ _ => rfl) fun h₁ _ _ => ?_
  cases (h₁.property p).setter with
  | none => exact .raise line _
  | some setter =>
    refine .heap fun _ _ _ _ _ => ?_
    simp only [Heap.rescoped_checkType]
    refine .andThen (.orRaise line _) fun _ _ _ _ => .andThen (.orRaise line _) fun _ _ _ _ => ?_
    refine .reading (fun _ _ => rfl) fun _ _ guarded => ?_
    refine .andThen (.call (guarded.functions _) _ _ line) fun _ _ _ _ => ?_
    exact .update (fun _ _ => rfl) (fun _ => rfl) fun _ _ guarded => guarded.sameScopes rfl

theorem readCell_matches (cell : Cell) (line : Line) :
    T.Matches h r Same (readCell cell line) (readCell cell line) := by
  unfold readCell
  cases cell.content with
  | plain value => exact .value value
  | computed property => exact readProperty_matches property line

theorem typeIn_matches {scope : Ref .scope} (seated : T.Seated h seat scope) (t : TypeDesc) :
    T.Matches h r Same (typeIn t scope) (typeIn t scope) := by
  refine .heap fun h₁ S later guarded alike => ?_
  rw [(seated.mono later).resolveType alike guarded]
  exact .value _

theorem typeHere_matches (seated : T.Seated h seat r) (t : TypeDesc) :
    T.Matches h r Same (typeHere t) (typeHere t) :=
  .currentScope (typeIn_matches seated t)

theorem readVariable_matches {ref ref' : Reference} (seated : T.Seated h seat r) (paired : ref.Paired seat ref') :
    T.Matches h r Same (readVariable ref) (readVariable ref') := by
  have line : ref'.name.line = ref.name.line := by cases paired <;> rfl
  refine .get fun m S e held later scope => ?_
  subst scope
  rw [held.variableCell (seated.mono later) paired, line]
  exact .andThen (.orRaise _ _) fun _ cell _ _ => readCell_matches cell _

theorem writeVariable_matches {ref ref' : Reference} (seated : T.Seated h seat r) (paired : ref.Paired seat ref')
    (value : Value) : T.Matches h r Same (writeVariable ref value) (writeVariable ref' value) := by
  have name : ref'.name = ref.name := by cases paired <;> rfl
  refine .get fun m S e held later scope => ?_
  subst scope
  rw [name]
  have writes := held.variableWrite (seated.mono later) paired value
  generalize variableWrite ref value m = written at writes
  generalize variableWrite ref' value (m.beside S e) = written' at writes
  cases writes with
  | failed fault => exact .raise _ fault
  | computed property => exact writeProperty_matches property value _
  | stored stores cell => exact .define stores cell

end Treewalk.Evaluator

namespace Treewalk

open Tie

variable {T : Tie} {h : Heap} {r : Ref .scope} {seat : Seat}

/-- The scope inside which a function is bound is clear if its closure is. -/
theorem Tie.Guarded.scopeWithin {closure : Ref .scope} (guarded : T.Guarded h) (clear : T.Clear h closure)
    (receiver : Value) : T.Clear h (h.scopeWithin receiver closure) := by
  cases receiver with
  | object o =>
    simp only [Heap.scopeWithin]
    cases found : h.scopeFor? o closure with
    | none => exact clear
    | some seen =>
      unfold Heap.scopeFor? at found
      simp only at found
      split at found
      · exact guarded.objects o seen found
      · cases found
  | _ => exact clear

theorem Heap.rescoped_argumentCells {closure : Ref .scope} {S : Array Scope} (seated : T.Seated h seat closure)
    (alike : T.Alike h (h.rescoped S)) (guarded : T.Guarded h) (function : String) (params : List Param)
    (values : List Value) (cells : NameMap Cell) :
    (h.rescoped S).argumentCells function closure params values cells =
      h.argumentCells function closure params values cells := by
  have one (param : Param) (value : Value) :
      (h.rescoped S).argumentCell function closure param value = h.argumentCell function closure param value := by
    simp only [Heap.argumentCell, seated.resolveType alike guarded, Heap.rescoped_conforms, Heap.rescoped_typeOf]
  induction params generalizing values cells with
  | nil => rfl
  | cons param params ih =>
    cases values with
    | nil => rfl
    | cons value values =>
      change ((h.rescoped S).argumentCell function closure param value >>= fun cell =>
        (h.rescoped S).argumentCells function closure params values (cells.insert param.name.text cell)) = _
      rw [one]
      exact congrArg _ (funext fun cell => ih values _)

namespace Evaluator

theorem bind_matches {f : Function} (bears : T.Bears h f) (receiver : Value) :
    T.Matches h r (fun h' g g' => g' = g ∧ T.Bears h' g) (bind f receiver) (bind f receiver) := by
  unfold bind
  cases body : f.body with
  | user statements closure =>
    refine .reading (fun _ _ => Heap.rescoped_scopeWithin _ _ _ _) fun h₁ later guarded => ?_
    have clear := guarded.scopeWithin ((bears _ _ body).mono later) receiver
    refine .bind (.addClear fun p member => ?_) fun h₂ scope _ later₂ _ made => ?_
    · cases member
      exact clear
    · obtain ⟨rfl, fresh⟩ := made
      refine .pure fun h₃ later₃ _ => ⟨rfl, fun _ _ user => ?_⟩
      cases user
      exact fresh.mono later₃
  | native native _ => exact .pure fun _ _ _ => ⟨rfl, fun _ _ user => by cases user⟩
  | missing =>
    refine .pure fun _ _ _ => ⟨rfl, fun _ _ user => ?_⟩
    rw [body] at user
    cases user

theorem bindFunction_matches (f : Ref .function) (receiver : Value) :
    T.Matches h r Same (bindFunction f receiver) (bindFunction f receiver) := by
  refine .reading (fun _ _ => rfl) fun _ _ guarded => ?_
  refine .bind (bind_matches (guarded.functions f) receiver) fun _ _ _ _ _ bound => ?_
  obtain ⟨rfl, bears⟩ := bound
  exact .addFunction bears

theorem bindMethod_matches (method : Ref .function) (receiver : Value) :
    T.Matches h r Same (bindMethod method receiver) (bindMethod method receiver) :=
  .andThen (bindFunction_matches method receiver) fun _ _ _ _ => .value _

theorem callMethod_matches (method : Ref .function) (receiver : Value) (args : List Value) (line : Line) :
    T.Matches h r Same (callMethod method receiver args line) (callMethod method receiver args line) := by
  refine .reading (fun _ _ => rfl) fun _ _ guarded => ?_
  refine .bind (bind_matches (guarded.functions method) receiver) fun _ _ _ _ _ bound => ?_
  obtain ⟨rfl, bears⟩ := bound
  exact .call bears args [] line

theorem callNative_matches (native : Native) (args : List Value) :
    T.Matches h r Same (callNative native args) (callNative native args) := by
  have printed (value : Value) {print : String → Run Unit}
      (each : ∀ (h : Heap) text, T.Matches h r Same (print text) (print text)) (edit : String → String) :
      T.Matches h r Same (Run.spell value >>= fun text => print (edit text) >>= fun _ => pure Value.nil)
        (Run.spell value >>= fun text => print (edit text) >>= fun _ => pure Value.nil) :=
    .andThen (.spell value) fun h₁ _ _ _ => .andThen (each h₁ _) fun _ _ _ _ => .value _
  cases native with
  | clock =>
    refine .andThen .readClock fun _ shown _ _ => ?_
    cases shown with
    | ofNat elapsed => exact .value _
    | negSucc _ => exact .raise _ _
  | objectText =>
    cases args with
    | nil => exact .value _
    | cons value rest =>
      refine .heap fun _ _ _ _ _ => ?_
      rw [Heap.rescoped_text]
      exact .value _
  | print =>
    cases args with
    | nil => exact .value _
    | cons value rest => exact printed value (fun _ => .printOut) id
  | println =>
    cases args with
    | nil => exact .value _
    | cons value rest => exact printed value (fun _ => .printOut) (· ++ "\n")
  | error =>
    cases args with
    | nil => exact .value _
    | cons value rest => exact printed value (fun _ => .printErr) (· ++ "\n")

theorem resultOf_matches {f : Function} {closure : Ref .scope} (clear : T.Clear h closure) (line : Line)
    (signal : Signal) :
    T.Matches h r Same (resultOf f closure line signal) (resultOf f closure line signal) := by
  refine .heap fun h₁ S later guarded alike => ?_
  rw [(Seated.free (clear.mono later)).resolveType alike guarded]
  simp only [Heap.rescoped_conforms, Heap.rescoped_typeOf]
  cases signal with
  | returning value => exact .andThen (.demand _ line _) fun _ _ _ _ => .value _
  | _ => exact .andThen (.demand _ line _) fun _ _ _ _ => .value _

theorem constructed_matches {closure : Ref .scope} (clear : T.Clear h closure) (line : Line) :
    T.Matches h r Same (constructed closure line) (constructed closure line) := by
  refine .readingIn (fun _ _ _ _ alike => alike.of_own clear.away "this") fun h₁ _ _ => ?_
  cases h₁.here? closure "this" with
  | none => exact .value _
  | some cell => exact readCell_matches cell line

theorem callUser_matches {f : Function} {body : List Stmt} {closure : Ref .scope} (clear : T.Clear h closure)
    (args : List Value) (line : Line) :
    T.Matches h r Same (callUser f body closure args line) (callUser f body closure args line) := by
  refine .heap fun h₁ S later guarded alike => ?_
  rw [Heap.rescoped_argumentCells (.free (clear.mono later)) alike guarded]
  refine .andThen (.orRaise line _) fun h₂ cells later₂ _ => ?_
  have clear₂ := (clear.mono later).mono later₂
  refine .bind (.addClear fun p member => ?_) fun h₃ scope _ later₃ _ made => ?_
  · cases member
    exact clear₂
  · obtain ⟨rfl, fresh⟩ := made
    refine .andThen (block_matches (.free fresh) (Paired.freeStmts body)) fun h₄ signal later₄ _ => ?_
    have clear₄ := (clear₂.mono later₃).mono later₄
    exact .ite (fun _ => constructed_matches clear₄ line) fun _ => resultOf_matches clear₄ line signal

theorem callMissing_matches (f : Function) (line : Line) :
    T.Matches h r Same (callMissing f line) (callMissing f line) :=
  .inGlobalScope fun _ => .ite (fun _ => .andThen (.warn line _) fun _ _ _ _ => .value _) fun _ => .raise line _

theorem callFunction_matches {f : Function} (bears : T.Bears h f) (args generics : List Value) (line : Line) :
    T.Matches h r Same (callFunction f args generics line) (callFunction f args generics line) := by
  refine .ite (fun _ => .raise line _) fun _ => ?_
  cases body : f.body with
  | native native receiver => exact callNative_matches native _
  | missing => exact callMissing_matches f line
  | user statements closure =>
    exact .ite (fun _ => callUser_matches (bears _ _ body) args line) fun _ => .raise line _

theorem texts_matches (values : List Value) : T.Matches h r Same (texts values) (texts values) := by
  induction values generalizing h with
  | nil => exact .value _
  | cons value rest ih =>
    exact .andThen (.spell value) fun _ _ _ _ => .andThen ih fun _ _ _ _ => .value _

theorem textOf_matches (value : Value) : T.Matches h r Same (textOf value) (textOf value) := by
  have plain (value : Value) {h : Heap} : T.Matches h r Same (Run.heap >>= fun h => pure (h.text value))
      (Run.heap >>= fun h => pure (h.text value)) := by
    refine .heap fun _ _ _ _ _ => ?_
    rw [Heap.rescoped_text]
    exact .value _
  cases value with
  | object o =>
    refine .heap fun h₁ S _ _ _ => ?_
    simp only [Heap.rescoped_findMethod?, Heap.rescoped_object, Heap.rescoped_text]
    cases h₁.findMethod? (h₁.object o).cls "toString" with
    | none => exact .value _
    | some method => exact .andThen (callMethod_matches method _ [] 0) fun _ result _ _ => plain result
  | array a =>
    refine .reading (fun _ _ => rfl) fun _ _ _ => ?_
    exact .andThen (texts_matches _) fun _ _ _ _ => .value _
  | _ => exact plain _

end Evaluator

end Treewalk
