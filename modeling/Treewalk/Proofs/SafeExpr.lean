import Treewalk.Eval.Expr
import Treewalk.Proofs.Agreement
import Treewalk.Proofs.CellReads
import Treewalk.Proofs.SafeConstruct

/-!
Expressions. Each is evaluated where it stands, and so are its parts.
-/

namespace Treewalk

open Scoping Plan

namespace World

variable {view : View} {w : World}

/-- A function can be called once its closure has the scopes around its place. -/
theorem closed_ofDecl {p : Place} {role : FunctionRole} {decl : FunctionDecl} {closure : Ref .scope}
    (stands : At view p (.function role decl)) (around : view.strict → w.Stands p.levels closure)
    (constructs : Bool) : w.Closed view (.ofDecl decl closure constructs) := by
  unfold Closed Function.ofDecl
  cases body : decl.body with
  | none => trivial
  | some statements => exact ⟨p, role, decl, stands, body, rfl, around⟩

theorem awaits_ofDecl {p : Place} {role : FunctionRole} {decl : FunctionDecl} {closure : Ref .scope}
    {owner : Name} (stands : At view (p.receiver owner) (.function role decl))
    (around : view.strict → w.Stands p.levels closure) (constructs : Bool) :
    w.Awaits view (.ofDecl decl closure constructs) := by
  unfold Awaits Function.ofDecl
  cases body : decl.body with
  | none => trivial
  | some statements => exact ⟨_, role, decl, owner, p.levels, stands, body, rfl, rfl, around⟩

end World

namespace Evaluator

variable {view : View} {k : Permit} {w : World} {m : Machine} {p : Place}

theorem assignedValue_safe {ref : Reference} {site : AssignSite} {value : Option Expr}
    (stage : Stage view k w m) (stands : ∀ e ∈ value, At view p (.expr e))
    (around : view.strict → w.Stands p.levels m.scope) :
    Safe view k m.scope (World.Known view) w (assignedValue ref site value m) := by
  refine .bind stage (option_safe stage.calm stands around) ?_
  rintro w₁ m₁ operand stage₁ - - ⟨-, known⟩
  exact newValue_safe stage₁ site (readVariable_safe stage₁.calm ref) known

theorem assign_safe {ref : Reference} {site : AssignSite} {value : Option Expr}
    (stage : Stage view k w m) (proper : ref.name.Proper) (stands : ∀ e ∈ value, At view p (.expr e))
    (around : view.strict → w.Stands p.levels m.scope) :
    Safe view k m.scope (World.Known view) w (assign ref site value m) := by
  refine .bind stage (assignedValue_safe stage.calm stands around) ?_
  intro w₁ m₁ result stage₁ _ _ knownResult
  refine .bind stage₁ (writeVariable_safe stage₁.calm proper knownResult) ?_
  intro w₂ m₂ _ stage₂ leads₂ _ _
  exact .pure stage₂ (knownResult.mono leads₂)

theorem memberValue_safe {object : Expr} {site : AssignSite} {value : Option Expr}
    (stage : Stage view k w m) (standsObject : At view p (.expr object))
    (stands : ∀ e ∈ value, At view p (.expr e)) (around : view.strict → w.Stands p.levels m.scope)
    (name : Name) (qualified : Bool) :
    Safe view k m.scope (fun w' x => w'.Known view x.1 ∧ w'.Known view x.2) w
      (memberValue object name site value qualified m) := by
  refine .bind stage (.eval stage.calm standsObject around) ?_
  intro w₁ m₁ target stage₁ leads₁ same₁ knownTarget
  refine .bind stage₁ (option_safe stage₁.calm stands fun asked => same₁ ▸ (around asked).mono leads₁) ?_
  rintro w₂ m₂ operand stage₂ leads₂ - ⟨-, known⟩
  have knownTarget₂ := knownTarget.mono leads₂
  refine .bind stage₂ (newValue_safe stage₂.calm site
    (getMember_safe stage₂.calm knownTarget₂ name qualified) known) ?_
  intro w₃ m₃ result stage₃ leads₃ _ knownResult
  exact .pure stage₃ ⟨knownTarget₂.mono leads₃, knownResult⟩

theorem setProperty_safe {object : Expr} {site : AssignSite} {value : Option Expr}
    (stage : Stage view k w m) (standsObject : At view p (.expr object))
    (stands : ∀ e ∈ value, At view p (.expr e)) (around : view.strict → w.Stands p.levels m.scope)
    (name : Name) (qualified : Bool) :
    Safe view k m.scope (World.Known view) w (setProperty object name site value qualified m) := by
  refine .bind stage (memberValue_safe stage.calm standsObject stands around name qualified) ?_
  rintro w₁ m₁ ⟨target, result⟩ stage₁ - - ⟨knownTarget, knownResult⟩
  refine .bind stage₁ (setMember_safe stage₁.calm knownTarget name knownResult qualified) ?_
  intro w₂ m₂ _ stage₂ leads₂ _ _
  exact .pure stage₂ (knownResult.mono leads₂)

theorem indexedValue_safe {object position : Expr} {site : AssignSite} {value : Option Expr}
    (stage : Stage view k w m) (standsObject : At view p (.expr object))
    (standsPosition : At view p (.expr position)) (stands : ∀ e ∈ value, At view p (.expr e))
    (around : view.strict → w.Stands p.levels m.scope) (line : Line) :
    Safe view k m.scope (fun w' x => w'.Known view x.1 ∧ w'.Known view x.2.1 ∧ w'.Known view x.2.2) w
      (indexedValue object line position site value m) := by
  refine .bind stage (.eval stage.calm standsObject around) ?_
  intro w₁ m₁ target stage₁ leads₁ same₁ knownTarget
  have around₁ (asked : view.strict) : w₁.Stands p.levels m₁.scope := same₁ ▸ (around asked).mono leads₁
  refine .bind stage₁ (.eval stage₁.calm standsPosition around₁) ?_
  intro w₂ m₂ index stage₂ leads₂ same₂ knownIndex
  refine .bind stage₂ (option_safe stage₂.calm stands fun asked => same₂ ▸ (around₁ asked).mono leads₂) ?_
  rintro w₃ m₃ operand stage₃ leads₃ - ⟨-, known⟩
  have knownTarget₃ := (knownTarget.mono leads₂).mono leads₃
  have knownIndex₃ := knownIndex.mono leads₃
  refine .bind stage₃ (newValue_safe stage₃.calm site
    (getIndex_safe stage₃.calm knownTarget₃ knownIndex₃ line) known) ?_
  intro w₄ m₄ result stage₄ leads₄ _ knownResult
  exact .pure stage₄ ⟨knownTarget₃.mono leads₄, knownIndex₃.mono leads₄, knownResult⟩

theorem setIndexed_safe {object position : Expr} {site : AssignSite} {value : Option Expr}
    (stage : Stage view k w m) (standsObject : At view p (.expr object))
    (standsPosition : At view p (.expr position)) (stands : ∀ e ∈ value, At view p (.expr e))
    (around : view.strict → w.Stands p.levels m.scope) (line : Line) :
    Safe view k m.scope (World.Known view) w (setIndexed object line position site value m) := by
  refine .bind stage (indexedValue_safe stage.calm standsObject standsPosition stands around line) ?_
  rintro w₁ m₁ ⟨target, index, result⟩ stage₁ - - ⟨knownTarget, knownIndex, knownResult⟩
  refine .bind stage₁ (setIndex_safe stage₁.calm knownTarget knownIndex knownResult line) ?_
  intro w₂ m₂ _ stage₂ leads₂ _ _
  exact .pure stage₂ (knownResult.mono leads₂)

theorem apply_safe {callee : Value} {args generics : List Value} (stage : Stage view k w m)
    (known : w.Known view callee) (argsKnown : ∀ value ∈ args, w.Known view value)
    (genericsKnown : ∀ value ∈ generics, w.Known view value) (line : Line) :
    Safe view k m.scope (World.Known view) w (apply callee args generics line m) := by
  cases callee with
  | function r =>
    refine .reading (.ite (fun _ => .raise stage line _) fun _ => ?_)
    rw [← stage.heap]
    exact (Safe.call stage (.inl known.2) argsKnown genericsKnown line).weaken fun _ _ => World.Yielded.known
  | cls c => exact construct_safe stage known argsKnown genericsKnown line
  | _ => exact .raise stage line _

theorem evalCall_safe {callee : Expr} {args generics : List Expr} (stage : Stage view k w m)
    (standsCallee : At view p (.expr callee)) (stands : ∀ e ∈ args ++ generics, At view p (.expr e))
    (around : view.strict → w.Stands p.levels m.scope) (line : Line) (nullSafe : Bool) :
    Safe view k m.scope (World.Known view) w (evalCall callee line args generics nullSafe m) := by
  refine .bind stage (.eval stage.calm standsCallee around) ?_
  intro w₁ m₁ target stage₁ leads₁ same₁ known
  have around₁ (asked : view.strict) : w₁.Stands p.levels m₁.scope := same₁ ▸ (around asked).mono leads₁
  refine .ite (fun _ => .pure stage₁ trivial) fun _ => ?_
  refine .bind stage₁ (exprs_safe stage₁.calm (fun e member => stands e (by simp [member])) around₁) ?_
  intro w₂ m₂ argValues stage₂ leads₂ same₂ argsKnown
  refine .bind stage₂ (exprs_safe stage₂.calm (fun e member => stands e (by simp [member]))
    fun asked => same₂ ▸ (around₁ asked).mono leads₂) ?_
  intro w₃ m₃ genericValues stage₃ leads₃ _ genericsKnown
  exact apply_safe stage₃ ((known.mono leads₂).mono leads₃)
    (fun value member => (argsKnown value member).mono leads₃) genericsKnown line

theorem lookupAt_usable (stage : Stage view k w m) {depth : Nat} {name : String} {cell : Cell}
    (found : m.heap.lookupAt m.scope depth name = .ok cell) : w.Usable view cell := by
  obtain ⟨r, -, here⟩ := Heap.lookupAt_here found
  rw [← stage.heap] at here
  exact stage.sound.usable here

theorem lookupAt_this (stage : Stage view k w m) {depth : Nat} {cell : Cell}
    (found : m.heap.lookupAt m.scope depth "this" = .ok cell) :
    ∃ receiver, cell.content = .plain receiver ∧ w.Known view receiver ∧ receiver.Receives := by
  obtain ⟨r, -, here⟩ := Heap.lookupAt_here found
  rw [← stage.heap] at here
  obtain ⟨site, -, serves⟩ := stage.sound.serves r _ cell here
  obtain ⟨owner, receiver, -, plain, receives⟩ := serves.receiver rfl
  have known := (stage.sound.cells r _ cell here).1
  unfold World.CellKnown at known
  rw [plain] at known
  exact ⟨receiver, plain, known, receives⟩

theorem nearerReceiver_safe (stage : Stage view k w m) (line : Line) (depth : Nat) :
    Safe view k m.scope (fun w' value => w'.Known view value ∧ value.Receives) w (nearerReceiver line depth m) := by
  cases depth with
  | zero => exact .stop stage _
  | succ near =>
    refine .get (.orRaise stage _ fun cell found => ?_)
    obtain ⟨receiver, plain, known, receives⟩ := lookupAt_this stage found
    rw [readCell_plain plain]
    exact .pure stage ⟨known, receives⟩

theorem superMethod_safe (stage : Stage view k w m) (ref : Reference) (method : Name) :
    Safe view k m.scope (World.Known view) w (superMethod ref method m) := by
  unfold superMethod
  cases ref.depth with
  | none => exact .raise stage _ _
  | some depth =>
    refine .get (.orRaise stage _ fun cell found => ?_)
    refine .bind stage (readCell_safe stage.calm (lookupAt_usable stage found) _) ?_
    intro w₁ m₁ value stage₁ _ _ known
    cases value with
    | cls superclass =>
      refine .bind stage₁ (nearerReceiver_safe stage₁.calm _ depth) ?_
      intro w₂ m₂ receiver stage₂ leads₂ _ ⟨knownReceiver, receives⟩
      refine .reading ?_
      rw [← stage₂.heap]
      cases own : w₂.heap.findMethod? superclass method.text with
      | none => exact .raise stage₂ _ _
      | some f =>
        exact bindMethod_safe stage₂ (stage₂.sound.findMethod? (known.mono leads₂) own) knownReceiver receives
    | _ => exact .raise stage₁ _ _

theorem arraySize_safe (stage : Stage view k w m) (size : Value) (line : Line) :
    Safe view k m.scope (fun _ _ => True) w (arraySize size line m) := by
  generalize request : arraySize size line = c
  unfold arraySize at request
  split at request
  · split at request
    · subst request
      exact .ite (fun _ => .raise stage line _) fun _ => .ite (fun _ => .pure stage trivial)
        fun _ => .raise stage line _
    · subst request
      exact .raise stage line _
  · subst request
    exact .heap (.raise stage line _)

theorem initial_known (w : World) (t : TypeDesc) : w.Known view t.initial := by
  unfold TypeDesc.initial
  split
  · trivial
  · split <;> trivial

theorem conforms_typeOf (h : Heap) (value : Value) : h.conforms value (h.typeOf value) = true := by
  simp [Heap.conforms, TypeDesc.agrees_self]

theorem initial_admitted (h : Heap) {t : TypeDesc} (denotable : t.Denotable) :
    t.initial = .nil ∨ h.conforms t.initial t = true := by
  unfold TypeDesc.initial
  split
  · exact .inl rfl
  · rename_i flat
    rcases denotable.flat (Bool.eq_false_iff.mpr flat) with object | named
    · exact .inl (by rw [object])
    · generalize t.kind = kind at named
      cases kind <;> cases named <;> first | exact .inl rfl | exact .inr (conforms_typeOf h _)

theorem elementTypeOf_denotable {declared : Option TypeDesc} {values : List Value} (sound : w.Sound view)
    (typed : view.typed) (denotable : ∀ t ∈ declared, t.Denotable) (known : ∀ value ∈ values, w.Known view value) :
    (elementTypeOf w.heap declared values).Denotable := by
  unfold elementTypeOf
  split
  · exact denotable _ rfl
  · split
    · exact .any
    · exact sound.typeOf_denotable typed (known _ (by simp))
  · exact .any

theorem checkElements_conform {h : Heap} {t : TypeDesc} {i : Nat} {values : List Value}
    (checked : checkElements h t i values = .ok ()) : ∀ value ∈ values, h.conforms value t = true := by
  induction values generalizing i with
  | nil => simp
  | cons value rest ih =>
    unfold checkElements at checked
    split at checked
    · rename_i conforms
      simpa using ⟨conforms, ih checked⟩
    · cases checked

theorem addArray_safe {a : ArrayObject} (stage : Stage view k w m) (known : w.ArrayKnown view a) :
    Safe view k m.scope (World.Known view) w
      ((Run.allocate (·.addArray a) >>= fun r => pure (.array r)) m) := by
  have leads : w.Leads k (w.set (w.heap.addArray a).2) := .set (.addArray _ _ a) rfl
  refine .allocate stage leads (stage.sound.addArray known) (by rw [stage.heap]; rfl) fun stage₁ => ?_
  refine .pure stage₁ ?_
  rw [← stage.heap]
  simp [World.Known, World.set, Heap.addArray]

theorem typeHere_safe {t : TypeDesc} (stage : Stage view k w m) (denotable : view.typed → t.Denotable) :
    Safe view k m.scope (fun w' t => w' = w ∧ (view.typed → t.Denotable)) w (typeHere t m) := by
  refine .currentScope (.heap (.pure stage ⟨rfl, fun typed => ?_⟩))
  rw [← stage.heap]
  exact stage.sound.resolveType_denotable typed (denotable typed) m.scope

theorem sizedArray_safe {size : Expr} {elementType : TypeDesc} (stage : Stage view k w m)
    (stands : At view p (.expr size)) (around : view.strict → w.Stands p.levels m.scope)
    (denotable : elementType.Denotable) (line : Line) :
    Safe view k m.scope (World.Known view) w (sizedArray line elementType size m) := by
  refine .bind stage (typeHere_safe stage.calm fun _ => denotable) ?_
  rintro w₁ m₁ t stage₁ - same₁ ⟨rfl, meant⟩
  refine .bind stage₁ (.eval stage₁.calm stands fun asked => same₁ ▸ around asked) ?_
  intro w₂ m₂ value stage₂ _ _ _
  refine .bind stage₂ (arraySize_safe stage₂.calm value line) ?_
  intro w₃ m₃ count stage₃ _ _ _
  refine addArray_safe stage₃ ⟨fun value member => ?_, meant, fun typed value member => ?_⟩
  · rw [(Array.mem_replicate.mp member).2]
    exact initial_known w₃ _
  · rw [(Array.mem_replicate.mp member).2]
    exact initial_admitted w₃.heap (meant typed)

theorem listedArray_safe {elements : List Expr} {declared : Option TypeDesc} (stage : Stage view k w m)
    (stands : ∀ e ∈ elements, At view p (.expr e)) (around : view.strict → w.Stands p.levels m.scope)
    (denotable : ∀ t ∈ declared, t.Denotable) (line : Line) :
    Safe view k m.scope (World.Known view) w (listedArray line declared elements m) := by
  have types : Safe view m.calm m.scope (fun w' types => w' = w ∧ (view.typed → ∀ t ∈ types, t.Denotable)) w
      (declared.mapM typeHere m) :=
    .mapM stage.calm (fun _ => ⟨rfl, by simp⟩) fun t member =>
      (typeHere_safe stage.calm fun _ => denotable t member).weaken fun _ _ ⟨same, meant⟩ =>
        ⟨same, by simpa using meant⟩
  refine .bind stage types ?_
  rintro w₁ m₁ types stage₁ - same₁ ⟨rfl, meant⟩
  refine .bind stage₁ (exprs_safe stage₁.calm stands fun asked => same₁ ▸ around asked) ?_
  intro w₂ m₂ values stage₂ _ _ known
  refine .heap (.orRaise stage₂ line fun _ checked => ?_)
  rw [← stage₂.heap] at checked ⊢
  exact addArray_safe stage₂ ⟨by simpa using known,
    fun typed => elementTypeOf_denotable stage₂.sound typed (meant typed) known,
    fun _ value member => .inr (checkElements_conform checked value (by simpa using member))⟩

theorem lengthOf_safe (stage : Stage view k w m) (line : Line) (value : Value) :
    Safe view k m.scope (World.Known view) w (lengthOf line value m) := by
  cases value with
  | array a => exact .reading (.pure stage trivial)
  | str s => exact .pure stage trivial
  | _ => exact .heap (.raise stage line _)

theorem lambda_safe {decl : FunctionDecl} (stage : Stage view k w m)
    (stands : At view p (.function .function decl)) (around : view.strict → w.Stands p.levels m.scope) :
    Safe view k m.scope (World.Known view) w
      ((Run.currentScope >>= fun closure =>
        Run.allocate (·.addFunction (.ofDecl decl closure false)) >>= fun f => pure (.function f)) m) := by
  refine .currentScope (.addFunction stage (World.closed_ofDecl stands around false).rooted fun stage₁ => .pure stage₁ ?_)
  rw [← stage.heap]
  exact functionIs_added (World.closed_ofDecl stands around false)

theorem evalExpr_safe {e : Expr} (stage : Stage view k w m) (stands : At view p (.expr e))
    (around : view.strict → w.Stands p.levels m.scope) :
    Safe view k m.scope (World.Known view) w (evalExpr e m) := by
  -- The parts of the expression stand at its place.
  have here {part : Expr} (member : (p, Item.expr part) ∈ e.parts p) : At view p (.expr part) :=
    stands.part member
  cases e with
  | literal value => exact .pure stage (by cases value <;> trivial)
  | group inner => exact .eval stage (here (by simp [Expr.parts])) around
  | unary op line operand =>
    refine .bind stage (.eval stage.calm (here (by simp [Expr.parts])) around) ?_
    exact fun _ _ value stage₁ _ _ _ => unaryOperation_safe stage₁ op line value
  | binary op line left right =>
    refine .bind stage (.eval stage.calm (here (by simp [Expr.parts])) around) ?_
    intro w₁ m₁ l stage₁ leads₁ same₁ knownLeft
    refine .bind stage₁ (.eval stage₁.calm (here (by simp [Expr.parts]))
      fun asked => same₁ ▸ (around asked).mono leads₁) ?_
    intro w₂ m₂ r stage₂ leads₂ _ knownRight
    exact binaryOperation_safe stage₂ op line (knownLeft.mono leads₂) knownRight
  | logical op line left right =>
    refine .bind stage (.eval stage.calm (here (by simp [Expr.parts])) around) ?_
    intro w₁ m₁ l stage₁ leads₁ same₁ known
    exact .ite (fun _ => .pure stage₁ known) fun _ => .eval stage₁ (here (by simp [Expr.parts]))
      fun asked => same₁ ▸ (around asked).mono leads₁
  | ternary line condition yes no =>
    refine .bind stage (.eval stage.calm (here (by simp [Expr.parts])) around) ?_
    intro w₁ m₁ decided stage₁ leads₁ same₁ _
    have around₁ (asked : view.strict) : w₁.Stands p.levels m₁.scope := same₁ ▸ (around asked).mono leads₁
    exact .ite (fun _ => .eval stage₁ (here (by simp [Expr.parts])) around₁)
      fun _ => .eval stage₁ (here (by simp [Expr.parts])) around₁
  | use ref => exact readVariable_safe stage ref
  | this ref => exact readVariable_safe stage ref
  | value ref => exact readVariable_safe stage ref
  | super ref method => exact superMethod_safe stage ref method
  | assign ref site value =>
    have fits : Expr.Fits p (.assign ref site value) := stands.fits
    exact assign_safe stage fits.2 (fun e member => here (by simp_all [Expr.parts])) around
  | call callee line args generics nullSafe =>
    exact evalCall_safe stage (here (by simp [Expr.parts]))
      (fun e member => here (by simp_all [Expr.parts])) around line nullSafe
  | get object name nullSafe =>
    refine .bind stage (.eval stage.calm (here (by simp [Expr.parts])) around) ?_
    intro w₁ m₁ target stage₁ _ _ known
    exact .ite (fun _ => .pure stage₁ trivial) fun _ => getMember_safe stage₁ known name false
  | staticGet object name =>
    refine .bind stage (.eval stage.calm (here (by simp [Expr.parts])) around) ?_
    exact fun _ _ target stage₁ _ _ known => getMember_safe stage₁ known name true
  | set object name site value =>
    exact setProperty_safe stage (here (by simp [Expr.parts]))
      (fun e member => here (by simp_all [Expr.parts])) around name false
  | staticSet object name site value =>
    exact setProperty_safe stage (here (by simp [Expr.parts]))
      (fun e member => here (by simp_all [Expr.parts])) around name true
  | index object line position =>
    refine .bind stage (.eval stage.calm (here (by simp [Expr.parts])) around) ?_
    intro w₁ m₁ target stage₁ leads₁ same₁ known
    refine .bind stage₁ (.eval stage₁.calm (here (by simp [Expr.parts]))
      fun asked => same₁ ▸ (around asked).mono leads₁) ?_
    intro w₂ m₂ index stage₂ leads₂ _ knownIndex
    exact getIndex_safe stage₂ (known.mono leads₂) knownIndex line
  | indexSet object line position site value =>
    exact setIndexed_safe stage (here (by simp [Expr.parts])) (here (by simp [Expr.parts]))
      (fun e member => here (by simp_all [Expr.parts])) around line
  | cast operand line target =>
    refine .bind stage (.eval stage.calm (here (by simp [Expr.parts])) around) ?_
    intro w₁ m₁ value stage₁ leads₁ same₁ known
    refine .bind stage₁ (.eval stage₁.calm (here (by simp [Expr.parts]))
      fun asked => same₁ ▸ (around asked).mono leads₁) ?_
    intro w₂ m₂ type stage₂ leads₂ _ knownType
    refine .bind stage₂ (typeArgument_safe stage₂.calm (fun _ => knownType) line) ?_
    intro w₃ m₃ desc stage₃ leads₃ _ _
    exact castValue_safe stage₃ ((known.mono leads₂).mono leads₃) desc line
  | array line elementType elements =>
    have fits : Expr.Fits p (.array line elementType elements) := stands.fits
    exact listedArray_safe stage (fun e member => here (by simp_all [Expr.parts])) around fits line
  | sizedArray line elementType size =>
    have fits : Expr.Fits p (.sizedArray line elementType size) := stands.fits
    exact sizedArray_safe stage (here (by simp [Expr.parts])) around fits line
  | lambda decl => exact lambda_safe stage (stands.part (by simp [Item.parts, Expr.parts])) around
  | type line desc =>
    have fits : Expr.Fits p (.type line desc) := stands.fits
    refine .bind stage (typeHere_safe stage.calm fun _ => fits) ?_
    exact fun _ _ _ stage₁ _ _ meant => .pure stage₁ meant.2
  | length line operand =>
    refine .bind stage (.eval stage.calm (here (by simp [Expr.parts])) around) ?_
    exact fun _ _ value stage₁ _ _ _ => lengthOf_safe stage₁ line value
  | typeOf line operand =>
    refine .bind stage (.eval stage.calm (here (by simp [Expr.parts])) around) ?_
    intro w₁ m₁ value stage₁ _ _ known
    refine .heap (.pure stage₁ fun typed => ?_)
    rw [← stage₁.heap]
    exact stage₁.sound.typeOf_denotable typed known

end Evaluator

end Treewalk
