import Treewalk.Eval.Declare
import Treewalk.Proofs.MatchExpr

/-!
Declarations on two machines that are tied together. Variables and enumerations are declared wherever a scope
is open for that, and everything that closes over its scope at a free seat.
-/

namespace Treewalk.Evaluator

open Tie

variable {T : Tie} {h : Heap} {r scope : Ref .scope} {seat : Seat}

theorem defineChecked_matches {name : Name} (stores : T.Stores name.text r r) (cell : Cell) :
    T.Matches h r Same (defineChecked name cell) (defineChecked name cell) := by
  refine .inGlobalScope fun global => .andThen (.demand _ name.line _) fun _ _ _ _ => ?_
  exact .currentScope (.define stores cell)

theorem initialValue_matches {name : Name} {modifiers : Modifiers} {declared : Option TypeDesc}
    {value value' : Option Expr} (seated : T.Seated h seat r)
    (initializer : Paired seat (.option value) (.option value')) :
    T.Matches h r Same (initialValue ⟨name, modifiers, declared, value⟩ r)
      (initialValue ⟨name, modifiers, declared, value'⟩ r) := by
  refine .andThen (option_matches seated initializer) fun _ result later _ => ?_
  refine .heap fun h₁ S later₁ guarded alike => ?_
  simp only [((seated.mono later).mono later₁).resolveType alike guarded, Heap.rescoped_checkType]
  cases result with
  | none => exact .value _
  | some value =>
    refine .andThen (.orRaise name.line _) fun _ _ _ _ => ?_
    exact .andThen (.orRaise name.line _) fun _ _ _ _ => .value _

theorem declareVariable_matches {name : Name} {modifiers : Modifiers} {declared : Option TypeDesc}
    {value value' : Option Expr} (seated : T.Seated h seat r) (declares : seat.Open)
    (initializer : Paired seat (.option value) (.option value')) :
    T.Matches h r Same (declareVariable ⟨name, modifiers, declared, value⟩)
      (declareVariable ⟨name, modifiers, declared, value'⟩) := by
  refine .currentScope (.andThen (initialValue_matches seated initializer) fun _ result _ _ => ?_)
  exact defineChecked_matches (seated.stores_open declares name.text) _

/-! Properties, functions and enumerations. -/

theorem declaredProperty_matches (clear : T.Clear h scope) (decl : PropertyDecl) (declared : TypeDesc) :
    T.Matches h r Same (declaredProperty decl scope declared) (declaredProperty decl scope declared) := by
  refine .andThen (.addFunction (clear.bears decl.getter false)) fun _ _ later _ => ?_
  refine .andThen (.mapM fun setter _ => ?_) fun _ _ _ _ => .value _
  exact .addFunction ((clear.mono later).bears setter false)

theorem resolvedPropertyCell_matches (clear : T.Clear h scope) (decl : PropertyDecl) :
    T.Matches h r Same (resolvedPropertyCell decl scope) (resolvedPropertyCell decl scope) := by
  refine .readingIn (fun h' S later guarded alike => ?_) fun _ later _ => ?_
  · exact (Seated.free (clear.mono later)).resolveType alike guarded decl.declared
  · exact .andThen (declaredProperty_matches (clear.mono later) decl _) fun _ property _ _ =>
      propertyCell_matches property

theorem declareProperty_matches (clear : T.Clear h r) (decl : PropertyDecl) :
    T.Matches h r Same (declareProperty decl) (declareProperty decl) := by
  refine .currentScope (.andThen (resolvedPropertyCell_matches clear decl) fun _ cell _ _ => ?_)
  exact defineChecked_matches (stores_of_away clear.away _) cell

theorem declareFunction_matches (clear : T.Clear h r) (decl : FunctionDecl) :
    T.Matches h r Same (declareFunction decl) (declareFunction decl) := by
  refine .currentScope (.andThen (.addFunction (clear.bears decl false)) fun _ f _ _ => ?_)
  exact defineChecked_matches (stores_of_away clear.away _) _

theorem declareEnum_matches (seated : T.Seated h seat r) (declares : seat.Open) (name : Name)
    (elements : List Name) : T.Matches h r Same (declareEnum name elements) (declareEnum name elements) := by
  refine .andThen (.allocate (fun _ _ => rfl) (fun _ => rfl) fun _ _ guarded => guarded.sameScopes rfl) ?_
  exact fun _ e _ _ => .currentScope (.define (seated.stores_open declares name.text) _)

/-! Classes. -/

theorem declaredMethod_matches (className : String) (clear : T.Clear h scope)
    (interfaces : List (Ref .interface)) (decl : FunctionDecl) :
    T.Matches h r Same (declaredMethod className scope interfaces decl)
      (declaredMethod className scope interfaces decl) := by
  refine .andThen (.orRaise decl.name.line _) fun _ _ later _ => ?_
  refine .ite (fun _ => .addFunction ((clear.mono later).bears decl _)) fun _ => .heap fun h₁ S _ _ _ => ?_
  have same (f : Function) : (h₁.rescoped S).defaultFor? f = h₁.defaultFor? f := rfl
  rw [same]
  cases interfaces.findSome? _ with
  | some supplied => exact .value supplied
  | none => exact .raise decl.name.line _

theorem declaredMethods_matches (className : String) (clear : T.Clear h scope)
    (interfaces : List (Ref .interface)) (decls : List FunctionDecl) (methods : NameMap (Ref .function)) :
    T.Matches h r Same (declaredMethods className scope interfaces decls methods)
      (declaredMethods className scope interfaces decls methods) := by
  induction decls generalizing h methods with
  | nil => exact .value methods
  | cons decl rest ih =>
    refine .andThen (declaredMethod_matches className clear interfaces decl) fun _ _ later _ => ?_
    exact ih (clear.mono later) _

theorem addDefaults_rescoped (h : Heap) (S : Array Scope) (superclass : Ref .cls)
    (interfaces : List (Ref .interface)) (methods : NameMap (Ref .function)) :
    addDefaults (h.rescoped S) superclass interfaces methods = addDefaults h superclass interfaces methods := by
  have same : (h.rescoped S).defaults = h.defaults := rfl
  simp [addDefaults, same]

theorem fieldCell_matches (clear : T.Clear h r) (field : Field) :
    T.Matches h r Same (fieldCell r field) (fieldCell r field) := by
  cases field with
  | var decl =>
    obtain ⟨name, modifiers, declared, value⟩ := decl
    refine .andThen (initialValue_matches (.free clear) (Paired.freeOption value)) fun _ _ _ _ => ?_
    exact .value _
  | property decl =>
    refine .andThen (.ite (fun _ => resolvedPropertyCell_matches clear decl) fun _ => ?_) fun _ _ _ _ => .value _
    exact .andThen (declaredProperty_matches clear decl _) fun _ property _ _ => propertyCell_matches property

theorem fieldCells_matches (clear : T.Clear h r) (fields : List Field) (cells : NameMap Cell) :
    T.Matches h r Same (fieldCells r fields cells) (fieldCells r fields cells) := by
  induction fields generalizing h cells with
  | nil => exact .value cells
  | cons field rest ih =>
    exact .andThen (fieldCell_matches clear field) fun _ _ later _ => ih (clear.mono later) _

theorem bindStatic_matches (receiver : Value) (cell : Cell) :
    T.Matches h r Same (bindStatic receiver cell) (bindStatic receiver cell) := by
  unfold bindStatic
  cases cell.content with
  | plain value => exact .value cell
  | computed p =>
    refine .ite (fun _ => .reading (fun _ _ => rfl) fun _ _ _ => ?_) fun _ => .value cell
    exact .andThen (bindProperty_matches _ receiver) fun _ bound _ _ => propertyCell_matches bound

theorem bindStatics_matches (receiver : Value) (fields : List (String × Cell)) :
    T.Matches h r Same (bindStatics receiver fields) (bindStatics receiver fields) := by
  induction fields generalizing h with
  | nil => exact .value []
  | cons field rest ih =>
    exact .andThen (bindStatic_matches receiver _) fun _ _ _ _ => .andThen ih fun _ _ _ _ => .value _

theorem evalSuperclass_matches (seated : T.Seated h .free r) (decl : ClassDecl) :
    T.Matches h r Same (evalSuperclass decl) (evalSuperclass decl) := by
  unfold evalSuperclass
  cases decl.superclass with
  | none => exact .value _
  | some ref =>
    refine .andThen (.eval seated (Paired.freeExpr _)) fun _ value _ _ => ?_
    cases value with
    | cls c => exact .andThen (.demand _ decl.name.line _) fun _ _ _ _ => .value c
    | _ => exact .raise decl.name.line _

theorem evalInterfaces_matches (seated : T.Seated h .free r) (name : Name) (refs : List Reference) :
    T.Matches h r Same (evalInterfaces name refs) (evalInterfaces name refs) := by
  induction refs generalizing h with
  | nil => exact .value []
  | cons ref rest ih =>
    refine .andThen (.eval seated (Paired.freeExpr _)) fun _ value later _ => ?_
    cases value with
    | interface i => exact .andThen (ih (seated.mono later)) fun _ _ _ _ => .value _
    | _ =>
      refine .heap fun _ _ _ _ _ => ?_
      rw [Heap.rescoped_text]
      exact .raise name.line _

theorem addClass_matches {cls : Class} (clear : T.Clear h cls.scope) :
    T.Matches h r Same (addClass cls) (addClass cls) := by
  refine .andThen (.allocate (fun _ _ => rfl) (fun _ => rfl) fun _ later guarded => ?_) fun _ c _ _ => ?_
  · exact guarded.addClass (clear.mono later)
  · refine .andThen (bindStatics_matches _ _) fun _ fields _ _ => ?_
    refine .andThen (.update (fun _ _ => rfl) (fun _ => rfl) fun _ _ guarded => ?_) fun _ _ _ _ => .value c
    exact guarded.setClassFields c _

theorem declaredClass_matches (clear : T.Clear h scope) (decl : ClassDecl) (superclass : Ref .cls)
    (interfaces : List (Ref .interface)) :
    T.Matches h r (fun _ cls cls' => cls' = cls ∧ cls.scope = scope)
      (declaredClass decl superclass interfaces scope) (declaredClass decl superclass interfaces scope) := by
  refine .andThen (declaredMethods_matches _ clear interfaces decl.methods .empty) fun h₁ methods later₁ _ => ?_
  have clear₁ := clear.mono later₁
  refine .heap fun h₂ S later₂ _ _ => ?_
  simp only [addDefaults_rescoped]
  refine .andThen (.inScope (clear₁.mono later₂).inside (fieldCells_matches (clear₁.mono later₂) _ _)) ?_
  intro _ fields _ _
  refine .heap fun _ _ _ _ _ => ?_
  simp only [Heap.rescoped_checkConformance, Heap.rescoped_interface]
  exact .andThen (.orRaise decl.name.line _) fun _ _ _ _ => .pure fun _ _ _ => ⟨rfl, rfl⟩

theorem declareClass_matches (clear : T.Clear h r) (decl : ClassDecl) :
    T.Matches h r Same (declareClass decl) (declareClass decl) := by
  have stores := stores_of_away clear.away decl.name.text
  refine .andThen (evalSuperclass_matches (.free clear) decl) fun h₁ superclass later₁ _ => ?_
  have clear₁ := clear.mono later₁
  refine .andThen (evalInterfaces_matches (.free clear₁) decl.name decl.interfaces) ?_
  intro h₂ interfaces later₂ _
  have clear₂ := clear₁.mono later₂
  refine .currentScope (.andThen (.define stores _) fun h₃ _ later₃ _ => ?_)
  have clear₃ := clear₂.mono later₃
  refine .bind (.addClear fun p member => ?_) fun h₄ scope _ _ _ made => ?_
  · cases member
    exact clear₃
  · obtain ⟨rfl, fresh⟩ := made
    refine .bind (declaredClass_matches fresh decl superclass interfaces) fun h₅ cls _ later₅ _ made => ?_
    obtain ⟨rfl, home⟩ := made
    refine .andThen (addClass_matches ?_) fun _ c _ _ => .define stores _
    rw [home]
    exact fresh.mono later₅

/-! Interfaces. -/

theorem interfaceMethods_matches (clear : T.Clear h scope) (decls : List FunctionDecl)
    (methods : NameMap (Ref .function)) :
    T.Matches h r Same (interfaceMethods scope decls methods) (interfaceMethods scope decls methods) := by
  induction decls generalizing h methods with
  | nil => exact .value methods
  | cons decl rest ih =>
    exact .andThen (.addFunction (clear.bears decl false)) fun _ _ later _ => ih (clear.mono later) _

theorem requiredCell_matches (clear : T.Clear h r) (field : Field) :
    T.Matches h r Same (requiredCell r field) (requiredCell r field) := by
  cases field with
  | var decl => exact .andThen (option_matches (.free clear) (Paired.freeOption _)) fun _ _ _ _ => .value _
  | property decl => exact .andThen (resolvedPropertyCell_matches clear decl) fun _ _ _ _ => .value _

theorem requiredCells_matches (clear : T.Clear h r) (fields : List Field) (cells : NameMap Cell) :
    T.Matches h r Same (requiredCells r fields cells) (requiredCells r fields cells) := by
  induction fields generalizing h cells with
  | nil => exact .value cells
  | cons field rest ih =>
    exact .andThen (requiredCell_matches clear field) fun _ _ later _ => ih (clear.mono later) _

theorem declareInterface_matches (clear : T.Clear h r) (decl : InterfaceDecl) :
    T.Matches h r Same (declareInterface decl) (declareInterface decl) := by
  refine .currentScope (.andThen (interfaceMethods_matches clear decl.methods .empty) fun _ _ later _ => ?_)
  refine .andThen (requiredCells_matches (clear.mono later) decl.fields .empty) fun _ _ _ _ => ?_
  refine .andThen (.allocate (fun _ _ => rfl) (fun _ => rfl) fun _ _ guarded => guarded.sameScopes rfl) ?_
  exact fun _ i _ _ => .define (stores_of_away clear.away _) _

end Treewalk.Evaluator
