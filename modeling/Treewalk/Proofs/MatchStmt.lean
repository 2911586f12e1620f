import Treewalk.Eval.Stmt
import Treewalk.Proofs.MatchDeclare

/-!
Statements on two machines that are tied together, and whole activities: if two machines are tied and perform
activities that are paired, they stay tied and come to the same end.
-/

namespace Treewalk

open Tie

variable {T : Tie} {h : Heap} {r source target : Ref .scope} {seat : Seat} {fuel fuel' : Nat}

namespace Evaluator

theorem whileLoop_matches {e e' : Expr} {body body' : Run Signal} {i i' : Option Expr} (fuels : T.pace.Fuels fuel fuel')
    (seated : T.Seated h seat r) (condition : Paired seat (.expr e) (.expr e'))
    (round : ∀ h', h.Extends h' → T.Matches h' r Same body body')
    (increment : Paired seat (.option i) (.option i')) :
    T.Matches h r Same (whileLoop e body i fuel) (whileLoop e' body' i' fuel') := by
  induction fuels generalizing h with
  | first ahead => exact .lostFirst ahead
  | second ahead => exact .lostSecond ahead
  | out => exact .stop _
  | @more fuel fuel' _ ih =>
    refine .andThen (.eval seated condition) fun h₁ value later₁ _ => ?_
    refine .ite (fun _ => ?_) fun _ => .value _
    refine .andThen (round h₁ later₁) fun h₂ signal later₂ _ => ?_
    have again : T.Matches h₂ r Same (option i >>= fun _ => whileLoop e body i fuel)
        (option i' >>= fun _ => whileLoop e' body' i' fuel') := by
      have seated₂ := (seated.mono later₁).mono later₂
      refine .andThen (option_matches seated₂ increment) fun h₃ _ later₃ _ => ?_
      exact ih (seated₂.mono later₃) fun h' further =>
        round h' (later₁.trans (later₂.trans (later₃.trans further)))
    cases signal with
    | normal | continuing => exact again
    | _ => exact .value _

theorem untilLoop_matches {e e' : Expr} {s s' : Stmt} (fuels : T.pace.Fuels fuel fuel') (seated : T.Seated h seat r)
    (condition : Paired seat (.expr e) (.expr e')) (body : Paired seat (.stmt s) (.stmt s')) :
    T.Matches h r Same (untilLoop e s fuel) (untilLoop e' s' fuel') := by
  induction fuels generalizing h with
  | first ahead => exact .lostFirst ahead
  | second ahead => exact .lostSecond ahead
  | out => exact .stop _
  | more _ ih =>
    refine .andThen (.eval seated condition) fun h₁ value later₁ _ => .ite (fun _ => .value _) fun _ => ?_
    have seated₁ := seated.mono later₁
    refine .andThen (.exec seated₁ body) fun h₂ signal later₂ _ => ?_
    cases signal with
    | normal | continuing => exact ih (seated₁.mono later₂)
    | _ => exact .value _

theorem copyNames_matches (from' : T.Seated h seat source) (readable : seat.Open)
    (stores : ∀ name, T.Stores name target target) (names : List Name) :
    T.Matches h r Same (copyNames source target names) (copyNames source target names) := by
  induction names generalizing h with
  | nil => exact .value ()
  | cons name rest ih =>
    refine .readingIn (fun _ _ later _ alike => (from'.mono later).here_open readable alike name.text) ?_
    intro h₁ later₁ _
    have remaining {h₂ : Heap} (later₂ : h₁.Extends h₂) := ih ((from'.mono later₁).mono later₂)
    cases h₁.here? source name.text with
    | some cell => exact .andThen (.define (stores name.text) cell) fun _ _ later₂ _ => remaining later₂
    | none => exact .andThen (.value ()) fun _ _ later₂ _ => remaining later₂

theorem copies_rescoped {S : Array Scope} (seated : T.Seated h seat r) (declares : seat.Open)
    (alike : T.Alike h (h.rescoped S)) (names : List Name) :
    (h.rescoped S).copies r names = h.copies r names := by
  induction names with
  | nil => rfl
  | cons name rest ih => simp [Heap.copies, ih, seated.here_open declares alike]

theorem iteration_matches {s s' : Stmt} (seated : T.Seated h seat r) (declares : seat.Open)
    (body : Paired seat.inner (.stmt s) (.stmt s')) (names : List Name) :
    T.Matches h r Same (iteration s names) (iteration s' names) := by
  refine .currentScope (.readingIn (fun _ _ later _ alike => ?_) fun h₁ later₁ _ => ?_)
  · exact copies_rescoped (seated.mono later) declares alike names
  · refine .bind (.addInner (seated.mono later₁) rfl) fun h₂ scope _ _ _ made => ?_
    obtain ⟨rfl, fresh⟩ := made
    refine .andThen (block_matches fresh (.moreStmts body .noStmts)) fun h₃ signal later₃ _ => ?_
    refine .andThen (copyNames_matches (fresh.mono later₃) seat.inner_open ?_ names) fun _ _ _ _ => .value signal
    exact seated.stores_open declares

theorem runWhen_matches {e e' : Expr} {s s' : Stmt} {f f' : Option Stmt} (fuels : T.pace.Fuels fuel fuel')
    (seated : T.Seated h seat r) (condition : Paired seat (.expr e) (.expr e'))
    (body : Paired seat (.stmt s) (.stmt s')) (finish : Paired seat (.branch f) (.branch f')) :
    T.Matches h r Same (runWhen fuel e s f) (runWhen fuel' e' s' f') := by
  refine .andThen (untilLoop_matches fuels seated condition body) fun _ signal later _ => ?_
  cases signal with
  | normal =>
    cases finish with
    | noBranch => exact .value _
    | branch last => exact .exec (seated.mono later) last
  | _ => exact .value _

theorem selectCase_matches {cs cs' : List (Expr × Stmt)} {d d' : Option Stmt} (line : Line) (value : Value)
    (seated : T.Seated h seat r) (default : Paired seat (.branch d) (.branch d'))
    (cases' : Paired seat (.cases cs) (.cases cs')) :
    T.Matches h r (fun _ s s' => Paired seat (.branch s) (.branch s')) (selectCase line value d cs)
      (selectCase line value d' cs') := by
  induction cs generalizing cs' h with
  | nil =>
    cases cases'
    exact .pure fun _ _ _ => default
  | cons first rest ih =>
    cases cases' with
    | moreCases candidate body others =>
      refine .andThen (.eval seated candidate) fun _ other later _ => ?_
      refine .andThen (operation_matches .equal _ line value other) fun _ _ later' _ => ?_
      exact .ite (fun _ => .pure fun _ _ _ => .branch body) fun _ => ih ((seated.mono later).mono later') others

theorem runSwitch_matches {e e' : Expr} {cs cs' : List (Expr × Stmt)} {d d' : Option Stmt} (line : Line)
    (seated : T.Seated h seat r) (value : Paired seat (.expr e) (.expr e'))
    (cases' : Paired seat (.cases cs) (.cases cs')) (default : Paired seat (.branch d) (.branch d')) :
    T.Matches h r Same (runSwitch line e cs d) (runSwitch line e' cs' d') := by
  refine .andThen (.eval seated value) fun _ value later _ => ?_
  refine .bind (selectCase_matches line value (seated.mono later) default cases') ?_
  intro _ s s' later' _ selected
  cases selected with
  | noBranch => exact .value _
  | branch body =>
    refine .andThen (.exec ((seated.mono later).mono later') body) fun _ signal _ _ => ?_
    cases signal <;> exact .value _

theorem handle_matches {ss ss' : List Stmt} (seated : T.Seated h seat r) (name : Option Name)
    (handler : Paired seat.inner (.stmts ss) (.stmts ss')) (e : RuntimeError) :
    T.Matches h r Same (handle name ss e) (handle name ss' e) := by
  refine .currentScope (.bind (.addInner seated rfl) fun _ scope _ _ _ made => ?_)
  obtain ⟨rfl, fresh⟩ := made
  exact block_matches fresh handler

theorem runTest_matches {e e' : Expr} {s s' : Stmt} (line : Line) (seated : T.Seated h seat r)
    (name : Paired seat (.expr e) (.expr e')) (body : Paired seat (.stmt s) (.stmt s')) :
    T.Matches h r Same (runTest line e s) (runTest line e' s') := by
  refine .andThen (.eval seated name) fun _ title later _ => ?_
  cases title with
  | str text =>
    refine .andThen (.exec (seated.mono later) body) fun h₁ signal _ _ => ?_
    have verdict : T.Matches h₁ r Same (passes line signal) (passes line signal) := by
      cases signal with
      | returning value => exact .raise line _
      | _ => exact .value _
    exact .andThen verdict fun _ _ _ _ => .andThen (.printOut _) fun _ _ _ _ => .value _
  | _ => exact .raise line _

theorem evalStmt_matches {s s' : Stmt} (fuels : T.pace.Fuels fuel fuel') (seated : T.Seated h seat r)
    (paired : Paired seat (.stmt s) (.stmt s')) : T.Matches h r Same (evalStmt fuel s) (evalStmt fuel' s') := by
  have normally {c c' : Run Unit} (first : T.Matches h r Same c c') :
      T.Matches h r Same (c >>= fun _ => pure Signal.normal) (c' >>= fun _ => pure Signal.normal) :=
    .andThen first fun _ _ _ _ => .value _
  cases paired with
  | expression inner => exact .andThen (.eval seated inner) fun _ _ _ _ => .value _
  | var declares initializer => exact normally (declareVariable_matches seated declares initializer)
  | enumDecl declares => exact normally (declareEnum_matches seated declares _ _)
  | property decl =>
    cases seated with
    | free clear => exact normally (declareProperty_matches clear decl)
  | function decl =>
    cases seated with
    | free clear => exact normally (declareFunction_matches clear decl)
  | classDecl decl =>
    cases seated with
    | free clear => exact normally (declareClass_matches clear decl)
  | interfaceDecl decl =>
    cases seated with
    | free clear => exact normally (declareInterface_matches clear decl)
  | block body =>
    refine .currentScope (.bind (.addInner seated rfl) fun _ scope _ _ _ made => ?_)
    obtain ⟨rfl, fresh⟩ := made
    exact block_matches fresh body
  | ifElse condition yes no =>
    refine .andThen (.eval seated condition) fun _ _ later _ => ?_
    refine .ite (fun _ => .exec (seated.mono later) yes) fun _ => ?_
    cases no with
    | noBranch => exact .value _
    | branch other => exact .exec (seated.mono later) other
  | whileLoop condition body increment =>
    exact whileLoop_matches fuels seated condition (fun _ later => .exec (seated.mono later) body) increment
  | copyingLoop declares condition body increment =>
    exact whileLoop_matches fuels seated condition
      (fun _ later => iteration_matches (seated.mono later) declares body _) increment
  | whenLoop condition body finish => exact runWhen_matches fuels seated condition body finish
  | switch value cases' default => exact runSwitch_matches _ seated value cases' default
  | tryCatch body handler =>
    exact .catching (.exec seated body) fun fault _ later => handle_matches (seated.mono later) _ handler fault
  | test name body => exact runTest_matches _ seated name body
  | expect value => exact .andThen (.eval seated value) fun _ _ _ _ => .value _
  | returning value => exact .andThen (option_matches seated value) fun _ _ _ _ => .value _
  | breaking line | continuing line | moduleName line => exact .value _

end Evaluator

/-! Whole activities. -/

/-- Two ways to perform activities that keep tied machines tied and come to the same end on both. -/
structure Tie.Synchronous (T : Tie) (act act' : (a : Activity) → Machine → Outcome a.Result) : Prop where
  expr : ∀ {seat e e' m S err}, T.Holds m S err → T.Seated m.heap seat m.scope →
    Paired seat (.expr e) (.expr e') →
      T.Agree m.heap m.scope Same (act (.expr e) m) (act' (.expr e') (m.beside S err))
  stmt : ∀ {seat s s' m S err}, T.Holds m S err → T.Seated m.heap seat m.scope →
    Paired seat (.stmt s) (.stmt s') →
      T.Agree m.heap m.scope Same (act (.stmt s) m) (act' (.stmt s') (m.beside S err))
  other : ∀ {a m S err}, T.Holds m S err → T.Ready m.heap a →
    T.Agree m.heap m.scope Same (act a m) (act' a (m.beside S err))

theorem Plan.Matched.outcome {R : Heap → α → α → Prop} {plan plan' : Plan α}
    {act act' : (a : Activity) → Machine → Outcome a.Result} (matched : Plan.Matched T h r R plan plan')
    (synchronous : T.Synchronous act act') : T.Agree h r R (plan.outcome act) (plan'.outcome act') := by
  induction matched with
  | done agree => exact agree
  | first ahead => exact .first ahead
  | second ahead => exact .second ahead
  | expr held _ seated paired _ ih => exact ih _ _ (synchronous.expr held seated paired)
  | stmt held _ seated paired _ ih => exact ih _ _ (synchronous.stmt held seated paired)
  | ask held _ ready _ ih => exact ih _ _ (synchronous.other held ready)

/-- By induction on the fuel. An activity needs others, for which there is less of it. -/
theorem perform_synchronous (fuels : T.pace.Fuels fuel fuel') : T.Synchronous (perform fuel) (perform fuel') := by
  induction fuels with
  | first ahead => exact ⟨fun _ _ _ => .first ahead, fun _ _ _ => .first ahead, fun _ _ => .first ahead⟩
  | second ahead => exact ⟨fun _ _ _ => .second ahead, fun _ _ _ => .second ahead, fun _ _ => .second ahead⟩
  | out =>
    exact ⟨fun held _ _ => .error _ held (.refl _) rfl, fun held _ _ => .error _ held (.refl _) rfl,
      fun held _ => .error _ held (.refl _) rfl⟩
  | more less ih =>
    refine ⟨fun held seated paired => ?_, fun held seated paired => ?_, fun held ready => ?_⟩
    · exact (Evaluator.evalExpr_matches seated paired _ _ _ held (.refl _) rfl).outcome ih
    · exact (Evaluator.evalStmt_matches less seated paired _ _ _ held (.refl _) rfl).outcome ih
    · rename_i a m S err
      cases a with
      | expr | stmt => exact ready.elim
      | call f args generics line =>
        exact (Evaluator.callFunction_matches ready args generics line m S err held (.refl _) rfl).outcome ih
      | text value => exact (Evaluator.textOf_matches value m S err held (.refl _) rfl).outcome ih

theorem Tie.synchronous (T : Tie) (fuel : Nat) : T.Synchronous (perform fuel) (perform fuel) :=
  perform_synchronous (.refl T.pace fuel)

end Treewalk
