import Treewalk.Proofs.Paired
import Treewalk.Proofs.Placement

/-!
Code without closures, resolved twice. The frames of the two resolutions are the same but for one that has the
variable of a loop on the one side and nothing on the other, with a frame around it that has the variable on
both. If the code resolves on the one side it does so on the other, to code that is paired with it.
-/

namespace Treewalk

/-! Code in which nothing closes over its scope. -/

mutual

def Expr.closureFree : Expr → Bool
  | .literal _ | .use _ | .this _ | .value _ | .super .. | .type .. => true
  | .group e | .unary _ _ e | .sizedArray _ _ e | .length _ e | .typeOf _ e | .get e _ _
  | .staticGet e _ => e.closureFree
  | .binary _ _ left right | .logical _ _ left right | .index left _ right | .cast left _ right =>
    left.closureFree && right.closureFree
  | .ternary _ condition yes no => condition.closureFree && yes.closureFree && no.closureFree
  | .assign _ _ operand => optionClosureFree operand
  | .call callee _ args generics _ =>
    callee.closureFree && exprsClosureFree args && exprsClosureFree generics
  | .set object _ _ operand | .staticSet object _ _ operand =>
    object.closureFree && optionClosureFree operand
  | .indexSet object _ position _ operand =>
    object.closureFree && position.closureFree && optionClosureFree operand
  | .array _ _ elements => exprsClosureFree elements
  | .lambda _ => false
termination_by structural e => e

def optionClosureFree : Option Expr → Bool
  | none => true
  | some e => e.closureFree
termination_by structural e => e

def exprsClosureFree : List Expr → Bool
  | [] => true
  | e :: rest => e.closureFree && exprsClosureFree rest
termination_by structural es => es

/-- No lambda stands in a statement, and no declaration of a function, class, interface or property. -/
def Stmt.closureFree : Stmt → Bool
  | .expr e | .expect _ e => e.closureFree
  | .var ⟨_, _, _, initializer⟩ => optionClosureFree initializer
  | .property _ | .function _ | .classDecl _ | .interfaceDecl _ => false
  | .enumDecl .. | .breaking _ | .continuing _ | .moduleName .. => true
  | .block body => stmtsClosureFree body
  | .ifElse condition yes no => condition.closureFree && yes.closureFree && branchClosureFree no
  | .whileLoop condition body increment _ =>
    condition.closureFree && body.closureFree && optionClosureFree increment
  | .whenLoop condition body finish => condition.closureFree && body.closureFree && branchClosureFree finish
  | .switch _ value cases default => value.closureFree && casesClosureFree cases && branchClosureFree default
  | .tryCatch body _ handler => body.closureFree && stmtsClosureFree handler
  | .test _ name body => name.closureFree && body.closureFree
  | .returning _ value => optionClosureFree value
termination_by structural s => s

def branchClosureFree : Option Stmt → Bool
  | none => true
  | some s => s.closureFree
termination_by structural s => s

def stmtsClosureFree : List Stmt → Bool
  | [] => true
  | s :: rest => s.closureFree && stmtsClosureFree rest
termination_by structural ss => ss

def casesClosureFree : List (Expr × Stmt) → Bool
  | [] => true
  | (candidate, body) :: rest => candidate.closureFree && body.closureFree && casesClosureFree rest
termination_by structural cs => cs

end

namespace Scoping

/-- The frames of two resolutions at a seat. -/
inductive Parallel : Seat → List Frame → List Frame → Prop where
  | same (frames : List Frame) : Parallel (.inside none) frames frames
  | copy {name : String} {home : Frame} {outer : List Frame} (bound : home.contains name = true) :
      Parallel (.inside (some (name, 0))) (declared .empty name :: home :: outer) (.empty :: home :: outer)
  | deeper {name : String} {depth : Nat} {frames frames' : List Frame} (frame : Frame)
      (outer : Parallel (.inside (some (name, depth))) frames frames') :
      Parallel (.inside (some (name, depth + 1))) (frame :: frames) (frame :: frames')

namespace Parallel

variable {seat : Seat} {frames frames' : List Frame}

theorem inner (parallel : Parallel seat frames frames') (frame : Frame) :
    Parallel seat.inner (frame :: frames) (frame :: frames') := by
  cases parallel with
  | same => exact .same _
  | copy bound => exact .deeper frame (.copy bound)
  | deeper frame' outer => exact .deeper frame (.deeper frame' outer)

theorem outer (parallel : Parallel seat frames frames') {inside inside' : List Frame}
    (after : Parallel seat.inner inside inside') : Parallel seat inside.tail inside'.tail := by
  cases parallel with
  | same => cases after with | same => exact .same _
  | copy => cases after with | deeper _ outer => exact outer
  | deeper => cases after with | deeper _ outer => exact outer

/-- The variable of the loop is found in the copy, and one frame further out without it. -/
theorem depthOf_self {name : String} {depth : Nat}
    (parallel : Parallel (.inside (some (name, depth))) frames frames') :
    (∃ d < depth, depthOf frames name = some d ∧ depthOf frames' name = some d) ∨
      (depthOf frames name = some depth ∧ depthOf frames' name = some (depth + 1)) := by
  generalize found : Seat.inside (some (name, depth)) = seat at parallel
  induction parallel generalizing depth with
  | same => cases found
  | copy bound =>
    cases found
    refine .inr ⟨?_, ?_⟩
    · simp [depthOf, List.findIdx?_cons, declared, NameMap.contains_insert]
    · simp [depthOf, List.findIdx?_cons, bound]
  | deeper frame _ ih =>
    cases found
    unfold depthOf at ih ⊢
    by_cases here : frame.contains name
    · exact .inl ⟨0, Nat.zero_lt_succ _, by simp [List.findIdx?_cons, here],
        by simp [List.findIdx?_cons, here]⟩
    · rcases ih rfl with ⟨d, less, first, second⟩ | ⟨first, second⟩
      · exact .inl ⟨d + 1, Nat.succ_lt_succ less, by simp [List.findIdx?_cons, here, first],
          by simp [List.findIdx?_cons, here, second]⟩
      · exact .inr ⟨by simp [List.findIdx?_cons, here, first], by simp [List.findIdx?_cons, here, second]⟩

theorem depthOf_other {name : String} (parallel : Parallel seat frames frames')
    (other : ∀ mark depth, seat = .inside (some (mark, depth)) → name ≠ mark) :
    depthOf frames' name = depthOf frames name := by
  induction parallel with
  | same => rfl
  | copy =>
    have apart := other _ _ rfl
    simp [depthOf, List.findIdx?_cons, declared, NameMap.contains_insert, apart]
  | deeper frame _ ih =>
    have outer := ih fun mark depth same => by
      cases same
      exact other _ _ rfl
    unfold depthOf at outer ⊢
    simp [List.findIdx?_cons, outer]

theorem locates (parallel : Parallel seat frames frames') (name : Name) (id : Nat) :
    Reference.Paired seat ⟨name, depthOf frames name.text, id⟩ ⟨name, depthOf frames' name.text, id⟩ := by
  by_cases marked : ∃ depth, seat = .inside (some (name.text, depth))
  · obtain ⟨depth, rfl⟩ := marked
    rcases parallel.depthOf_self with ⟨d, less, first, second⟩ | ⟨first, second⟩
    · rw [first, second]
      refine .same fun mark depth' same _ => ?_
      cases same
      exact ⟨d, less, rfl⟩
    · rw [first, second]
      exact .moved
  · rw [parallel.depthOf_other fun mark depth same named => marked ⟨depth, by rw [named, same]⟩]
    refine .same fun mark depth same named => absurd ⟨depth, ?_⟩ marked
    rw [same, ← named]

theorem initializing (parallel : Parallel seat frames frames') (name : String) :
    (frames'.head?.bind (·.find? name) = some false) ↔ (frames.head?.bind (·.find? name) = some false) := by
  cases parallel with
  | same => exact Iff.rfl
  | copy =>
    simp only [List.head?_cons, Option.bind_some, NameMap.find?_empty, declared, NameMap.find?_insert]
    split <;> simp
  | deeper => exact Iff.rfl

theorem head (parallel : Parallel seat frames frames') (declares : seat.Open) :
    (frames = [] ∧ frames' = [] ∧ seat = .inside none) ∨ ∃ frame outer outer', frames = frame :: outer ∧
      frames' = frame :: outer' ∧ ∀ frame', Parallel seat (frame' :: outer) (frame' :: outer') := by
  cases parallel with
  | same =>
    cases frames with
    | nil => exact .inl ⟨rfl, rfl, rfl⟩
    | cons frame outer => exact .inr ⟨frame, outer, outer, rfl, rfl, fun _ => .same _⟩
  | copy => exact declares.elim
  | deeper frame outer => exact .inr ⟨frame, _, _, rfl, rfl, fun frame' => .deeper frame' outer⟩

end Parallel

/-- Where the one resolution succeeds the other one does, and their results are related. -/
def Tracks (seat : Seat) (R : α → α → Prop) (c c' : Resolve α) : Prop :=
  ∀ s s', Parallel seat s.frames s'.frames → s'.moduleName = s.moduleName → ∀ a after, c s = .ok a after →
    ∃ a' after', c' s' = .ok a' after' ∧ Parallel seat after.frames after'.frames ∧
      after'.moduleName = after.moduleName ∧ R a a'

theorem inScope_eq (names : List String) (body : Resolve α) (s : Scopes) :
    inScope names body s =
      match body { s with frames := frameOf names :: s.frames } with
      | .ok a inside => .ok a { inside with frames := inside.frames.tail }
      | .error e inside => .error e inside := by
  cases found : body { s with frames := frameOf names :: s.frames } with
  | ok a inside =>
    change EStateM.bind body _ { s with frames := frameOf names :: s.frames } = _
    rw [EStateM.bind, found]
    rfl
  | error e inside =>
    change EStateM.bind body _ { s with frames := frameOf names :: s.frames } = _
    rw [EStateM.bind, found]

namespace Tracks

variable {seat : Seat} {R : α → α → Prop} {Q : β → β → Prop} {c c' : Resolve α}

theorem pure {a a' : α} (result : R a a') : Tracks seat R (Pure.pure a) (Pure.pure a') := by
  intro s s' parallel module b after done
  cases done
  exact ⟨a', s', rfl, parallel, module, result⟩

theorem bind {f f' : α → Resolve β} (first : Tracks seat R c c')
    (next : ∀ a a', R a a' → Tracks seat Q (f a) (f' a')) : Tracks seat Q (c >>= f) (c' >>= f') := by
  intro s s' parallel module b after done
  obtain ⟨a, middle, found, rest⟩ := ok_of_bind done
  obtain ⟨a', middle', found', parallel', module', result⟩ := first s s' parallel module a middle found
  obtain ⟨b', after', rest', last⟩ := next a a' result middle middle' parallel' module' b after rest
  exact ⟨b', after', (bind_ok found').trans rest', last⟩

theorem mistake (m : Mistake) (place : Name) {c' : Resolve α} : Tracks seat R (Scoping.mistake m place) c' := by
  intro s s' _ _ a after done
  cases done

theorem ite {p : Prop} [Decidable p] {no no' : Resolve α} (holds : p → Tracks seat R c c')
    (fails : ¬p → Tracks seat R no no') : Tracks seat R (if p then c else no) (if p then c' else no') := by
  by_cases decided : p
  · simpa [decided] using holds decided
  · simpa [decided] using fails decided

theorem inScope {names : List String} {body body' : Resolve α} (inner : Tracks seat.inner R body body') :
    Tracks seat R (Scoping.inScope names body) (Scoping.inScope names body') := by
  intro s s' parallel module a after done
  rw [inScope_eq] at done
  cases found : body { s with frames := frameOf names :: s.frames } with
  | error e inside =>
    rw [found] at done
    cases done
  | ok result inside =>
    rw [found] at done
    cases done
    obtain ⟨a', inside', found', parallel', module', related⟩ :=
      inner { s with frames := frameOf names :: s.frames } { s' with frames := frameOf names :: s'.frames }
        (parallel.inner _) module a inside found
    refine ⟨a', { inside' with frames := inside'.frames.tail }, ?_, parallel.outer parallel', module', related⟩
    rw [inScope_eq, found']

/-! References. -/

theorem locate (ref : Reference) :
    Tracks seat (fun r r' => r.Paired seat r') (Scoping.locate ref) (Scoping.locate ref) := by
  intro s s' parallel module a after done
  cases done
  exact ⟨_, s', rfl, parallel, module, parallel.locates ref.name ref.id⟩

theorem locateOther {ref : Reference}
    (other : ∀ mark depth, seat = .inside (some (mark, depth)) → ref.name.text ≠ mark) :
    Tracks seat (fun r r' => r' = r ∧ r.name = ref.name) (Scoping.locate ref) (Scoping.locate ref) := by
  intro s s' parallel module a after done
  cases done
  refine ⟨_, s', rfl, parallel, module, ?_, rfl⟩
  simp only [parallel.depthOf_other other]

theorem locateBound {R : Reference → Reference → Prop} {ref : Reference} {otherwise : Mistake}
    (located : Tracks seat R (Scoping.locate ref) (Scoping.locate ref))
    (found : ∀ r r', R r r' → r'.depth.isSome = r.depth.isSome) :
    Tracks seat R (Scoping.locateBound ref otherwise) (Scoping.locateBound ref otherwise) := by
  refine .bind located fun r r' related => ?_
  rw [found r r' related]
  exact .ite (fun _ => .pure related) fun _ => .mistake _ _

theorem use (ref : Reference) :
    Tracks seat (fun r r' => r.Paired seat r') (resolveUse ref) (resolveUse ref) := by
  intro s s' parallel module a after done
  have both := parallel.initializing ref.name.text
  by_cases initializing : s.frames.head?.bind (·.find? ref.name.text) = some false
  · have stuck : resolveUse ref s = .error ⟨.readInOwnInitializer, ref.name⟩ s := by
      change (if s.frames.head?.bind (·.find? ref.name.text) = some false then
        Scoping.mistake .readInOwnInitializer ref.name else Scoping.locate ref : Resolve Reference) s = _
      rw [if_pos initializing]
      rfl
    rw [stuck] at done
    cases done
  · have plain (t : Scopes) (readable : ¬t.frames.head?.bind (·.find? ref.name.text) = some false) :
        resolveUse ref t = Scoping.locate ref t := by
      change (if t.frames.head?.bind (·.find? ref.name.text) = some false then
        Scoping.mistake .readInOwnInitializer ref.name else Scoping.locate ref : Resolve Reference) t = _
      rw [if_neg readable]
    rw [plain s initializing] at done
    rw [plain s' fun found => initializing (both.mp found)]
    exact locate ref s s' parallel module a after done

/-! Declarations, where names can be declared. -/

theorem modifyHead (declares : seat.Open) {f : Resolve Unit} {g : Frame → Frame} {P : Frame → Prop}
    (outermost : ∀ module, f ⟨[], module⟩ = .ok () ⟨[], module⟩)
    (edits : ∀ frame outer module, ¬P frame → f ⟨frame :: outer, module⟩ = .ok () ⟨g frame :: outer, module⟩)
    (stuck : ∀ frame outer module, P frame → ∀ a after, f ⟨frame :: outer, module⟩ ≠ .ok a after) :
    Tracks seat (fun _ _ => True) f f := by
  intro s s' parallel module a after done
  obtain ⟨frames, name⟩ := s
  obtain ⟨frames', name'⟩ := s'
  cases module
  rcases parallel.head declares with ⟨rfl, rfl, rfl⟩ | ⟨frame, outer, outer', rfl, rfl, whole⟩
  · rw [outermost] at done
    cases done
    exact ⟨(), _, outermost _, parallel, rfl, trivial⟩
  · by_cases failing : P frame
    · exact absurd done (stuck _ _ _ failing _ _)
    · rw [edits _ _ _ failing] at done
      cases done
      exact ⟨(), _, edits _ _ _ failing, whole _, rfl, trivial⟩

theorem declare (declares : seat.Open) (name : Name) :
    Tracks seat (fun _ _ => True) (Scoping.declare name) (Scoping.declare name) := by
  have result (frame : Frame) (outer : List Frame) (module : Option String) :
      Scoping.declare name ⟨frame :: outer, module⟩ =
        (if frame.contains name.text then Scoping.mistake .alreadyDeclared name
          else set (⟨frame.insert name.text false :: outer, module⟩ : Scopes) : Resolve Unit)
          ⟨frame :: outer, module⟩ := rfl
  refine modifyHead declares (g := (·.insert name.text false)) (P := (·.contains name.text = true)) (fun _ => rfl)
    (fun frame outer module fresh => ?_) fun frame outer module taken a after => ?_
  · rw [result, if_neg fresh]
    rfl
  · rw [result, if_pos taken]
    exact fun done => by cases done

theorem define (declares : seat.Open) (name : Name) :
    Tracks seat (fun _ _ => True) (Scoping.define name) (Scoping.define name) :=
  modifyHead declares (g := (·.insert name.text true)) (P := fun _ => False) (fun _ => rfl)
    (fun _ _ _ _ => rfl) fun _ _ _ impossible => impossible.elim

theorem declareDefined (declares : seat.Open) (name : Name) :
    Tracks seat (fun _ _ => True) (Scoping.declareDefined name) (Scoping.declareDefined name) :=
  .bind (.declare declares name) fun _ _ _ => .define declares name

theorem declareAll (declares : seat.Open) (names : List Name) :
    Tracks seat (fun _ _ => True) (Scoping.declareAll names) (Scoping.declareAll names) := by
  induction names with
  | nil => exact .pure trivial
  | cons name rest ih => exact .bind (.declareDefined declares name) fun _ _ _ => ih

end Tracks

end Scoping

open Scoping

/-- The variable that a seat is marked with has a name that is not reserved. -/
def Seat.Proper (seat : Seat) : Prop :=
  ∀ name depth, seat = .inside (some (name, depth)) → ∀ entry ∈ TokenKind.words, entry.1 ≠ name

theorem Seat.Proper.inner {seat : Seat} (proper : seat.Proper) : seat.inner.Proper := by
  intro name depth same
  match seat with
  | .free | .inside none => cases same
  | .inside (some (mark, depth)) =>
    cases same
    exact proper _ depth rfl

namespace Scoping

section

variable {seat : Seat}

theorem resolveThis_paired (c : Context) (ref : Reference) :
    Tracks seat (fun r r' => r.Paired seat r') (resolveThis c ref) (resolveThis c ref) := by
  refine .ite (fun _ => .mistake _ _) fun _ => .locateBound (.locate ref) fun r r' paired => ?_
  cases paired <;> rfl

theorem resolveValue_paired (c : Context) (ref : Reference) :
    Tracks seat (fun r r' => r.Paired seat r') (resolveValue c ref) (resolveValue c ref) := by
  refine .ite (fun _ => .locateBound (.locate ref) fun r r' paired => ?_) fun _ => .mistake _ _
  cases paired <;> rfl

theorem resolveSuper_same (c : Context) {ref : Reference} (proper : seat.Proper)
    (named : ref.name.text = "super") :
    Tracks seat (fun r r' => r' = r ∧ r.name = ref.name) (resolveSuper c ref) (resolveSuper c ref) := by
  have other (mark : String) (depth : Nat) (same : seat = .inside (some (mark, depth))) :
      ref.name.text ≠ mark := by
    rw [named]
    exact proper mark depth same ("super", .kwSuper) (by decide)
  unfold resolveSuper
  split
  · exact .mistake _ _
  · exact .mistake _ _
  · exact .mistake _ _
  · refine .locateBound (.locateOther other) fun r r' same => ?_
    rw [same.1]

end

mutual

theorem resolveExpr_paired {seat : Seat} (proper : seat.Proper) (c : Context) :
    (e : Expr) → Formed (.expr e) → e.closureFree = true →
      Tracks seat (fun r r' => Paired seat (.expr r) (.expr r')) (resolveExpr c e) (resolveExpr c e)
  | .literal value, _, _ => .pure (.literal value)
  | .type line desc, _, _ => .pure (.type line desc)
  | .lambda decl, _, free => by cases free
  | .group inner, formed, free =>
    .bind (resolveExpr_paired proper c inner (formed.exprs [inner] rfl _ (by simp)) free)
      fun _ _ paired => .pure (.group paired)
  | .unary op line operand, formed, free =>
    .bind (resolveExpr_paired proper c operand (formed.exprs [operand] rfl _ (by simp)) free)
      fun _ _ paired => .pure (.unary paired)
  | .get object name nullSafe, formed, free =>
    .bind (resolveExpr_paired proper c object (formed.exprs [object] rfl _ (by simp)) free)
      fun _ _ paired => .pure (.get paired)
  | .staticGet object name, formed, free =>
    .bind (resolveExpr_paired proper c object (formed.exprs [object] rfl _ (by simp)) free)
      fun _ _ paired => .pure (.staticGet paired)
  | .sizedArray line elementType size, formed, free =>
    .bind (resolveExpr_paired proper c size (formed.exprs [size] rfl _ (by simp)) free)
      fun _ _ paired => .pure (.sizedArray paired)
  | .length line operand, formed, free =>
    .bind (resolveExpr_paired proper c operand (formed.exprs [operand] rfl _ (by simp)) free)
      fun _ _ paired => .pure (.length paired)
  | .typeOf line operand, formed, free =>
    .bind (resolveExpr_paired proper c operand (formed.exprs [operand] rfl _ (by simp)) free)
      fun _ _ paired => .pure (.typeOf paired)
  | .binary op line left right, formed, free => by
    have parts := formed.exprs [left, right] rfl
    simp only [Expr.closureFree, Bool.and_eq_true] at free
    refine .bind (resolveExpr_paired proper c left (parts _ (by simp)) free.1) fun _ _ first => ?_
    exact .bind (resolveExpr_paired proper c right (parts _ (by simp)) free.2) fun _ _ second =>
      .pure (.binary first second)
  | .logical op line left right, formed, free => by
    have parts := formed.exprs [left, right] rfl
    simp only [Expr.closureFree, Bool.and_eq_true] at free
    refine .bind (resolveExpr_paired proper c left (parts _ (by simp)) free.1) fun _ _ first => ?_
    exact .bind (resolveExpr_paired proper c right (parts _ (by simp)) free.2) fun _ _ second =>
      .pure (.logical first second)
  | .index object line position, formed, free => by
    have parts := formed.exprs [object, position] rfl
    simp only [Expr.closureFree, Bool.and_eq_true] at free
    refine .bind (resolveExpr_paired proper c object (parts _ (by simp)) free.1) fun _ _ first => ?_
    exact .bind (resolveExpr_paired proper c position (parts _ (by simp)) free.2) fun _ _ second =>
      .pure (.index first second)
  | .cast operand line target, formed, free => by
    have parts := formed.exprs [operand, target] rfl
    simp only [Expr.closureFree, Bool.and_eq_true] at free
    refine .bind (resolveExpr_paired proper c operand (parts _ (by simp)) free.1) fun _ _ first => ?_
    exact .bind (resolveExpr_paired proper c target (parts _ (by simp)) free.2) fun _ _ second =>
      .pure (.cast first second)
  | .ternary line condition yes no, formed, free => by
    have parts := formed.exprs [condition, yes, no] rfl
    simp only [Expr.closureFree, Bool.and_eq_true] at free
    refine .bind (resolveExpr_paired proper c condition (parts _ (by simp)) free.1.1) fun _ _ first => ?_
    refine .bind (resolveExpr_paired proper c yes (parts _ (by simp)) free.1.2) fun _ _ second => ?_
    exact .bind (resolveExpr_paired proper c no (parts _ (by simp)) free.2) fun _ _ third =>
      .pure (.ternary first second third)
  | .use ref, _, _ => .bind (.use ref) fun _ _ paired => .pure (.use paired)
  | .this ref, _, _ => .bind (resolveThis_paired c ref) fun _ _ paired => .pure (.this paired)
  | .value ref, _, _ => .bind (resolveValue_paired c ref) fun _ _ paired => .pure (.value paired)
  | .super ref method, formed, _ => by
    have written : ref.name.text = "super" := formed.regular
    refine .bind (resolveSuper_same c proper written) fun r r' same => .pure ?_
    obtain ⟨rfl, named⟩ := same
    refine .super fun mark depth marked => ⟨?_, proper mark depth marked ("this", .kwThis) (by decide)⟩
    rw [named, written]
    exact proper mark depth marked ("super", .kwSuper) (by decide)
  | .assign ref site operand, formed, free => by
    have parts := formed.exprs operand.toList rfl
    refine .bind (resolveOption_paired proper c operand (by simpa using parts) free) fun _ _ paired => ?_
    exact .bind (.locate ref) fun _ _ located => .pure (.assign located paired)
  | .call callee line args generics nullSafe, formed, free => by
    have parts := formed.exprs (callee :: (args ++ generics)) rfl
    simp only [Expr.closureFree, Bool.and_eq_true] at free
    refine .bind (resolveExpr_paired proper c callee (parts _ (by simp)) free.1.1) fun _ _ first => ?_
    refine .bind (resolveExprs_paired proper c args (fun e member => parts e (by simp [member])) free.1.2) ?_
    intro _ _ second
    refine .bind (resolveExprs_paired proper c generics (fun e member => parts e (by simp [member])) free.2) ?_
    exact fun _ _ third => .pure (.call first second third)
  | .set object name site operand, formed, free => by
    have parts := formed.exprs (object :: operand.toList) rfl
    simp only [Expr.closureFree, Bool.and_eq_true] at free
    refine .bind (resolveExpr_paired proper c object (parts _ (by simp)) free.1) fun _ _ first => ?_
    refine .bind (resolveOption_paired proper c operand (fun e member => parts e (by simp_all)) free.2) ?_
    exact fun _ _ second => .pure (.set first second)
  | .staticSet object name site operand, formed, free => by
    have parts := formed.exprs (object :: operand.toList) rfl
    simp only [Expr.closureFree, Bool.and_eq_true] at free
    refine .bind (resolveExpr_paired proper c object (parts _ (by simp)) free.1) fun _ _ first => ?_
    refine .bind (resolveOption_paired proper c operand (fun e member => parts e (by simp_all)) free.2) ?_
    exact fun _ _ second => .pure (.staticSet first second)
  | .indexSet object line position site operand, formed, free => by
    have parts := formed.exprs (object :: position :: operand.toList) rfl
    simp only [Expr.closureFree, Bool.and_eq_true] at free
    refine .bind (resolveExpr_paired proper c object (parts _ (by simp)) free.1.1) fun _ _ first => ?_
    refine .bind (resolveExpr_paired proper c position (parts _ (by simp)) free.1.2) fun _ _ second => ?_
    refine .bind (resolveOption_paired proper c operand (fun e member => parts e (by simp_all)) free.2) ?_
    exact fun _ _ third => .pure (.indexSet first second third)
  | .array line elementType elements, formed, free =>
    .bind (resolveExprs_paired proper c elements (formed.exprs elements rfl) free) fun _ _ paired =>
      .pure (.array paired)
termination_by structural e => e

theorem resolveOption_paired {seat : Seat} (proper : seat.Proper) (c : Context) :
    (e : Option Expr) → (∀ x ∈ e, Formed (.expr x)) → optionClosureFree e = true →
      Tracks seat (fun r r' => Paired seat (.option r) (.option r')) (resolveOption c e) (resolveOption c e)
  | none, _, _ => .pure .absent
  | some e, formed, free =>
    .bind (resolveExpr_paired proper c e (formed e rfl) free) fun _ _ paired => .pure (.present paired)
termination_by structural e => e

theorem resolveExprs_paired {seat : Seat} (proper : seat.Proper) (c : Context) :
    (es : List Expr) → (∀ e ∈ es, Formed (.expr e)) → exprsClosureFree es = true →
      Tracks seat (fun r r' => Paired seat (.exprs r) (.exprs r')) (resolveExprs c es) (resolveExprs c es)
  | [], _, _ => .pure .noExprs
  | e :: rest, formed, free => by
    simp only [exprsClosureFree, Bool.and_eq_true] at free
    refine .bind (resolveExpr_paired proper c e (formed e (by simp)) free.1) fun _ _ first => ?_
    refine .bind (resolveExprs_paired proper c rest (fun x member => formed x (by simp [member])) free.2) ?_
    exact fun _ _ others => .pure (.moreExprs first others)
termination_by structural es => es

end

theorem resolveStmt_moduleName (c : Context) (line : Line) (name : Name) (s : Scopes) :
    resolveStmt c (.moduleName line name) s =
      match s.moduleName with
      | some existing => .error ⟨.moduleDeclared existing, name⟩ s
      | none => .ok (.moduleName line name) { s with moduleName := some name.text } := by
  cases known : s.moduleName with
  | some existing =>
    change (match s.moduleName with
      | some existing => mistake (.moduleDeclared existing) name
      | none => _ : Resolve Stmt) s = _
    rw [known]
    rfl
  | none =>
    change (match s.moduleName with
      | some existing => mistake (.moduleDeclared existing) name
      | none => _ : Resolve Stmt) s = _
    rw [known]
    rfl

mutual

/-- A statement may declare something only where names can be declared. -/
theorem resolveStmt_paired {seat : Seat} (proper : seat.Proper) (c : Context) :
    (s : Stmt) → Formed (.stmt s) → s.closureFree = true → seat.Open ∨ s.Plain →
      Tracks seat (fun r r' => Paired seat (.stmt r) (.stmt r')) (resolveStmt c s) (resolveStmt c s)
  | .property _, _, free, _ | .function _, _, free, _ | .classDecl _, _, free, _
  | .interfaceDecl _, _, free, _ => by cases free
  | .breaking line, _, _, _ => .ite (fun _ => .pure (.breaking line)) fun _ => .mistake _ _
  | .continuing line, _, _, _ => .ite (fun _ => .pure (.continuing line)) fun _ => .mistake _ _
  | .expr e, formed, free, _ => by
    have part : Formed (.expr e) := formed.part (by simp [Item.parts, Stmt.parts])
    exact .bind (resolveExpr_paired proper c e part free) fun _ _ paired => .pure (.expression paired)
  | .expect line e, formed, free, _ => by
    have part : Formed (.expr e) := formed.part (by simp [Item.parts, Stmt.parts])
    refine .ite (fun _ => ?_) fun _ => .mistake _ _
    exact .bind (resolveExpr_paired proper c e part free) fun _ _ paired => .pure (.expect paired)
  | .returning line value, formed, free, _ => by
    have part : ∀ e ∈ value, Formed (.expr e) := fun e member =>
      formed.part (by simp [Item.parts, Stmt.parts, Option.mem_def.mp member])
    refine .ite (fun _ => .mistake _ _) fun _ => .ite (fun _ => .mistake _ _) fun _ => ?_
    exact .bind (resolveOption_paired proper c value part free) fun _ _ paired => .pure (.returning paired)
  | .var ⟨name, modifiers, declared, initializer⟩, formed, free, place => by
    have declares := place.resolve_right fun plain => by cases plain.1
    have part : ∀ e ∈ initializer, Formed (.expr e) := fun e member =>
      formed.part (by simp [Item.parts, Stmt.parts, VarDecl.parts, Option.mem_def.mp member])
    refine .bind (R := fun decl decl' => Paired seat (.stmt (.var decl)) (.stmt (.var decl'))) ?_
      fun _ _ paired => .pure paired
    refine .bind (.declare declares name) fun _ _ _ => ?_
    refine .bind (resolveOption_paired proper c initializer part free) fun _ _ paired => ?_
    exact .bind (.define declares name) fun _ _ _ => .pure (.var declares paired)
  | .enumDecl name elements, _, _, place => by
    have declares := place.resolve_right fun plain => by cases plain.1
    exact .bind (.declareDefined declares name) fun _ _ _ => .pure (.enumDecl declares)
  | .moduleName line name, _, _, _ => by
    intro s s' parallel module a after done
    rw [resolveStmt_moduleName] at done
    cases known : s.moduleName with
    | some existing =>
      rw [known] at done
      cases done
    | none =>
      rw [known] at done
      cases done
      refine ⟨_, { s' with moduleName := some name.text }, ?_, parallel, rfl, .moduleName line name⟩
      rw [resolveStmt_moduleName, module, known]
  | .block body, formed, free, _ => by
    have part : Formed (.body body) := formed.part (by simp [Item.parts, Stmt.parts])
    refine .bind (.inScope (resolveStmts_paired proper.inner seat.inner_open c body part.body free)) ?_
    exact fun _ _ paired => .pure (.block paired)
  | .ifElse condition yes no, formed, free, _ => by
    simp only [Stmt.closureFree, Bool.and_eq_true] at free
    have plain := formed.regular.1
    have first : Formed (.expr condition) := formed.part (by simp [Item.parts, Stmt.parts])
    have second : Formed (.stmt yes) := formed.part (by simp [Item.parts, Stmt.parts])
    have third : ∀ s ∈ no, Formed (.stmt s) ∧ s.Plain := fun s member =>
      ⟨formed.part (by simp [Item.parts, Stmt.parts, Option.mem_def.mp member]),
        plain s (by simp [Stmt.branches, Option.mem_def.mp member])⟩
    refine .bind (resolveExpr_paired proper c condition first free.1.1) fun _ _ condition => ?_
    refine .bind (resolveStmt_paired proper c yes second free.1.2 (.inr (plain yes (by simp [Stmt.branches])))) ?_
    intro _ _ yes
    exact .bind (resolveBranch_paired proper c no third free.2) fun _ _ no => .pure (.ifElse condition yes no)
  | .whileLoop condition body increment [], formed, free, _ => by
    simp only [Stmt.closureFree, Bool.and_eq_true] at free
    have first : Formed (.expr condition) := formed.part (by simp [Item.parts, Stmt.parts])
    have second : Formed (.stmt body) := formed.part (by simp [Item.parts, Stmt.parts])
    have third : ∀ e ∈ increment, Formed (.expr e) := fun e member =>
      formed.part (by simp [Item.parts, Stmt.parts, Option.mem_def.mp member])
    refine .bind (resolveExpr_paired proper c condition first free.1.1) fun _ _ condition => ?_
    refine .bind (resolveOption_paired proper c increment third free.2) fun _ _ increment => ?_
    refine .bind (resolveStmt_paired proper _ body second free.1.2
      (.inr (formed.regular.1 body (by simp [Stmt.branches])))) fun _ _ body => ?_
    exact .pure (.whileLoop condition body increment)
  | .whileLoop condition body increment (name :: names), formed, free, place => by
    simp only [Stmt.closureFree, Bool.and_eq_true] at free
    have declares := place.resolve_right fun plain => by cases plain.2
    have first : Formed (.expr condition) := formed.part (by simp [Item.parts, Stmt.parts])
    have second : Formed (.stmt body) := formed.part (by simp [Item.parts, Stmt.parts])
    have third : ∀ e ∈ increment, Formed (.expr e) := fun e member =>
      formed.part (by simp [Item.parts, Stmt.parts, Option.mem_def.mp member])
    refine .bind (resolveExpr_paired proper c condition first free.1.1) fun _ _ condition => ?_
    refine .bind (resolveOption_paired proper c increment third free.2) fun _ _ increment => ?_
    refine .bind (.inScope (.bind (.declareAll seat.inner_open _) fun _ _ _ =>
      resolveStmt_paired proper.inner _ body second free.1.2 (.inl seat.inner_open))) fun _ _ body => ?_
    exact .pure (.copyingLoop declares condition body increment)
  | .whenLoop condition body finish, formed, free, _ => by
    simp only [Stmt.closureFree, Bool.and_eq_true] at free
    have plain := formed.regular.1
    have first : Formed (.expr condition) := formed.part (by simp [Item.parts, Stmt.parts])
    have second : Formed (.stmt body) := formed.part (by simp [Item.parts, Stmt.parts])
    have third : ∀ s ∈ finish, Formed (.stmt s) ∧ s.Plain := fun s member =>
      ⟨formed.part (by simp [Item.parts, Stmt.parts, Option.mem_def.mp member]),
        plain s (by simp [Stmt.branches, Option.mem_def.mp member])⟩
    refine .bind (resolveExpr_paired proper c condition first free.1.1) fun _ _ condition => ?_
    refine .bind (resolveStmt_paired proper _ body second free.1.2 (.inr (plain body (by simp [Stmt.branches])))) ?_
    intro _ _ body
    refine .bind (resolveBranch_paired proper c finish third free.2) fun _ _ finish => ?_
    exact .pure (.whenLoop condition body finish)
  | .switch line value cases default, formed, free, _ => by
    simp only [Stmt.closureFree, Bool.and_eq_true] at free
    have plain := formed.regular.1
    have first : Formed (.expr value) := formed.part (by simp [Item.parts, Stmt.parts])
    have second : ∀ x ∈ cases, Formed (.expr x.1) ∧ Formed (.stmt x.2) ∧ x.2.Plain := fun x member =>
      ⟨formed.part (by simp only [Item.parts, Stmt.parts]; grind),
        formed.part (by simp only [Item.parts, Stmt.parts]; grind),
        plain x.2 (by simp only [Stmt.branches]; grind)⟩
    have third : ∀ s ∈ default, Formed (.stmt s) ∧ s.Plain := fun s member =>
      ⟨formed.part (by simp [Item.parts, Stmt.parts, Option.mem_def.mp member]),
        plain s (by simp [Stmt.branches, Option.mem_def.mp member])⟩
    refine .bind (resolveExpr_paired proper c value first free.1.1) fun _ _ value => ?_
    refine .bind (resolveCases_paired proper _ cases second free.1.2) fun _ _ cases => ?_
    exact .bind (resolveBranch_paired proper _ default third free.2) fun _ _ default =>
      .pure (.switch value cases default)
  | .tryCatch body name handler, formed, free, _ => by
    simp only [Stmt.closureFree, Bool.and_eq_true] at free
    have first : Formed (.stmt body) := formed.part (by simp [Item.parts, Stmt.parts])
    have second : Formed (.body handler) := formed.part (by simp [Item.parts, Stmt.parts])
    refine .bind (resolveStmt_paired proper c body first free.1
      (.inr (formed.regular.1 body (by simp [Stmt.branches])))) fun _ _ body => ?_
    refine .bind (.inScope (.bind (.declareAll seat.inner_open _) fun _ _ _ =>
      resolveStmts_paired proper.inner seat.inner_open c handler second.body free.2)) fun _ _ handler => ?_
    exact .pure (.tryCatch body handler)
  | .test line name body, formed, free, _ => by
    simp only [Stmt.closureFree, Bool.and_eq_true] at free
    have first : Formed (.expr name) := formed.part (by simp [Item.parts, Stmt.parts])
    have second : Formed (.stmt body) := formed.part (by simp [Item.parts, Stmt.parts])
    refine .bind (resolveExpr_paired proper c name first free.1) fun _ _ name => ?_
    refine .bind (resolveStmt_paired proper _ body second free.2
      (.inr (formed.regular.1 body (by simp [Stmt.branches])))) fun _ _ body => ?_
    exact .pure (.test name body)
termination_by structural s => s

theorem resolveBranch_paired {seat : Seat} (proper : seat.Proper) (c : Context) :
    (s : Option Stmt) → (∀ x ∈ s, Formed (.stmt x) ∧ x.Plain) → branchClosureFree s = true →
      Tracks seat (fun r r' => Paired seat (.branch r) (.branch r')) (resolveStmtOption c s)
        (resolveStmtOption c s)
  | none, _, _ => .pure .noBranch
  | some s, formed, free =>
    .bind (resolveStmt_paired proper c s (formed s rfl).1 free (.inr (formed s rfl).2)) fun _ _ paired =>
      .pure (.branch paired)
termination_by structural s => s

theorem resolveStmts_paired {seat : Seat} (proper : seat.Proper) (declares : seat.Open) (c : Context) :
    (ss : List Stmt) → (∀ s ∈ ss, Formed (.stmt s)) → stmtsClosureFree ss = true →
      Tracks seat (fun r r' => Paired seat (.stmts r) (.stmts r')) (resolveStmts c ss) (resolveStmts c ss)
  | [], _, _ => .pure .noStmts
  | s :: rest, formed, free => by
    simp only [stmtsClosureFree, Bool.and_eq_true] at free
    refine .bind (resolveStmt_paired proper c s (formed s (by simp)) free.1 (.inl declares)) fun _ _ first => ?_
    refine .bind (resolveStmts_paired proper declares c rest (fun x member => formed x (by simp [member])) free.2) ?_
    exact fun _ _ others => .pure (.moreStmts first others)
termination_by structural ss => ss

theorem resolveCases_paired {seat : Seat} (proper : seat.Proper) (c : Context) :
    (cs : List (Expr × Stmt)) → (∀ x ∈ cs, Formed (.expr x.1) ∧ Formed (.stmt x.2) ∧ x.2.Plain) →
      casesClosureFree cs = true →
      Tracks seat (fun r r' => Paired seat (.cases r) (.cases r')) (resolveCases c cs) (resolveCases c cs)
  | [], _, _ => .pure .noCases
  | (candidate, body) :: rest, formed, free => by
    simp only [casesClosureFree, Bool.and_eq_true] at free
    have here := formed (candidate, body) (by simp)
    refine .bind (resolveExpr_paired proper c candidate here.1 free.1.1) fun _ _ first => ?_
    refine .bind (resolveStmt_paired proper c body here.2.1 free.1.2 (.inr here.2.2)) fun _ _ second => ?_
    refine .bind (resolveCases_paired proper c rest (fun x member => formed x (by simp [member])) free.2) ?_
    exact fun _ _ others => .pure (.moreCases first second others)
termination_by structural cs => cs

end

end Scoping

end Treewalk
