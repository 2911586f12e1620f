import Treewalk.Proofs.Unrolling

/-!
The parser reads the whole text. It comes to the end of the tokens in every case, since a declaration that fails is
followed by a fresh start further on. If it has recorded no mistake on its way, the statements that it yields account
for all tokens: the text is their parts one after another.
-/

namespace Treewalk.Grammar

open Treewalk.Grammar.Parser

variable {n fuel fuel' : Nat}

/-- The parsers of the grammar over the rules that they come back to. -/
inductive Part : {α : Type} → (Rules → Parser α) → Prop where
  | require (kind : TokenKind) (what : String) : Part fun _ => require kind what
  | modifiers : Part fun _ => modifiers
  | dimensions (desc : TypeDesc) : Part fun _ => dimensions desc
  | functionType : Part fun _ => functionType writtenTypeAfter
  | typeStart (first : Token) : Part fun _ => typeStart writtenTypeAfter first
  | writtenTypeAfter (before : Name) : Part fun _ => writtenTypeAfter before
  | writtenType? : Part fun _ => writtenType?
  | parameter : Part fun _ => parameter
  | parameters : Part fun _ => parameters
  | resultType : Part fun _ => resultType
  | reference (what : String) : Part fun _ => reference what
  | templates : Part fun _ => templates
  | enumDeclaration : Part fun _ => enumDeclaration
  | parenthesized (keyword : String) : Part fun r => parenthesized r keyword
  | block : Part block
  | bracedBody (kind : String) : Part fun r => bracedBody r kind
  | functionBody (kind : String) (needed : Bool) : Part fun r => functionBody r kind needed
  | functionRest (name : Name) (kind : String) (given : Modifiers) (needsBody : Bool) :
      Part fun r => functionRest r name kind given needsBody
  | function (kind : String) (given : Modifiers) : Part fun r => function r kind given
  | arrayLiteral (line : Line) : Part fun r => arrayLiteral r line
  | elements : Part arrayLiteral.elements
  | primary : Part primary
  | callRest (callee : Expr) (generics : List Expr) (nullSafe : Bool) :
      Part fun r => callRest r callee generics nullSafe
  | genericCall (callee : Expr) : Part fun r => genericCall r callee
  | nullSafeMember (object : Expr) : Part fun r => nullSafeMember r object
  | suffix? (e : Expr) : Part fun r => suffix? r e
  | call : Part call
  | unary : Part unary
  | level {β : Type} (select : TokenKind → Option β) (join : β → Line → Expr → Expr → Expr)
      {operand : Rules → Parser Expr} (part : Part operand) : Part fun r => level select join (operand r)
  | factor : Part factor
  | term : Part term
  | comparison : Part comparison
  | equality : Part equality
  | conjunction : Part conjunction
  | disjunction : Part disjunction
  | ternary : Part ternary
  | casts : Part casts
  | assignedValue (op : AssignOp) : Part fun r => assignedValue r op
  | assignment : Part assignment
  | varRest (name : Name) (given : Modifiers) (declared : Option TypeDesc) : Part fun r => varRest r name given declared
  | varDeclaration (given : Modifiers) : Part fun r => varDeclaration r given
  | accessor (accessors : Accessors) (decl : FunctionDecl) : Part fun _ => accessors.add decl
  | propertyRest (name : Name) (given : Modifiers) (declared : TypeDesc) :
      Part fun r => propertyRest r name given declared
  | typedDeclaration (given : Modifiers) (declared : TypeDesc) : Part fun r => typedDeclaration r given declared
  | member (kind : String) : Part fun r => member r kind
  | members (kind : String) : Part fun r => members r kind
  | classDeclaration : Part classDeclaration
  | interfaceDeclaration : Part interfaceDeclaration
  | expressionStatement : Part expressionStatement
  | ifStatement : Part ifStatement
  | whileStatement : Part whileStatement
  | whenStatement : Part whenStatement
  | forInitializer : Part forInitializer
  | forStatement : Part forStatement
  | defaultOnce (branches : Branches) (keyword : Name) : Part fun _ => defaultOnce branches keyword
  | switchStatement (line : Line) : Part fun r => switchStatement r line
  | tryStatement : Part tryStatement
  | testStatement (line : Line) : Part fun r => testStatement r line
  | expectStatement (line : Line) : Part fun r => expectStatement r line
  | returnStatement (line : Line) : Part fun r => returnStatement r line
  | moduleStatement (line : Line) : Part fun _ => moduleStatement line
  | statement : Part statement
  | declaration : Part declaration
  | recovering : Part fun r => recovering (declaration r)

/-- The loops of the grammar, with what they have read so far. -/
inductive Loop : {α : Type} → (Rules → Budget → Parser α) → Prop where
  | typeAfter (before : Name) : Loop fun _ marks => typeAfter marks before
  | paramTypes (before : Name) : Loop fun _ => functionType.paramTypes writtenTypeAfter before
  | params (count : Nat) : Loop fun _ => commaSeparatedLimited parameter "parameters" count
  | references (what : String) : Loop fun _ => commaSeparated (reference what)
  | templates : Loop fun _ => commaSeparated (Token.name <$> require .identifier "template name")
  | enumElements : Loop fun _ => enumElements
  | generics : Loop fun r => commaSeparated (primary r)
  | elements : Loop fun r => commaSeparated r.expression
  | args (count : Nat) : Loop fun r => commaSeparatedLimited r.expression "arguments" count
  | suffixes (e : Expr) : Loop fun r => suffixes r e
  | leftAssociative {α : Type} (select : TokenKind → Option α) (join : α → Line → Expr → Expr → Expr)
      {operand : Rules → Parser Expr} (part : Part operand) (left : Expr) :
      Loop fun r => leftAssociative select join (operand r) left
  | castsFrom (e : Expr) : Loop fun r => castsFrom r e
  | accessorsFrom (given : Modifiers) (accessors : Accessors) : Loop fun r => accessorsFrom r given accessors
  | members (kind : String) : Loop fun r => untilBrace (member r kind)
  | items : Loop fun r => untilBrace r.blockItem
  | branchesFrom (branches : Branches) : Loop fun r => branchesFrom r branches

/-- A parser in a state in which the grammar has been unrolled often enough. It goes forward, does the same if the
grammar is unrolled further, and records a mistake if it gives up. -/
structure Conclusive {α : Type} (p : Rules → Parser α) (fuel : Nat) (s : State) : Prop where
  ahead : s.Ahead (p (rules fuel) s).2
  enough : ∀ fuel', fuel ≤ fuel' → p (rules fuel') s = p (rules fuel) s
  records : (p (rules fuel) s).1 = none → s.errors.length < (p (rules fuel) s).2.errors.length

/-- Statements that account for some tokens. Each of them is read from a part of its own, which is not empty, and
nothing is recorded on the way. -/
inductive Consumed (r : Rules) (endLine : Line) : List Token → List Stmt → Prop where
  | nil : Consumed r endLine [] []
  | cons {part rest : List Token} {first : Stmt} {others : List Stmt} (nonempty : part ≠ [])
      (reads : declaration r ⟨part ++ rest, endLine, []⟩ = (some first, ⟨rest, endLine, []⟩))
      (next : Consumed r endLine rest others) : Consumed r endLine (part ++ rest) (first :: others)

/-! Parts. -/

theorem Part.forward {α : Type} {p : Rules → Parser α} (part : Part p) (r : Rules) [r.Forward] : Forward (p r) := by
  induction part <;> infer_instance

theorem Part.steady {α : Type} {p : Rules → Parser α} (part : Part p) {r q : Rules} [r.Forward]
    [Rules.Steady n r q] : Steady (State.Below n) (p r) (p q) := by
  have whole : Steady (State.Below n) (Grammar.declaration r) (Grammar.declaration q) :=
    declaration_steady.mono (Nat.le_succ n)
  induction part
  case recovering => exact recovering_steady whole
  case level part operand =>
    have forward := part.forward r
    infer_instance
  all_goals infer_instance

theorem Loop.forward {α : Type} {p : Rules → Budget → Parser α} (loop : Loop p) (r : Rules) [r.Forward]
    (marks : Budget) : Forward (p r marks) := by
  cases loop
  case leftAssociative part left =>
    have operand := part.forward r
    infer_instance
  all_goals infer_instance

theorem Loop.looping {α : Type} {p : Rules → Budget → Parser α} (loop : Loop p) {r q : Rules} [r.Forward]
    [long : Rules.Steady n r q] : Looping n (p r) (p q) := by
  have advances := long.advances
  cases loop
  case suffixes e | castsFrom e => exact Looping.mono inferInstance (Nat.le_succ n)
  case leftAssociative part left =>
    have forward := part.forward r
    have operand := part.steady (r := r) (q := q) (n := n)
    infer_instance
  all_goals infer_instance

theorem Part.conclusive {α : Type} {p : Rules → Parser α} (part : Part p) {s : State} (few : s.rest.length < fuel) :
    Conclusive p fuel s := by
  have steady (fuel' : Nat) (less : fuel ≤ fuel') :=
    have long := rules_steady (Nat.le_refl fuel) less
    part.steady (n := fuel) (r := rules fuel) (q := rules fuel')
  exact ⟨(part.forward (rules fuel)).ahead s, fun fuel' less => (steady fuel' less).same s few,
    (steady fuel (Nat.le_refl fuel)).records s few⟩

/-- A loop does not see how large its budget is, if there is a mark for every token and one more. -/
theorem Loop.conclusive {α : Type} {p : Rules → Budget → Parser α} (loop : Loop p) {s : State} {marks : Budget}
    (few : s.rest.length < fuel) (lasting : s.rest.length < marks.length) :
    Conclusive (p · marks) fuel s ∧
      ∀ marks', s.rest.length < marks'.length → p (rules fuel) marks' s = p (rules fuel) marks s := by
  have steady (fuel' : Nat) (less : fuel ≤ fuel') :=
    have long := rules_steady (Nat.le_refl fuel) less
    (loop.looping (n := fuel) (r := rules fuel) (q := rules fuel')).steady marks
  have below (marks' : Budget) (lasting' : s.rest.length < marks'.length) :
      s.rest.length < min fuel (min marks.length marks'.length) := by omega
  have same := steady fuel (Nat.le_refl fuel)
  refine ⟨⟨(loop.forward (rules fuel) marks).ahead s, fun fuel' less => ?_, ?_⟩, fun marks' lasting' => ?_⟩
  · exact (steady fuel' less marks).same s (below marks lasting)
  · exact (same marks).records s (below marks lasting)
  · exact (same marks').same s (below marks' lasting')

/-! The top level. -/

theorem skipToFreshStart_length {tokens : List Token} (filled : tokens ≠ []) :
    (skipToFreshStart tokens).length < tokens.length := by
  fun_induction skipToFreshStart tokens with
  | case1 => exact absurd rfl filled
  | case2 t rest => exact Nat.lt_succ_self _
  | case3 t => exact Nat.zero_lt_succ _
  | case4 t => exact Nat.lt_succ_self _
  | case5 t _ next rest _ ih => exact Nat.lt_succ_of_lt (ih (List.cons_ne_nil next rest))

/-- A declaration takes a token even where it fails, since the text is skipped from there on. -/
theorem recovering_shorter {α : Type} {p : Parser α} [forward : Forward p] [advances : Advances p] {s : State}
    (filled : s.rest ≠ []) : (recovering p s).2.rest.length < s.rest.length := by
  have shorter := advances.shorter s
  have least := forward.length_le s
  unfold recovering
  split
  · rename_i a after found
    rw [found] at shorter
    exact shorter a rfl
  · rename_i after found
    rw [found] at least
    by_cases done : after.rest = []
    · rw [done]
      exact List.length_pos_iff.mpr filled
    · exact Nat.lt_of_lt_of_le (skipToFreshStart_length done) least

theorem declarationsFrom_enough {r q : Rules} [r.Forward] [Rules.Steady n r q] {s : State}
    (few : s.rest.length < n) (enough : s.rest.length < fuel) (enough' : s.rest.length < fuel') :
    declarationsFrom q fuel' s = declarationsFrom r fuel s ∧ (declarationsFrom r fuel s).2.rest = [] := by
  induction fuel generalizing fuel' s with
  | zero => exact absurd enough (Nat.not_lt_zero _)
  | succ fuel ih =>
    obtain ⟨fuel', rfl⟩ := Nat.exists_eq_succ_of_ne_zero (Nat.ne_of_gt (Nat.zero_lt_of_lt enough'))
    unfold declarationsFrom
    split
    · rename_i done
      exact ⟨rfl, List.isEmpty_iff.mp done⟩
    · rename_i filled
      have shorter := recovering_shorter (p := declaration r) fun done => filled (List.isEmpty_iff.mpr done)
      rw [(Part.recovering.steady (r := r) (q := q)).same s few]
      cases read : recovering (declaration r) s with
      | mk result after =>
        rw [read] at shorter
        have shorter : after.rest.length < s.rest.length := shorter
        have enough' := Nat.lt_of_lt_of_le shorter (Nat.le_of_lt_succ enough')
        obtain ⟨same, done⟩ := ih (s := after) (by omega) (by omega) enough'
        cases result with
        | none => exact ⟨same, done⟩
        | some first =>
          dsimp only
          rw [same]
          exact ⟨rfl, done⟩

theorem declarationsFrom_errors {r : Rules} [r.Forward] (fuel : Nat) (s : State) :
    s.errors <+: (declarationsFrom r fuel s).2.errors := by
  induction fuel generalizing s with
  | zero => exact List.prefix_rfl
  | succ fuel ih =>
    have ahead := Forward.ahead (p := recovering (declaration r)) s
    unfold declarationsFrom
    split
    · exact List.prefix_rfl
    · cases read : recovering (declaration r) s with
      | mk result after =>
        rw [read] at ahead
        cases result with
        | none => exact ahead.errors.trans (ih after)
        | some first => exact ahead.errors.trans (ih after)

theorem recovering_some {α : Type} {p : Parser α} {s after : State} {a : α} :
    recovering p s = (some a, after) ↔ p s = (some a, after) := by
  unfold recovering
  split
  · rename_i found
    rw [found]
  · rename_i found
    rw [found]
    constructor <;> intro same <;> cases same

/-- Where nothing has been recorded, each declaration has succeeded, and what it has taken is its part. -/
theorem declarationsFrom_consumed {r q : Rules} [r.Forward] [Rules.Steady n r q] {endLine : Line} {tokens : List Token}
    (few : tokens.length < n) (enough : tokens.length < fuel)
    (clean : (declarationsFrom r fuel ⟨tokens, endLine, []⟩).2.errors = []) :
    Consumed r endLine tokens (declarationsFrom r fuel ⟨tokens, endLine, []⟩).1 := by
  induction fuel generalizing tokens with
  | zero => exact absurd enough (Nat.not_lt_zero _)
  | succ fuel ih =>
    unfold declarationsFrom at clean ⊢
    split
    · rename_i done
      cases List.isEmpty_iff.mp done
      exact .nil
    · rename_i filled
      rw [if_neg filled] at clean
      have filled : tokens ≠ [] := fun done => filled (List.isEmpty_iff.mpr done)
      have shorter := recovering_shorter (p := declaration r) (s := ⟨tokens, endLine, []⟩) filled
      have ahead := Forward.ahead (p := recovering (declaration r)) ⟨tokens, endLine, []⟩
      have records := (Part.recovering.steady (r := r) (q := q)).records ⟨tokens, endLine, []⟩ few
      cases read : recovering (declaration r) ⟨tokens, endLine, []⟩ with
      | mk result after =>
        rw [read] at shorter ahead records clean
        cases result with
        | none =>
          -- A mistake that has been recorded stays to the end.
          have grown := (declarationsFrom_errors (r := r) fuel after).length_le
          have recorded := Nat.lt_of_lt_of_le (records rfl) grown
          rw [clean] at recorded
          exact absurd recorded (Nat.not_lt_zero _)
        | some first =>
          have kept := declarationsFrom_errors (r := r) fuel after
          rw [clean] at kept
          obtain ⟨rest, line, errors⟩ := after
          obtain ⟨part, split⟩ : rest <:+ tokens := ahead.rest
          obtain rfl : line = endLine := ahead.endLine
          obtain rfl : errors = [] := List.prefix_nil.mp kept
          subst split
          have shorter : rest.length < (part ++ rest).length := shorter
          rw [List.length_append] at shorter few enough
          refine .cons (List.length_pos_iff.mp (by omega)) (recovering_some.mp read) ?_
          exact ih (by omega) (by omega) clean

theorem Consumed.declarationsFrom_eq {r : Rules} {endLine : Line} {tokens : List Token} {program : List Stmt}
    (consumed : Consumed r endLine tokens program) (enough : tokens.length < fuel) :
    declarationsFrom r fuel ⟨tokens, endLine, []⟩ = (program, ⟨[], endLine, []⟩) := by
  induction consumed generalizing fuel with
  | nil => cases fuel <;> rfl
  | @cons part rest first others nonempty reads next ih =>
    obtain ⟨fuel, rfl⟩ := Nat.exists_eq_succ_of_ne_zero (Nat.ne_of_gt (Nat.zero_lt_of_lt enough))
    have some := List.length_pos_iff.mpr nonempty
    rw [List.length_append] at enough
    have filled : ¬(part ++ rest).isEmpty = true := by simp [nonempty]
    unfold declarationsFrom
    rw [if_neg filled, recovering_some.mpr reads]
    dsimp only
    rw [ih (by omega)]

theorem parse_ok_iff (source : Tokens) (program : List Stmt) :
    parse source = .ok program ↔
      Consumed (rules (source.tokens.length + 1)) source.endLine source.tokens program := by
  have few := Nat.lt_succ_self source.tokens.length
  have long := rules_steady (Nat.le_refl (source.tokens.length + 1)) (Nat.le_refl _)
  unfold parse
  dsimp only
  constructor
  · intro parsed
    split at parsed
    · rename_i clean
      cases parsed
      exact declarationsFrom_consumed (q := rules (source.tokens.length + 1)) few few (List.isEmpty_iff.mp clean)
    · cases parsed
  · intro consumed
    rw [consumed.declarationsFrom_eq few]
    rfl

theorem parse_error {source : Tokens} {errors : List ParseError} (failed : parse source = .error errors) :
    errors ≠ [] := by
  unfold parse at failed
  dsimp only at failed
  split at failed
  · cases failed
  · rename_i recorded
    cases failed
    exact fun empty => recorded (List.isEmpty_iff.mpr empty)

def start (source : Tokens) : State :=
  ⟨source.tokens, source.endLine, []⟩

/-- The parser always finishes, and what it returns is the whole text. Let the grammar be unrolled at least once
for each token. Then every parser of it, and every loop within, does the same as with any further unrolling or larger
budget, stays within the tokens, and records a mistake when it gives up. The parser reads all tokens. It yields
statements only if no mistake has been recorded, and these are read from the tokens one after another, each from a part
of its own. -/
theorem parse_accounts_for_text (source : Tokens) :
    (∀ {α : Type} {p : Rules → Parser α}, Part p → ∀ fuel s, s.rest.length < fuel → Conclusive p fuel s) ∧
      (∀ {α : Type} {p : Rules → Budget → Parser α}, Loop p → ∀ fuel s marks, s.rest.length < fuel →
        s.rest.length < marks.length → Conclusive (p · marks) fuel s ∧
          ∀ marks', s.rest.length < marks'.length → p (rules fuel) marks' s = p (rules fuel) marks s) ∧
      (∀ fuel, source.tokens.length < fuel →
        declarationsFrom (rules fuel) fuel (start source) =
          declarationsFrom (rules (source.tokens.length + 1)) (source.tokens.length + 1) (start source) ∧
        (declarationsFrom (rules fuel) fuel (start source)).2.rest = []) ∧
      (∀ errors, parse source = .error errors → errors ≠ []) ∧
      ∀ program, parse source = .ok program ↔
        Consumed (rules (source.tokens.length + 1)) source.endLine source.tokens program := by
  refine ⟨fun part _ _ few => part.conclusive few, fun loop _ _ _ few lasting => loop.conclusive few lasting,
    fun fuel enough => ?_, fun _ failed => parse_error failed, parse_ok_iff source⟩
  have long : Rules.Steady (source.tokens.length + 1) (rules fuel) (rules (source.tokens.length + 1)) :=
    rules_steady enough (Nat.le_refl _)
  have few := Nat.lt_succ_self source.tokens.length
  obtain ⟨same, done⟩ := declarationsFrom_enough (r := rules fuel) (q := rules (source.tokens.length + 1))
    (s := start source) few enough few
  exact ⟨same.symm, done⟩

end Treewalk.Grammar
