import Treewalk.Proofs.Progress

/-!
The grammar on few tokens. Every rule is taken through with the rules that it comes back to. What it does after it has
taken a token may be unrolled once less than what it starts with, so that few rules have to be looked at from their
beginning: those of expressions down to the tightest level, and statements and declarations.
-/

namespace Treewalk.Grammar

open Treewalk.Grammar.Parser

variable {n : Nat}

instance : Steady (State.Below n) modifiers modifiers :=
  .of_succeeds fun _ => nofun

instance (desc : TypeDesc) : Steady (State.Below n) (dimensions desc) (dimensions desc) :=
  .of_succeeds fun _ => nofun

section Types

variable {inner inner' : Name → Parser (TypeDesc × Modifiers)} [∀ name, Forward (inner name)]
  [each : ∀ name, Steady (State.Below n) (inner name) (inner' name)]

instance (before : Name) :
    Looping n (functionType.paramTypes inner before) (functionType.paramTypes inner' before) := by
  refine .of_rounds (fun before t t' fuel fuel' k again => ?_) before
  refine .bind ((each before).mono (Nat.min_le_left ..)) fun first => ?_
  refine .branch inferInstance (accept_advances .comma) (min_succ_le n k) ?_ ?_
  · rintro (_ | comma) ⟨⟩
    exact (again comma.name).bind fun _ => inferInstance
  · rintro (_ | comma) ⟨⟩
    infer_instance

instance : Steady (State.Below n) (functionType inner) (functionType inner') := by
  refine .bind inferInstance fun paren => .bind inferInstance fun next => ?_
  split <;> infer_instance

instance (first : Token) : Steady (State.Below n) (typeStart inner first) (typeStart inner' first) := by
  unfold typeStart
  split <;> infer_instance

end Types

instance (before : Name) : Looping n (typeAfter · before) (typeAfter · before) := by
  refine .of_rounds (p := fun before => (typeAfter · before)) (q := fun before => (typeAfter · before))
    (fun before t t' fuel fuel' k again => ?_) before
  refine .peek_bind inferInstance fun first => .skip_bind (min_succ_le n k) ?_
  infer_instance

instance (before : Name) : Steady (State.Below n) (writtenTypeAfter before) (writtenTypeAfter before) := by
  unfold writtenTypeAfter
  infer_instance

instance : Steady (State.Below n) writtenType? writtenType? := by
  refine .bind inferInstance fun next => ?_
  cases next <;> infer_instance

instance : Steady (State.Below n) parameter parameter := by
  unfold parameter
  infer_instance

instance : Steady (State.Below n) parameters parameters := by
  unfold parameters
  infer_instance

instance : Steady (State.Below n) resultType resultType := by
  refine .bind inferInstance fun arrow => ?_
  cases arrow <;> infer_instance

instance (what : String) : Steady (State.Below n) (reference what) (reference what) := by
  unfold reference
  infer_instance

instance : Steady (State.Below n) templates templates := by
  unfold templates
  infer_instance

instance : Looping n enumElements enumElements := by
  refine .of_rounds (p := fun _ => enumElements) (q := fun _ => enumElements) (fun _ t t' fuel fuel' k again => ?_) ()
  have again := again ()
  refine .bind inferInstance fun next => ?_
  split
  · infer_instance
  · exact .take inferInstance (min_succ_le n k) fun name => inferInstance

instance : Steady (State.Below n) enumDeclaration enumDeclaration := by
  unfold enumDeclaration
  infer_instance

/-- Two unrollings of the grammar that are both long enough for fewer tokens than `n`. -/
class Rules.Steady (n : Nat) (r r' : Rules) : Prop where
  expression : Parser.Steady (State.Below n) r.expression r'.expression
  ternary : Parser.Steady (State.Below n) r.ternary r'.ternary
  unary : Parser.Steady (State.Below n) r.unary r'.unary
  statement : Parser.Steady (State.Below n) r.statement r'.statement
  declaration : Parser.Steady (State.Below n) r.declaration r'.declaration
  blockItem : Parser.Steady (State.Below n) r.blockItem r'.blockItem
  advances : Advances r.blockItem

attribute [instance] Rules.Steady.expression Rules.Steady.ternary Rules.Steady.unary Rules.Steady.statement
  Rules.Steady.declaration Rules.Steady.blockItem

section Rules

variable {r r' : Rules} [r.Forward] [long : Rules.Steady n r r']

/-! What has taken a token before. -/

instance (keyword : String) : Steady (State.Below n) (parenthesized r keyword) (parenthesized r' keyword) := by
  unfold parenthesized
  infer_instance

instance : Steady (State.Below n) (block r) (block r') := by
  have advances := long.advances
  unfold block
  infer_instance

instance (kind : String) : Steady (State.Below n) (bracedBody r kind) (bracedBody r' kind) := by
  unfold bracedBody
  infer_instance

instance (kind : String) (needed : Bool) :
    Steady (State.Below n) (functionBody r kind needed) (functionBody r' kind needed) := by
  unfold functionBody
  cases needed <;> infer_instance

instance (name : Name) (kind : String) (given : Modifiers) (needsBody : Bool) :
    Steady (State.Below n) (functionRest r name kind given needsBody) (functionRest r' name kind given needsBody) := by
  unfold functionRest
  infer_instance

instance (kind : String) (given : Modifiers) :
    Steady (State.Below n) (function r kind given) (function r' kind given) := by
  unfold function
  infer_instance

instance : Steady (State.Below n) (arrayLiteral.elements r) (arrayLiteral.elements r') := by
  unfold arrayLiteral.elements
  infer_instance

instance (line : Line) : Steady (State.Below n) (arrayLiteral r line) (arrayLiteral r' line) := by
  refine .bind inferInstance fun written => ?_
  cases written <;> infer_instance

instance (callee : Expr) (generics : List Expr) (nullSafe : Bool) :
    Steady (State.Below n) (callRest r callee generics nullSafe) (callRest r' callee generics nullSafe) := by
  unfold callRest
  infer_instance

instance (object : Expr) : Steady (State.Below n) (nullSafeMember r object) (nullSafeMember r' object) := by
  unfold nullSafeMember
  infer_instance

instance (op : AssignOp) : Steady (State.Below n) (assignedValue r op) (assignedValue r' op) := by
  unfold assignedValue
  infer_instance

/-! Expressions from their beginning. -/

/-- Once there is a token, it is taken before the grammar comes back to itself. -/
theorem primary_steady : Steady (State.Below (n + 1)) (primary r) (primary r') := by
  refine .peek_bind inferInstance fun t => ?_
  dsimp only
  split
  case h_4 | h_5 =>
    refine .skip_bind (Nat.le_refl _) ?_
    split <;> infer_instance
  case h_15 =>
    refine .begun (.bind inferInstance fun written => ?_)
    cases written <;> infer_instance
  all_goals exact .skip_bind (Nat.le_refl _) inferInstance

instance : Steady (State.Below n) (primary r) (primary r') :=
  primary_steady.mono (Nat.le_succ n)

instance (callee : Expr) : Steady (State.Below n) (genericCall r callee) (genericCall r' callee) := by
  unfold genericCall
  infer_instance

theorem suffix?_steady (e : Expr) : Steady (State.Below (n + 1)) (suffix? r e) (suffix? r' e) := by
  refine .peek_bind inferInstance fun t => ?_
  dsimp only
  split
  case h_2 =>
    refine .peekTwo_bind_begun fun two => ?_
    split
    · exact .skip_bind (Nat.le_refl _) inferInstance
    · exact .begun inferInstance
  case h_7 => exact .begun inferInstance
  all_goals exact .skip_bind (Nat.le_refl _) inferInstance

instance (e : Expr) : Steady (State.Below n) (suffix? r e) (suffix? r' e) :=
  (suffix?_steady e).mono (Nat.le_succ n)

omit long in
theorem suffix?_advances (e : Expr) : AdvancesFor Option.isSome (suffix? r e) := by
  refine .peek_bind (.pure rfl) fun t => ?_
  dsimp only
  split
  case h_2 =>
    refine .peekTwo_bind fun two => ?_
    split
    · exact .skip_bind
    · exact (AdvancesFor.pure rfl).once
  case h_7 => exact (AdvancesFor.pure rfl).once
  all_goals exact .skip_bind

instance (e : Expr) : Looping (n + 1) (suffixes r e) (suffixes r' e) := by
  refine .of_rounds (fun e t t' fuel fuel' k again => ?_) e
  refine .branch ((suffix?_steady e).mono (Nat.min_le_left ..)) (suffix?_advances e) (min_succ_le (n + 1) k) ?_ ?_
  · rintro (_ | longer) ⟨⟩
    exact again longer
  · rintro (_ | longer) ⟨⟩
    infer_instance

theorem call_steady : Steady (State.Below (n + 1)) (call r) (call r') := by
  refine .bind primary_steady fun e => ?_
  infer_instance

instance : Steady (State.Below n) (call r) (call r') :=
  call_steady.mono (Nat.le_succ n)

theorem unary_steady : Steady (State.Below (n + 1)) (unary r) (unary r') := by
  refine .branch inferInstance (acceptMap_advances unaryOp) (Nat.le_refl _) ?_ ?_
  · rintro (_ | ⟨op, t⟩) ⟨⟩
    infer_instance
  · rintro (_ | ⟨op, t⟩) ⟨⟩
    exact call_steady

instance : Steady (State.Below n) (unary r) (unary r') :=
  unary_steady.mono (Nat.le_succ n)

section Levels

variable {α : Type} {select : TokenKind → Option α} {join : α → Line → Expr → Expr → Expr}
  {operand operand' : Parser Expr} [Forward operand] [each : Steady (State.Below n) operand operand']

instance (left : Expr) :
    Looping n (leftAssociative select join operand left) (leftAssociative select join operand' left) := by
  refine .of_rounds (fun left t t' fuel fuel' k again => ?_) left
  refine .branch inferInstance (acceptMap_advances select) (min_succ_le n k) ?_ ?_
  · rintro (_ | ⟨op, t⟩) ⟨⟩
    exact (each.mono (Nat.min_le_left ..)).bind fun right => again _
  · rintro (_ | ⟨op, t⟩) ⟨⟩
    infer_instance

instance : Steady (State.Below n) (level select join operand) (level select join operand') := by
  unfold level
  infer_instance

end Levels

section Tightest

variable {m : Nat} [Steady (State.Below m) (unary r) (unary r')]

instance : Steady (State.Below m) (factor r) (factor r') := by
  unfold factor
  infer_instance

instance : Steady (State.Below m) (term r) (term r') := by
  unfold term
  infer_instance

instance : Steady (State.Below m) (comparison r) (comparison r') := by
  unfold comparison
  infer_instance

instance : Steady (State.Below m) (equality r) (equality r') := by
  unfold equality
  infer_instance

instance : Steady (State.Below m) (conjunction r) (conjunction r') := by
  unfold conjunction
  infer_instance

instance : Steady (State.Below m) (disjunction r) (disjunction r') := by
  unfold disjunction
  infer_instance

end Tightest

theorem ternary_steady : Steady (State.Below (n + 1)) (ternary r) (ternary r') := by
  have tightest : Steady (State.Below (n + 1)) (unary r) (unary r') := unary_steady
  refine .bind inferInstance fun condition => ?_
  refine .branch inferInstance (accept_advances .question) (Nat.le_refl _) ?_ ?_
  · rintro (_ | question) ⟨⟩
    infer_instance
  · rintro (_ | question) ⟨⟩
    infer_instance

instance : Steady (State.Below n) (ternary r) (ternary r') :=
  ternary_steady.mono (Nat.le_succ n)

instance (e : Expr) : Looping (n + 1) (castsFrom r e) (castsFrom r' e) := by
  refine .of_rounds (fun e t t' fuel fuel' k again => ?_) e
  refine .branch inferInstance (accept_advances .kwAs) (min_succ_le (n + 1) k) ?_ ?_
  · rintro (_ | keyword) ⟨⟩
    exact (call_steady.mono (Nat.min_le_left ..)).bind fun target => again _
  · rintro (_ | keyword) ⟨⟩
    infer_instance

theorem casts_steady : Steady (State.Below (n + 1)) (casts r) (casts r') := by
  refine .bind ternary_steady fun e => ?_
  infer_instance

instance : Steady (State.Below n) (casts r) (casts r') :=
  casts_steady.mono (Nat.le_succ n)

theorem assignment_steady : Steady (State.Below (n + 1)) (assignment r) (assignment r') := by
  refine .bind casts_steady fun target => ?_
  refine .branch inferInstance (acceptMap_advances assignOp) (Nat.le_refl _) ?_ ?_
  · rintro (_ | ⟨op, t⟩) ⟨⟩
    refine .bind inferInstance fun value => ?_
    split <;> infer_instance
  · rintro (_ | ⟨op, t⟩) ⟨⟩
    infer_instance

instance : Steady (State.Below n) (assignment r) (assignment r') :=
  assignment_steady.mono (Nat.le_succ n)

/-! Declarations. -/

instance (name : Name) (given : Modifiers) (declared : Option TypeDesc) :
    Steady (State.Below n) (varRest r name given declared) (varRest r' name given declared) := by
  unfold varRest
  infer_instance

theorem varDeclaration_steady (given : Modifiers) :
    Steady (State.Below (n + 1)) (varDeclaration r given) (varDeclaration r' given) :=
  .take inferInstance (Nat.le_refl _) fun _ => inferInstance

instance (given : Modifiers) : Steady (State.Below n) (varDeclaration r given) (varDeclaration r' given) :=
  (varDeclaration_steady given).mono (Nat.le_succ n)

omit [r.Forward] long in
instance (accessors : Accessors) (decl : FunctionDecl) :
    Steady (State.Below n) (accessors.add decl) (accessors.add decl) := by
  unfold Accessors.add
  split <;> infer_instance

instance (given : Modifiers) (accessors : Accessors) :
    Looping n (accessorsFrom r given accessors) (accessorsFrom r' given accessors) := by
  refine .of_rounds (fun accessors t t' fuel fuel' k again => ?_) accessors
  have body : Steady (State.Below (min n k)) (block r) (block r') := .mono inferInstance (Nat.min_le_left ..)
  refine .bind inferInstance fun next => ?_
  split
  · infer_instance
  · infer_instance
  · exact .take inferInstance (min_succ_le n k) fun name => inferInstance

instance (name : Name) (given : Modifiers) (declared : TypeDesc) :
    Steady (State.Below n) (propertyRest r name given declared) (propertyRest r' name given declared) := by
  refine .loop_bind fun accessors => .bind inferInstance fun _ => ?_
  cases accessors.getter <;> infer_instance

theorem typedDeclaration_steady (given : Modifiers) (declared : TypeDesc) :
    Steady (State.Below (n + 1)) (typedDeclaration r given declared) (typedDeclaration r' given declared) :=
  .take inferInstance (Nat.le_refl _) fun _ => inferInstance

instance (given : Modifiers) (declared : TypeDesc) :
    Steady (State.Below n) (typedDeclaration r given declared) (typedDeclaration r' given declared) :=
  (typedDeclaration_steady given declared).mono (Nat.le_succ n)

instance (kind : String) : Steady (State.Below n) (member r kind) (member r' kind) := by
  refine .bind inferInstance fun given => .bind inferInstance fun method => ?_
  split
  · infer_instance
  · refine .bind inferInstance fun var => ?_
    split
    · infer_instance
    · refine .bind inferInstance fun written => ?_
      cases written <;> infer_instance

omit long in
instance (given : Modifiers) : Advances (varDeclaration r given) := by
  unfold varDeclaration
  infer_instance

omit long in
instance (given : Modifiers) (declared : TypeDesc) : Advances (typedDeclaration r given declared) := by
  unfold typedDeclaration
  infer_instance

omit long in
instance (kind : String) (given : Modifiers) : Advances (function r kind given) := by
  unfold function
  infer_instance

omit long in
instance (kind : String) : Advances (member r kind) := by
  refine .bind fun given => .bind fun method => ?_
  split
  · infer_instance
  · refine .bind fun var => ?_
    split
    · infer_instance
    · refine .bind fun written => ?_
      cases written <;> infer_instance

instance (kind : String) : Steady (State.Below n) (members r kind) (members r' kind) := by
  unfold members
  infer_instance

instance : Steady (State.Below n) (classDeclaration r) (classDeclaration r') := by
  unfold classDeclaration
  infer_instance

instance : Steady (State.Below n) (interfaceDeclaration r) (interfaceDeclaration r') := by
  unfold interfaceDeclaration
  infer_instance

/-! Statements. -/

theorem expressionStatement_steady :
    Steady (State.Below (n + 1)) (expressionStatement r) (expressionStatement r') := by
  have whole : Steady (State.Below (n + 1)) (assignment r) (assignment r') := assignment_steady
  unfold expressionStatement
  infer_instance

instance : Steady (State.Below n) (expressionStatement r) (expressionStatement r') :=
  expressionStatement_steady.mono (Nat.le_succ n)

instance : Steady (State.Below n) (ifStatement r) (ifStatement r') := by
  unfold ifStatement
  infer_instance

instance : Steady (State.Below n) (whileStatement r) (whileStatement r') := by
  unfold whileStatement
  infer_instance

instance : Steady (State.Below n) (whenStatement r) (whenStatement r') := by
  unfold whenStatement
  infer_instance

instance : Steady (State.Below n) (forInitializer r) (forInitializer r') := by
  refine .bind inferInstance fun next => ?_
  split <;> infer_instance

instance : Steady (State.Below n) (forStatement r) (forStatement r') := by
  refine .bind inferInstance fun _ => .bind inferInstance fun initializer => .bind inferInstance fun _ =>
    .bind inferInstance fun _ => .bind inferInstance fun _ => .bind inferInstance fun _ =>
      .bind inferInstance fun _ => ?_
  cases initializer <;> infer_instance

omit [r.Forward] long in
instance (branches : Branches) (keyword : Name) :
    Steady (State.Below n) (defaultOnce branches keyword) (defaultOnce branches keyword) := by
  unfold defaultOnce
  infer_instance

instance (branches : Branches) : Looping n (branchesFrom r branches) (branchesFrom r' branches) := by
  refine .of_rounds (fun branches t t' fuel fuel' k again => ?_) branches
  have condition : Steady (State.Below (min n k)) (parenthesized r "case") (parenthesized r' "case") :=
    .mono inferInstance (Nat.min_le_left ..)
  have body : Steady (State.Below (min n k)) r.statement r'.statement := long.statement.mono (Nat.min_le_left ..)
  refine .peek_bind inferInstance fun t => ?_
  dsimp only
  split
  · exact .begun inferInstance
  · exact .skip_bind (min_succ_le n k) inferInstance
  · exact .skip_bind (min_succ_le n k) inferInstance
  · exact .begun inferInstance

instance (line : Line) : Steady (State.Below n) (switchStatement r line) (switchStatement r' line) := by
  unfold switchStatement
  infer_instance

instance : Steady (State.Below n) (tryStatement r) (tryStatement r') := by
  refine .bind inferInstance fun _ => .bind inferInstance fun _ => .bind inferInstance fun _ => ?_
  infer_instance

instance (line : Line) : Steady (State.Below n) (testStatement r line) (testStatement r' line) := by
  unfold testStatement
  infer_instance

instance (line : Line) : Steady (State.Below n) (expectStatement r line) (expectStatement r' line) := by
  unfold expectStatement
  infer_instance

instance (line : Line) : Steady (State.Below n) (returnStatement r line) (returnStatement r' line) := by
  unfold returnStatement
  infer_instance

omit [r.Forward] long in
instance (line : Line) : Steady (State.Below n) (moduleStatement line) (moduleStatement line) := by
  unfold moduleStatement
  infer_instance

theorem statement_steady : Steady (State.Below (n + 1)) (statement r) (statement r') := by
  have whole : Steady (State.Below (n + 1)) (expressionStatement r) (expressionStatement r') :=
    expressionStatement_steady
  refine .peek_bind inferInstance fun t => ?_
  dsimp only
  split
  case h_14 => exact .begun inferInstance
  all_goals exact .skip_bind (Nat.le_refl _) inferInstance

instance : Steady (State.Below n) (statement r) (statement r') :=
  statement_steady.mono (Nat.le_succ n)

theorem declaration_steady : Steady (State.Below (n + 1)) (declaration r) (declaration r') := by
  have whole : Steady (State.Below (n + 1)) (statement r) (statement r') := statement_steady
  have var (given : Modifiers) : Steady (State.Below (n + 1)) (varDeclaration r given) (varDeclaration r' given) :=
    varDeclaration_steady given
  have typed (given : Modifiers) (declared : TypeDesc) : Steady (State.Below (n + 1))
      (typedDeclaration r given declared) (typedDeclaration r' given declared) := typedDeclaration_steady given declared
  have named (given : Modifiers) : Steady (State.Below (n + 1)) (function r "function" given)
      (function r' "function" given) := .take inferInstance (Nat.le_refl _) fun _ => inferInstance
  have cls : Steady (State.Below (n + 1)) (classDeclaration r) (classDeclaration r') :=
    .take inferInstance (Nat.le_refl _) fun _ => inferInstance
  have interface : Steady (State.Below (n + 1)) (interfaceDeclaration r) (interfaceDeclaration r') :=
    .take inferInstance (Nat.le_refl _) fun _ => inferInstance
  refine .bind inferInstance fun given => .bind inferInstance fun next => ?_
  split
  iterate 5 infer_instance
  refine .bind inferInstance fun written => ?_
  cases written <;> infer_instance

/-! A statement takes a token, whatever it is. -/

omit long in
instance : Advances (forStatement r) := by
  refine .before fun _ => .bind fun initializer => .bind fun _ => .bind fun _ => .bind fun _ => .bind fun _ =>
    .bind fun _ => ?_
  cases initializer <;> infer_instance

omit long in
instance : Advances (tryStatement r) := by
  refine .bind fun body => .before fun _ => .bind fun _ => ?_
  infer_instance

omit long in
instance : Advances (statement r) := by
  refine .bind fun next => ?_
  cases next with
  | none =>
    unfold expressionStatement
    infer_instance
  | some t =>
    unfold ifStatement whileStatement whenStatement switchStatement testStatement expectStatement returnStatement
      moduleStatement expressionStatement parenthesized block
    dsimp only
    split <;> infer_instance

omit long in
instance : Advances (declaration r) := by
  refine .bind fun given => .bind fun next => ?_
  unfold classDeclaration interfaceDeclaration enumDeclaration
  split
  iterate 5 infer_instance
  refine .bind fun written => ?_
  cases written <;> infer_instance

end Rules

section Recovering

variable {α : Type} {S : State → Prop} {p q : Parser α}

/-- A fresh start comes after the mistake has been recorded. -/
theorem recovering_steady (steady : Steady S p q) : Steady S (recovering p) (recovering q) := by
  constructor
  · intro s here
    unfold recovering
    rw [steady.same s here]
  · intro s here
    have records := steady.records s here
    unfold recovering
    split
    · intro failed
      cases failed
    · rename_i found
      rw [found] at records
      exact records

instance [advances : Advances p] : Advances (recovering p) := by
  refine ⟨fun s a => ?_⟩
  have shorter := advances.shorter s
  unfold recovering
  split
  · rename_i found
    rw [found] at shorter
    exact shorter a
  · intro failed
    cases failed

end Recovering

instance rules_advances (fuel : Nat) : Advances (rules fuel).blockItem := by
  cases fuel with
  | zero => exact inferInstanceAs (Advances giveUp)
  | succ fuel => exact inferInstanceAs (Advances (recovering (declaration (rules fuel))))

/-- The grammar need not be unrolled more often than there are tokens. -/
theorem rules_steady {fuel fuel' : Nat} (enough : n ≤ fuel) (enough' : n ≤ fuel') :
    Rules.Steady n (rules fuel) (rules fuel') := by
  induction n generalizing fuel fuel' with
  | zero => exact ⟨.zero, .zero, .zero, .zero, .zero, .zero, rules_advances fuel⟩
  | succ n ih =>
    obtain ⟨fuel, rfl⟩ := Nat.exists_eq_add_of_le' (Nat.lt_of_lt_of_le (Nat.zero_lt_succ n) enough)
    obtain ⟨fuel', rfl⟩ := Nat.exists_eq_add_of_le' (Nat.lt_of_lt_of_le (Nat.zero_lt_succ n) enough')
    have long := ih (Nat.le_of_succ_le_succ enough) (Nat.le_of_succ_le_succ enough')
    exact ⟨assignment_steady, ternary_steady, unary_steady, statement_steady, declaration_steady,
      recovering_steady declaration_steady, rules_advances (fuel + 1)⟩

end Treewalk.Grammar
