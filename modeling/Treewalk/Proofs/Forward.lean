import Treewalk.Grammar.Statement
import Treewalk.Proofs.Reading

/-!
Parsers only go forward. Whether a parser succeeds or gives up, the tokens it leaves are the end of those
it was given, and the mistakes that had been recorded stay as they are, with new ones after them.
-/

namespace Treewalk.Grammar

/-- The later state can be reached by dropping tokens and recording mistakes. -/
structure State.Ahead (s later : State) : Prop where
  rest : later.rest <:+ s.rest
  errors : s.errors <+: later.errors
  endLine : later.endLine = s.endLine

theorem State.Ahead.refl (s : State) : s.Ahead s :=
  ⟨List.suffix_rfl, List.prefix_rfl, rfl⟩

theorem State.Ahead.trans {s middle later : State} (first : s.Ahead middle) (second : middle.Ahead later) :
    s.Ahead later :=
  ⟨second.rest.trans first.rest, first.errors.trans second.errors, second.endLine.trans first.endLine⟩

theorem State.Ahead.drop {s : State} {rest : List Token} (shorter : rest <:+ s.rest) :
    s.Ahead { s with rest := rest } :=
  ⟨shorter, List.prefix_rfl, rfl⟩

theorem State.Ahead.record (s : State) (place : Place) (mistake : Mistake) : s.Ahead (s.record place mistake) :=
  ⟨List.suffix_rfl, List.prefix_append .., rfl⟩

namespace Parser

class Forward (p : Parser α) : Prop where
  ahead : ∀ s : State, s.Ahead (p s).2

instance (a : α) : Forward (Pure.pure a : Parser α) :=
  ⟨.refl⟩

theorem Forward.bind {p : Parser α} {f : α → Parser β} [first : Forward p] (next : ∀ a, Forward (f a)) :
    Forward (p >>= f) := by
  refine ⟨fun s => ?_⟩
  have before := first.ahead s
  rw [bind_apply]
  cases found : p s with
  | mk result middle =>
    rw [found] at before
    cases result with
    | none => exact before
    | some a => exact before.trans ((next a).ahead middle)

instance {p : Parser α} {f : α → Parser β} [Forward p] [next : ∀ a, Forward (f a)] : Forward (p >>= f) :=
  .bind next

instance {p : Parser α} {f : α → β} [Forward p] : Forward (f <$> p) :=
  inferInstanceAs (Forward (p >>= fun a => pure (f a)))

instance {c : Prop} [Decidable c] {yes no : Parser α} [first : Forward yes] [second : Forward no] :
    Forward (if c then yes else no) := by
  split
  · exact first
  · exact second

instance : Forward (giveUp : Parser α) :=
  ⟨.refl⟩

instance (mistake : Mistake) : Forward (fail mistake : Parser α) :=
  ⟨fun s => .record s s.place mistake⟩

instance (mistake : Mistake) : Forward (report mistake) :=
  ⟨fun s => .record s s.place mistake⟩

instance (name : Name) (mistake : Mistake) : Forward (reportAt name mistake) :=
  ⟨fun s => .record s (.at name) mistake⟩

instance (wrong : Bool) (mistake : Mistake) : Forward (reportIf wrong mistake) :=
  inferInstanceAs (Forward (if wrong then report mistake else pure ()))

instance : Forward peek :=
  ⟨.refl⟩

instance : Forward peekKind :=
  ⟨.refl⟩

instance : Forward peekTwo :=
  ⟨.refl⟩

instance : Forward budget :=
  ⟨.refl⟩

instance : Forward skip :=
  ⟨fun _ => .drop (List.drop_suffix ..)⟩

instance (select : TokenKind → Option α) : Forward (acceptMap select) := by
  refine ⟨fun s => ?_⟩
  unfold acceptMap
  split
  · exact .refl s
  · rename_i t rest found
    split
    · exact .drop (found ▸ List.suffix_cons t rest)
    · exact .refl s

instance (kind : TokenKind) : Forward (accept kind) := by
  refine ⟨fun s => ?_⟩
  unfold accept
  split
  · exact .refl s
  · rename_i t rest found
    split
    · exact .drop (found ▸ List.suffix_cons t rest)
    · exact .refl s

instance (kind : TokenKind) : Forward (accepts kind) :=
  inferInstanceAs (Forward (accept kind >>= fun found => pure found.isSome))

instance (kind : TokenKind) (what : String) : Forward (require kind what) := by
  refine .bind fun found => ?_
  cases found <;> infer_instance

instance {p : Parser α} [Forward p] (kind : TokenKind) : Forward (optional kind p) := by
  unfold optional
  infer_instance

instance {p : Parser α} [Forward p] (kind : TokenKind) (otherwise : α) : Forward (unlessNext kind otherwise p) := by
  unfold unlessNext
  infer_instance

instance {item : Parser α} [Forward item] (fuel : Budget) : Forward (commaSeparated item fuel) := by
  induction fuel with
  | nil => exact inferInstanceAs (Forward giveUp)
  | cons =>
    unfold commaSeparated
    infer_instance

instance {item : Parser α} [Forward item] (fuel : Budget) : Forward (untilBrace item fuel) := by
  induction fuel with
  | nil => exact inferInstanceAs (Forward giveUp)
  | cons =>
    refine .bind fun next => ?_
    split <;> infer_instance

instance {item : Parser α} [Forward item] (what : String) (count : Nat) (fuel : Budget) :
    Forward (commaSeparatedLimited item what count fuel) := by
  induction fuel generalizing count with
  | nil => exact inferInstanceAs (Forward giveUp)
  | cons =>
    unfold commaSeparatedLimited
    infer_instance

end Parser

open Treewalk.Grammar.Parser

theorem modifiersIn_suffix (seen : Modifiers) (tokens : List Token) : (modifiersIn seen tokens).2 <:+ tokens := by
  fun_induction modifiersIn seen tokens with
  | case1 => exact List.suffix_rfl
  | case2 seen t rest modifier found ih => exact ih.trans (List.suffix_cons t rest)
  | case3 => exact List.suffix_rfl

instance : Forward modifiers :=
  ⟨fun s => .drop (modifiersIn_suffix .none s.rest)⟩

theorem dimensionsIn_suffix (desc : TypeDesc) (tokens : List Token) : (dimensionsIn desc tokens).2 <:+ tokens := by
  fun_induction dimensionsIn desc tokens with
  | case1 desc first second rest _ ih =>
    exact ih.trans ((List.suffix_cons second rest).trans (List.suffix_cons first _))
  | case2 => exact List.suffix_rfl
  | case3 => exact List.suffix_rfl

instance (desc : TypeDesc) : Forward (dimensions desc) :=
  ⟨fun s => .drop (dimensionsIn_suffix desc s.rest)⟩

section Types

variable {inner : Name → Parser (TypeDesc × Modifiers)} [∀ name, Forward (inner name)]

instance (before : Name) (fuel : Budget) : Forward (functionType.paramTypes inner before fuel) := by
  induction fuel generalizing before with
  | nil => exact inferInstanceAs (Forward giveUp)
  | cons =>
    refine .bind fun first => .bind fun comma => ?_
    cases comma <;> infer_instance

instance : Forward (functionType inner) := by
  refine .bind fun paren => .bind fun next => ?_
  split <;> infer_instance

instance (first : Token) : Forward (typeStart inner first) := by
  unfold typeStart
  split <;> infer_instance

end Types

instance (fuel : Budget) (before : Name) : Forward (typeAfter fuel before) := by
  induction fuel generalizing before with
  | nil => exact inferInstanceAs (Forward giveUp)
  | cons =>
    refine .bind fun next => ?_
    cases next <;> infer_instance

instance (before : Name) : Forward (writtenTypeAfter before) := by
  unfold writtenTypeAfter
  infer_instance

instance : Forward writtenType? := by
  refine .bind fun next => ?_
  cases next <;> infer_instance

instance : Forward parameter := by
  unfold parameter
  infer_instance

instance : Forward parameters := by
  unfold parameters
  infer_instance

instance : Forward resultType := by
  refine .bind fun arrow => ?_
  cases arrow <;> infer_instance

instance (what : String) : Forward (reference what) := by
  unfold reference
  infer_instance

instance : Forward templates := by
  unfold templates
  infer_instance

class Rules.Forward (r : Rules) : Prop where
  expression : Parser.Forward r.expression
  ternary : Parser.Forward r.ternary
  unary : Parser.Forward r.unary
  statement : Parser.Forward r.statement
  declaration : Parser.Forward r.declaration
  blockItem : Parser.Forward r.blockItem

attribute [instance] Rules.Forward.expression Rules.Forward.ternary Rules.Forward.unary
  Rules.Forward.statement Rules.Forward.declaration Rules.Forward.blockItem

section Rules

variable {r : Rules} [r.Forward]

instance (keyword : String) : Forward (parenthesized r keyword) := by
  unfold parenthesized
  infer_instance

instance : Forward (block r) := by
  unfold block
  infer_instance

instance (kind : String) : Forward (bracedBody r kind) := by
  unfold bracedBody
  infer_instance

instance (kind : String) (needed : Bool) : Forward (functionBody r kind needed) := by
  unfold functionBody
  cases needed <;> infer_instance

instance (name : Name) (kind : String) (given : Modifiers) (needsBody : Bool) :
    Forward (functionRest r name kind given needsBody) := by
  unfold functionRest
  infer_instance

instance (kind : String) (given : Modifiers) : Forward (function r kind given) := by
  unfold function
  infer_instance

instance : Forward (arrayLiteral.elements r) := by
  unfold arrayLiteral.elements
  infer_instance

instance (line : Line) : Forward (arrayLiteral r line) := by
  refine .bind fun written => ?_
  cases written <;> infer_instance

instance : Forward (primary r) := by
  refine .bind fun next => ?_
  cases next with
  | none => infer_instance
  | some t =>
    dsimp only
    split
    case h_4 | h_5 =>
      refine .bind fun _ => ?_
      split <;> infer_instance
    case h_15 =>
      refine .bind fun written => ?_
      cases written <;> infer_instance
    all_goals infer_instance

instance (callee : Expr) (generics : List Expr) (nullSafe : Bool) :
    Forward (callRest r callee generics nullSafe) := by
  unfold callRest
  infer_instance

instance (callee : Expr) : Forward (genericCall r callee) := by
  unfold genericCall
  infer_instance

instance (object : Expr) : Forward (nullSafeMember r object) := by
  unfold nullSafeMember
  infer_instance

instance (e : Expr) : Forward (suffix? r e) := by
  refine .bind fun next => ?_
  cases next with
  | none => infer_instance
  | some t =>
    dsimp only
    split
    case h_2 =>
      refine .bind fun two => ?_
      split <;> infer_instance
    all_goals infer_instance

instance (e : Expr) (fuel : Budget) : Forward (suffixes r e fuel) := by
  induction fuel generalizing e with
  | nil => exact inferInstanceAs (Forward giveUp)
  | cons =>
    refine .bind fun longer => ?_
    cases longer <;> infer_instance

instance : Forward (call r) := by
  unfold call
  infer_instance

instance : Forward (unary r) := by
  refine .bind fun sign => ?_
  cases sign <;> infer_instance

instance {select : TokenKind → Option α} {join : α → Line → Expr → Expr → Expr} {operand : Parser Expr}
    [Forward operand] (left : Expr) (fuel : Budget) : Forward (leftAssociative select join operand left fuel) := by
  induction fuel generalizing left with
  | nil => exact inferInstanceAs (Forward giveUp)
  | cons =>
    refine .bind fun op => ?_
    cases op <;> infer_instance

instance {select : TokenKind → Option α} {join : α → Line → Expr → Expr → Expr} {operand : Parser Expr}
    [Forward operand] : Forward (level select join operand) := by
  unfold level
  infer_instance

instance : Forward (factor r) := by
  unfold factor
  infer_instance

instance : Forward (term r) := by
  unfold term
  infer_instance

instance : Forward (comparison r) := by
  unfold comparison
  infer_instance

instance : Forward (equality r) := by
  unfold equality
  infer_instance

instance : Forward (conjunction r) := by
  unfold conjunction
  infer_instance

instance : Forward (disjunction r) := by
  unfold disjunction
  infer_instance

instance : Forward (ternary r) := by
  refine .bind fun condition => .bind fun question => ?_
  cases question <;> infer_instance

instance (e : Expr) (fuel : Budget) : Forward (castsFrom r e fuel) := by
  induction fuel generalizing e with
  | nil => exact inferInstanceAs (Forward giveUp)
  | cons =>
    refine .bind fun keyword => ?_
    cases keyword <;> infer_instance

instance : Forward (casts r) := by
  unfold casts
  infer_instance

instance (op : AssignOp) : Forward (assignedValue r op) := by
  unfold assignedValue
  infer_instance

instance : Forward (assignment r) := by
  refine .bind fun target => .bind fun sign => ?_
  cases sign with
  | none => infer_instance
  | some sign =>
    refine .bind fun value => ?_
    split <;> infer_instance

instance (name : Name) (given : Modifiers) (declared : Option TypeDesc) :
    Forward (varRest r name given declared) := by
  unfold varRest
  infer_instance

instance (given : Modifiers) : Forward (varDeclaration r given) := by
  unfold varDeclaration
  infer_instance

omit [r.Forward] in
instance (accessors : Accessors) (decl : FunctionDecl) : Forward (accessors.add decl) := by
  unfold Accessors.add
  split <;> infer_instance

instance (given : Modifiers) (accessors : Accessors) (fuel : Budget) :
    Forward (accessorsFrom r given accessors fuel) := by
  induction fuel generalizing accessors with
  | nil => exact inferInstanceAs (Forward giveUp)
  | cons =>
    refine .bind fun next => ?_
    split <;> infer_instance

instance (name : Name) (given : Modifiers) (declared : TypeDesc) :
    Forward (propertyRest r name given declared) := by
  refine .bind fun _ => .bind fun accessors => .bind fun _ => ?_
  cases accessors.getter <;> infer_instance

instance (given : Modifiers) (declared : TypeDesc) : Forward (typedDeclaration r given declared) := by
  unfold typedDeclaration
  infer_instance

instance (kind : String) : Forward (member r kind) := by
  refine .bind fun given => .bind fun method => ?_
  split
  · infer_instance
  · refine .bind fun var => ?_
    split
    · infer_instance
    · refine .bind fun written => ?_
      cases written <;> infer_instance

instance (kind : String) : Forward (members r kind) := by
  unfold members
  infer_instance

instance : Forward (classDeclaration r) := by
  unfold classDeclaration
  infer_instance

instance : Forward (interfaceDeclaration r) := by
  unfold interfaceDeclaration
  infer_instance

omit [r.Forward] in
instance (fuel : Budget) : Forward (enumElements fuel) := by
  induction fuel with
  | nil => exact inferInstanceAs (Forward giveUp)
  | cons =>
    refine .bind fun next => ?_
    split <;> infer_instance

omit [r.Forward] in
instance : Forward enumDeclaration := by
  unfold enumDeclaration
  infer_instance

instance : Forward (expressionStatement r) := by
  unfold expressionStatement
  infer_instance

instance : Forward (ifStatement r) := by
  unfold ifStatement
  infer_instance

instance : Forward (whileStatement r) := by
  unfold whileStatement
  infer_instance

instance : Forward (whenStatement r) := by
  unfold whenStatement
  infer_instance

instance : Forward (forInitializer r) := by
  refine .bind fun next => ?_
  split <;> infer_instance

instance : Forward (forStatement r) := by
  refine .bind fun _ => .bind fun initializer => .bind fun _ => .bind fun _ => .bind fun _ => .bind fun _ =>
    .bind fun _ => ?_
  cases initializer <;> infer_instance

omit [r.Forward] in
instance (branches : Branches) (keyword : Name) : Forward (defaultOnce branches keyword) := by
  unfold defaultOnce
  infer_instance

instance (branches : Branches) (fuel : Budget) : Forward (branchesFrom r branches fuel) := by
  induction fuel generalizing branches with
  | nil => exact inferInstanceAs (Forward giveUp)
  | cons =>
    refine .bind fun next => ?_
    cases next with
    | none => infer_instance
    | some t =>
      dsimp only
      split <;> infer_instance

instance (line : Line) : Forward (switchStatement r line) := by
  unfold switchStatement
  infer_instance

instance : Forward (tryStatement r) := by
  refine .bind fun _ => .bind fun _ => .bind fun _ => ?_
  infer_instance

instance (line : Line) : Forward (testStatement r line) := by
  unfold testStatement
  infer_instance

instance (line : Line) : Forward (expectStatement r line) := by
  unfold expectStatement
  infer_instance

instance (line : Line) : Forward (returnStatement r line) := by
  unfold returnStatement
  infer_instance

omit [r.Forward] in
instance (line : Line) : Forward (moduleStatement line) := by
  unfold moduleStatement
  infer_instance

instance : Forward (statement r) := by
  refine .bind fun next => ?_
  cases next with
  | none => infer_instance
  | some t =>
    dsimp only
    split <;> infer_instance

instance : Forward (declaration r) := by
  refine .bind fun given => .bind fun next => ?_
  split
  iterate 5 infer_instance
  refine .bind fun written => ?_
  cases written <;> infer_instance

end Rules

theorem skipToFreshStart_suffix (tokens : List Token) : skipToFreshStart tokens <:+ tokens := by
  fun_induction skipToFreshStart tokens with
  | case1 => exact List.suffix_rfl
  | case2 t rest => exact List.suffix_cons t rest
  | case3 t => exact List.nil_suffix
  | case4 t => exact List.suffix_cons t _
  | case5 t _ next rest _ ih => exact ih.trans (List.suffix_cons t _)

instance {p : Parser α} [forward : Forward p] : Forward (recovering p) := by
  refine ⟨fun s => ?_⟩
  have before := forward.ahead s
  unfold recovering
  split
  · rename_i found
    rwa [found] at before
  · rename_i found
    rw [found] at before
    exact before.trans (.drop (skipToFreshStart_suffix _))

instance rules_forward (n : Nat) : (rules n).Forward := by
  induction n with
  | zero => constructor <;> exact inferInstanceAs (Forward giveUp)
  | succ n =>
    exact ⟨inferInstanceAs (Forward (assignment (rules n))), inferInstanceAs (Forward (ternary (rules n))),
      inferInstanceAs (Forward (unary (rules n))), inferInstanceAs (Forward (statement (rules n))),
      inferInstanceAs (Forward (declaration (rules n))),
      inferInstanceAs (Forward (recovering (declaration (rules n))))⟩

end Treewalk.Grammar
