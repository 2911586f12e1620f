import Treewalk.Grammar.Statement

/-!
Expressions and the tokens they are written with. An expression has the level of the operator at its
root; a tree is well levelled if every operand is of a level that may stand in its place without
parentheses. `Written` relates a tree to all token lists that spell it, whatever the levels in it are.
-/

namespace Treewalk

/-- The levels of the grammar, from the loosest to the tightest. -/
inductive Level where
  | assignment | cast | ternary | disjunction | conjunction | equality | comparison | term | factor | unary
  | call | primary
  deriving DecidableEq, Repr

namespace Level

def rank : Level → Nat
  | assignment => 0
  | cast => 1
  | ternary => 2
  | disjunction => 3
  | conjunction => 4
  | equality => 5
  | comparison => 6
  | term => 7
  | factor => 8
  | unary => 9
  | call => 10
  | primary => 11

instance : LE Level := ⟨fun a b => a.rank ≤ b.rank⟩

instance : LT Level := ⟨fun a b => a.rank < b.rank⟩

instance (a b : Level) : Decidable (a ≤ b) := inferInstanceAs (Decidable (a.rank ≤ b.rank))

instance (a b : Level) : Decidable (a < b) := inferInstanceAs (Decidable (a.rank < b.rank))

end Level

def Operator.level : Operator → Level
  | multiply | divide => .factor
  | add | subtract => .term
  | less | lessEqual | greater | greaterEqual => .comparison
  | equal | notEqual => .equality

def BinaryOp.level : BinaryOp → Level
  | operator op => op.level
  | orElse | nilEqual => .equality

def LogicalOp.level : LogicalOp → Level
  | and => .conjunction
  | or => .disjunction

def UnaryOp.kind : UnaryOp → TokenKind
  | not => .bang
  | negate => .minus

def BinaryOp.kind : BinaryOp → TokenKind
  | operator .add => .plus
  | operator .subtract => .minus
  | operator .multiply => .star
  | operator .divide => .slash
  | operator .equal => .equalEqual
  | operator .notEqual => .bangEqual
  | operator .less => .less
  | operator .lessEqual => .lessEqual
  | operator .greater => .greater
  | operator .greaterEqual => .greaterEqual
  | orElse => .questionQuestion
  | nilEqual => .questionEqual

def LogicalOp.kind : LogicalOp → TokenKind
  | and => .kwAnd
  | or => .kwOr

def AssignOp.kind : AssignOp → TokenKind
  | set => .equal
  | add => .plusEqual
  | subtract => .minusEqual
  | multiply => .starEqual
  | divide => .slashEqual
  | power => .starStarEqual
  | increment => .plusPlus
  | decrement => .minusMinus

inductive Commas : List (List Token) → List Token → Prop where
  | none : Commas [] []
  | one {first : List Token} : Commas [first] first
  | more {first second rest : List Token} {others : List (List Token)} {comma : Token}
    (kind : comma.kind = .comma) (joined : Commas (second :: others) rest) :
    Commas (first :: second :: others) (first ++ comma :: rest)

theorem Commas.starts {first tokens : List Token} {others : List (List Token)}
    (joined : Commas (first :: others) tokens) : first <+: tokens := by
  cases joined with
  | one => exact List.prefix_rfl
  | more => exact List.prefix_append ..

theorem Commas.length_le {parts : List (List Token)} {tokens : List Token} (joined : Commas parts tokens) :
    ∀ part ∈ parts, part.length ≤ tokens.length := by
  induction joined with
  | none => simp
  | one => simp
  | more _ _ ih =>
    intro part member
    simp only [List.length_append, List.length_cons]
    rcases List.mem_cons.mp member with rfl | later
    · omega
    · have := ih part later
      omega

inductive BracketPairs : Nat → List Token → Prop where
  | zero : BracketPairs 0 []
  | succ {count : Nat} {left right : Token} {rest : List Token} (opens : left.kind = .leftBracket)
    (closes : right.kind = .rightBracket) (pairs : BracketPairs count rest) :
    BracketPairs (count + 1) (left :: right :: rest)

/-- The type that a keyword alone stands for, and the range that it implies. -/
def TokenKind.plainType? : TokenKind → Option (TypeDesc × Modifiers)
  | .typeNum => some (.number, .none)
  | .typeString => some (.string, .none)
  | .typeBool => some (.boolean, .none)
  | .typeVoid => some (.void, .none)
  | .typeAny => some (.any, .none)
  | .typeType => some (.typeValue, .none)
  | .typeByte => some (.number, { byte := true })
  | _ => none

/-- The tokens of a type annotation. Brackets after a function type belong to its result. -/
inductive TypeWritten : TypeDesc × Modifiers → List Token → Prop where
  | plain {t : Token} {desc : TypeDesc} {range : Modifiers} {count : Nat} {pairs : List Token}
    (keyword : t.kind.plainType? = some (desc, range)) (brackets : BracketPairs count pairs) :
    TypeWritten (desc.arrayOfAt count, range) (t :: pairs)
  | object {t name : Token} {count : Nat} {pairs : List Token} (keyword : t.kind = .typeObj)
    (named : name.kind = .identifier) (brackets : BracketPairs count pairs) :
    TypeWritten ((TypeDesc.object name.lexeme).arrayOfAt count, .none) (t :: name :: pairs)
  | function {t keyword left right colon : Token} {parts : List ((TypeDesc × Modifiers) × List Token)}
    {params result : List Token} {returns : TypeDesc × Modifiers} (object : t.kind = .typeObj)
    (function : keyword.kind = .kwFun) (opens : left.kind = .leftParen)
    (each : ∀ part ∈ parts, TypeWritten part.1 part.2) (joined : Commas (parts.map Prod.snd) params)
    (closes : right.kind = .rightParen) (before : colon.kind = .colon) (last : TypeWritten returns result) :
    TypeWritten (.function (parts.map fun part => part.1.1) returns.1, .none)
      (t :: keyword :: left :: (params ++ right :: colon :: result))

theorem TypeWritten.starts {written : TypeDesc × Modifiers} {tokens : List Token}
    (spelled : TypeWritten written tokens) : ∃ t rest, tokens = t :: rest ∧ t.kind.isTypeName = true := by
  cases spelled with
  | @plain t _ _ _ pairs keyword =>
    refine ⟨t, pairs, rfl, ?_⟩
    revert keyword
    cases t.kind <;> simp [TokenKind.plainType?, TokenKind.isTypeName]
  | object keyword => exact ⟨_, _, rfl, by simp [keyword, TokenKind.isTypeName]⟩
  | function keyword => exact ⟨_, _, rfl, by simp [keyword, TokenKind.isTypeName]⟩

def TypeDesc.Writable (desc : TypeDesc) : Prop :=
  ∃ range tokens, TypeWritten (desc, range) tokens

/-- A type can be written with its keyword on any line. -/
theorem TypeDesc.Writable.onLine {desc : TypeDesc} (writable : desc.Writable) (line : Line) :
    ∃ range t tokens, TypeWritten (desc, range) (t :: tokens) ∧ t.line = line := by
  obtain ⟨range, tokens, spelled⟩ := writable
  generalize written : (desc, range) = type at spelled
  cases spelled with
  | @plain t _ _ _ _ keyword brackets =>
    cases written
    exact ⟨_, { t with line := line }, _, .plain keyword brackets, rfl⟩
  | @object t _ _ _ keyword named brackets =>
    cases written
    exact ⟨_, { t with line := line }, _, .object keyword named brackets, rfl⟩
  | @function t _ _ _ _ _ _ _ _ object function opens each joined closes before last =>
    cases written
    exact ⟨_, { t with line := line }, _, .function object function opens each joined closes before last, rfl⟩

inductive Assigns (site : AssignSite) (value : Option Expr) : Expr → Expr → Prop where
  | use (ref : Reference) : Assigns site value (.use ref) (.assign ref site value)
  | get (object : Expr) (name : Name) :
    Assigns site value (.get object name false) (.set object name site value)
  | staticGet (object : Expr) (name : Name) :
    Assigns site value (.staticGet object name) (.staticSet object name site value)
  | index (object : Expr) (line : Line) (position : Expr) :
    Assigns site value (.index object line position) (.indexSet object line position site value)

/-- The tokens of an expression. Where the tree records a line, the token there carries it. -/
inductive Written : Expr → List Token → Prop where
  | nil {t : Token} (keyword : t.kind = .kwNil) : Written (.literal .nil) [t]
  | bool {t : Token} {b : Bool} (keyword : t.kind = if b then .kwTrue else .kwFalse) :
    Written (.literal (.bool b)) [t]
  | value {t : Token} {value : Literal} (written : t.kind = .number ∨ t.kind = .string)
    (reads : t.literal? = some value) : Written (.literal value) [t]
  | use {t : Token} (named : t.kind = .identifier) : Written (.use { name := t.name }) [t]
  | this {t : Token} (keyword : t.kind = .kwThis) : Written (.this { name := t.name }) [t]
  | given {t : Token} (keyword : t.kind = .kwValue) : Written (.value { name := t.name }) [t]
  | super {t dot name : Token} (keyword : t.kind = .kwSuper) (point : dot.kind = .dot)
    (named : name.kind = .identifier) : Written (.super { name := t.name } name.name) [t, dot, name]
  | group {left right : Token} {inner : Expr} {tokens : List Token} (opens : left.kind = .leftParen)
    (inside : Written inner tokens) (closes : right.kind = .rightParen) :
    Written (.group inner) (left :: (tokens ++ [right]))
  | typeOf {t left right : Token} {inner : Expr} {tokens : List Token} (keyword : t.kind = .kwTypeof)
    (opens : left.kind = .leftParen) (inside : Written inner tokens) (closes : right.kind = .rightParen) :
    Written (.typeOf t.line inner) (t :: left :: (tokens ++ [right]))
  | length {t left right : Token} {inner : Expr} {tokens : List Token} (keyword : t.kind = .kwLength)
    (opens : left.kind = .leftParen) (inside : Written inner tokens) (closes : right.kind = .rightParen) :
    Written (.length t.line inner) (t :: left :: (tokens ++ [right]))
  | type {t : Token} {desc : TypeDesc} {range : Modifiers} {tokens : List Token}
    (written : TypeWritten (desc, range) (t :: tokens)) : Written (.type t.line desc) (t :: tokens)
  | array {left right : Token} {parts : List (Expr × List Token)} {tokens : List Token}
    (opens : left.kind = .leftBracket) (each : ∀ part ∈ parts, Written part.1 part.2)
    (joined : Commas (parts.map Prod.snd) tokens) (closes : right.kind = .rightBracket) :
    Written (.array left.line none (parts.map Prod.fst)) (left :: (tokens ++ [right]))
  | typedArray {left colon right : Token} {desc : TypeDesc} {range : Modifiers}
    {parts : List (Expr × List Token)} {type tokens : List Token} (opens : left.kind = .leftBracket)
    (written : TypeWritten (desc, range) type) (between : colon.kind = .colon)
    (each : ∀ part ∈ parts, Written part.1 part.2) (joined : Commas (parts.map Prod.snd) tokens)
    (closes : right.kind = .rightBracket) :
    Written (.array left.line (some desc) (parts.map Prod.fst)) (left :: (type ++ colon :: (tokens ++ [right])))
  | sizedArray {left semicolon right : Token} {desc : TypeDesc} {range : Modifiers} {size : Expr}
    {type tokens : List Token} (opens : left.kind = .leftBracket) (written : TypeWritten (desc, range) type)
    (between : semicolon.kind = .semicolon) (inside : Written size tokens)
    (closes : right.kind = .rightBracket) :
    Written (.sizedArray left.line desc size) (left :: (type ++ semicolon :: (tokens ++ [right])))
  | get {object : Expr} {tokens : List Token} {dot name : Token} (first : Written object tokens)
    (point : dot.kind = .dot) (named : name.kind = .identifier) :
    Written (.get object name.name false) (tokens ++ [dot, name])
  | safeGet {object : Expr} {tokens : List Token} {dot name : Token} (first : Written object tokens)
    (point : dot.kind = .questionDot) (named : name.kind = .identifier) :
    Written (.get object name.name true) (tokens ++ [dot, name])
  | staticGet {object : Expr} {tokens : List Token} {colons name : Token} (first : Written object tokens)
    (point : colons.kind = .colonColon) (named : name.kind = .identifier) :
    Written (.staticGet object name.name) (tokens ++ [colons, name])
  | index {object position : Expr} {tokens inner : List Token} {left right : Token}
    (first : Written object tokens) (opens : left.kind = .leftBracket) (inside : Written position inner)
    (closes : right.kind = .rightBracket) :
    Written (.index object left.line position) (tokens ++ left :: (inner ++ [right]))
  | call {callee : Expr} {tokens inner : List Token} {left right : Token} {parts : List (Expr × List Token)}
    (first : Written callee tokens) (opens : left.kind = .leftParen)
    (each : ∀ part ∈ parts, Written part.1 part.2) (joined : Commas (parts.map Prod.snd) inner)
    (closes : right.kind = .rightParen) :
    Written (.call callee right.line (parts.map Prod.fst) [] false) (tokens ++ left :: (inner ++ [right]))
  | safeCall {object : Expr} {tokens inner : List Token} {dot name left right : Token}
    {parts : List (Expr × List Token)} (first : Written object tokens) (point : dot.kind = .questionDot)
    (named : name.kind = .identifier) (opens : left.kind = .leftParen)
    (each : ∀ part ∈ parts, Written part.1 part.2) (joined : Commas (parts.map Prod.snd) inner)
    (closes : right.kind = .rightParen) :
    Written (.call (.get object name.name true) right.line (parts.map Prod.fst) [] true)
      (tokens ++ dot :: name :: left :: (inner ++ [right]))
  | genericCall {callee : Expr} {tokens types inner : List Token} {colon less greater left right : Token}
    {generics parts : List (Expr × List Token)} (first : Written callee tokens) (point : colon.kind = .colon)
    (angle : less.kind = .less) (some : generics ≠ []) (eachType : ∀ part ∈ generics, Written part.1 part.2)
    (joinedTypes : Commas (generics.map Prod.snd) types) (closing : greater.kind = .greater)
    (opens : left.kind = .leftParen) (each : ∀ part ∈ parts, Written part.1 part.2)
    (joined : Commas (parts.map Prod.snd) inner) (closes : right.kind = .rightParen) :
    Written (.call callee right.line (parts.map Prod.fst) (generics.map Prod.fst) false)
      (tokens ++ colon :: less :: (types ++ greater :: left :: (inner ++ [right])))
  | unary {op : UnaryOp} {t : Token} {operand : Expr} {tokens : List Token} (sign : t.kind = op.kind)
    (last : Written operand tokens) : Written (.unary op t.line operand) (t :: tokens)
  | binary {op : BinaryOp} {t : Token} {left right : Expr} {before after : List Token}
    (first : Written left before) (sign : t.kind = op.kind) (last : Written right after) :
    Written (.binary op t.line left right) (before ++ t :: after)
  | logical {op : LogicalOp} {t : Token} {left right : Expr} {before after : List Token}
    (first : Written left before) (sign : t.kind = op.kind) (last : Written right after) :
    Written (.logical op t.line left right) (before ++ t :: after)
  | ternary {question colon : Token} {condition yes no : Expr} {before middle after : List Token}
    (first : Written condition before) (mark : question.kind = .question) (inside : Written yes middle)
    (between : colon.kind = .colon) (last : Written no after) :
    Written (.ternary question.line condition yes no) (before ++ question :: (middle ++ colon :: after))
  | cast {keyword : Token} {operand target : Expr} {before after : List Token} (first : Written operand before)
    (sign : keyword.kind = .kwAs) (last : Written target after) :
    Written (.cast operand keyword.line target) (before ++ keyword :: after)
  | assign {op : AssignOp} {t : Token} {target value e : Expr} {before after : List Token}
    (made : Assigns ⟨op, t.line⟩ (some value) target e) (first : Written target before)
    (sign : t.kind = op.kind) (takes : op.takesValue = true) (last : Written value after) :
    Written e (before ++ t :: after)
  | step {op : AssignOp} {t : Token} {target e : Expr} {before : List Token}
    (made : Assigns ⟨op, t.line⟩ none target e) (first : Written target before) (sign : t.kind = op.kind)
    (alone : op.takesValue = false) : Written e (before ++ [t])

namespace Expr

def level : Expr → Level
  | assign .. | set .. | staticSet .. | indexSet .. => .assignment
  | cast .. => .cast
  | ternary .. => .ternary
  | logical op .. => op.level
  | binary op .. => op.level
  | unary .. => .unary
  | call .. | get .. | staticGet .. | index .. => .call
  | _ => .primary

/-- The expressions of which an expression is directly made up. -/
def operands : Expr → List Expr
  | group e | unary _ _ e | sizedArray _ _ e | length _ e | typeOf _ e | get e _ _ | staticGet e _ => [e]
  | binary _ _ left right | logical _ _ left right | index left _ right | cast left _ right => [left, right]
  | ternary _ condition yes no => [condition, yes, no]
  | assign _ _ operand => operand.toList
  | call callee _ args generics _ => callee :: (args ++ generics)
  | set object _ _ operand | staticSet object _ _ operand => object :: operand.toList
  | indexSet object _ position _ operand => object :: position :: operand.toList
  | array _ _ elements => elements
  | literal _ | use _ | this _ | value _ | super .. | type .. | lambda _ => []

/-- A member that is read only where there is an object. -/
def isSafeGet : Expr → Bool
  | get _ _ nullSafe => nullSafe
  | _ => false

def startsWithType : Expr → Bool
  | type .. => true
  | binary _ _ e _ | logical _ _ e _ | index e _ _ | cast e _ _ | ternary _ e _ _ | call e _ _ _ _
  | get e _ _ | staticGet e _ | set e _ _ _ | staticSet e _ _ _ | indexSet e _ _ _ _ => e.startsWithType
  | _ => false
termination_by structural e => e

/-- What the table of levels asks of an expression, apart from its operands. -/
def Levelled : Expr → Prop
  | literal (.num x) => ∃ text, Number.read? text = some x
  | literal _ | group _ | length .. | typeOf .. => True
  | use ref | this ref | value ref | super ref _ => ref.Fresh
  | unary _ _ operand => .unary ≤ operand.level
  | binary op _ left right => op.level ≤ left.level ∧ op.level < right.level
  | logical op _ left right => op.level ≤ left.level ∧ op.level < right.level
  | ternary _ condition _ no => .disjunction ≤ condition.level ∧ .ternary ≤ no.level
  | cast operand _ target => .cast ≤ operand.level ∧ .call ≤ target.level
  | assign ref site operand => ref.Fresh ∧ operand.isSome = site.op.takesValue
  | set object _ site operand | staticSet object _ site operand | indexSet object _ _ site operand =>
    .call ≤ object.level ∧ operand.isSome = site.op.takesValue
  | get object _ _ | staticGet object _ | index object _ _ => .call ≤ object.level
  | call callee _ args generics nullSafe =>
    .call ≤ callee.level ∧ args.length ≤ 255 ∧ (∀ e ∈ generics, e.level = .primary) ∧
      (nullSafe = true ↔ generics = [] ∧ callee.isSafeGet = true)
  | array _ none elements => ∀ first ∈ elements.head?, first.startsWithType = false
  | array _ (some desc) _ | sizedArray _ desc _ | type _ desc => desc.Writable
  | lambda _ => False

end Expr

/-- A tree that respects the table of levels throughout. -/
inductive WellLevelled : Expr → Prop where
  | intro {e : Expr} (own : e.Levelled) (operands : ∀ part ∈ e.operands, WellLevelled part) : WellLevelled e

inductive LambdaFree : Expr → Prop where
  | intro {e : Expr} (other : ∀ decl, e ≠ .lambda decl) (operands : ∀ part ∈ e.operands, LambdaFree part) :
    LambdaFree e

theorem WellLevelled.own {e : Expr} : WellLevelled e → e.Levelled
  | .intro own _ => own

theorem WellLevelled.operand {e part : Expr} : WellLevelled e → part ∈ e.operands → WellLevelled part
  | .intro _ operands, member => operands part member

theorem LambdaFree.operand {e part : Expr} : LambdaFree e → part ∈ e.operands → LambdaFree part
  | .intro _ operands, member => operands part member

def TokenKind.startsExpr : TokenKind → Bool
  | .kwNil | .kwTrue | .kwFalse | .number | .string | .identifier | .kwThis | .kwValue | .kwSuper | .leftParen
  | .leftBracket | .kwTypeof | .kwLength | .bang | .minus => true
  | kind => kind.isTypeName

/-- What the first token of an expression tells: whether it is a type that the expression starts with, and
no sign where the expression may stand before a suffix. -/
structure StartsWith (t : Token) (e : Expr) : Prop where
  starts : t.kind.startsExpr = true
  type : t.kind.isTypeName = e.startsWithType
  unsigned : WellLevelled e → .call ≤ e.level → Grammar.unaryOp t.kind = none

theorem StartsWith.first {t : Token} {first e : Expr} (starts : StartsWith t first)
    (type : e.startsWithType = first.startsWithType)
    (tight : WellLevelled e → .call ≤ e.level → WellLevelled first ∧ .call ≤ first.level) : StartsWith t e :=
  ⟨starts.starts, starts.type.trans type.symm, fun levelled suffix =>
    starts.unsigned (tight levelled suffix).1 (tight levelled suffix).2⟩

theorem StartsWith.atom {t : Token} {e : Expr} {kind : TokenKind} (same : t.kind = kind)
    (starts : kind.startsExpr = true) (type : kind.isTypeName = e.startsWithType)
    (unsigned : Grammar.unaryOp kind = none) : StartsWith t e :=
  ⟨same ▸ starts, same ▸ type, fun _ _ => same ▸ unsigned⟩

theorem TypeWritten.startsWith {desc : TypeDesc} {range : Modifiers} {t : Token} {rest : List Token}
    (spelled : TypeWritten (desc, range) (t :: rest)) (line : Line) : StartsWith t (.type line desc) := by
  obtain ⟨_, _, same, type⟩ := spelled.starts
  cases same
  have kinds : ∀ kind : TokenKind, kind.isTypeName = true →
      kind.startsExpr = true ∧ Grammar.unaryOp kind = none := by
    intro kind
    cases kind <;> decide
  exact ⟨(kinds _ type).1, type, fun _ _ => (kinds _ type).2⟩

theorem BinaryOp.level_loose (op : BinaryOp) : ¬.call ≤ op.level := by
  rcases op with op | _ | _
  · cases op <;> decide
  · decide
  · decide

theorem LogicalOp.level_loose (op : LogicalOp) : ¬.call ≤ op.level := by
  cases op <;> decide

theorem Assigns.loose {site : AssignSite} {operand : Option Expr} {target e : Expr}
    (made : Assigns site operand target e) : ¬.call ≤ e.level := by
  cases made <;> exact (by decide : ¬Level.call ≤ Level.assignment)

theorem Assigns.startsWithType {site : AssignSite} {operand : Option Expr} {target e : Expr}
    (made : Assigns site operand target e) : e.startsWithType = target.startsWithType := by
  cases made <;> rfl

theorem Assigns.target {site : AssignSite} {operand : Option Expr} {target e : Expr}
    (made : Assigns site operand target e) (levelled : WellLevelled e) : WellLevelled target := by
  refine .intro ?_ fun part member => levelled.operand ?_
  · cases made <;> exact levelled.own.1
  · cases made with
    | use => cases member
    | _ => exact List.mem_append_left _ member

theorem Assigns.lambdaFree {site : AssignSite} {operand : Option Expr} {target e : Expr}
    (made : Assigns site operand target e) (free : LambdaFree e) : LambdaFree target := by
  refine .intro ?_ fun part member => free.operand ?_
  · cases made <;> simp
  · cases made with
    | use => cases member
    | _ => exact List.mem_append_left _ member

theorem Assigns.levelled {site : AssignSite} {operand : Option Expr} {target e : Expr}
    (made : Assigns site operand target e) (first : WellLevelled target)
    (second : ∀ value ∈ operand, WellLevelled value) (taken : operand.isSome = site.op.takesValue) : WellLevelled e := by
  cases made with
  | use => exact .intro ⟨first.own, taken⟩ (by simpa [Expr.operands] using second)
  | index =>
    refine .intro ⟨first.own, taken⟩ ?_
    simp only [Expr.operands, List.mem_cons, Option.mem_toList]
    rintro part (rfl | rfl | member)
    · exact first.operand (by simp [Expr.operands])
    · exact first.operand (by simp [Expr.operands])
    · exact second part member
  | _ =>
    refine .intro ⟨first.own, taken⟩ ?_
    simp only [Expr.operands, List.mem_cons, Option.mem_toList]
    rintro part (rfl | member)
    · exact first.operand (by simp [Expr.operands])
    · exact second part member

theorem Written.starts {e : Expr} {tokens : List Token} (written : Written e tokens) :
    ∃ t rest, tokens = t :: rest ∧ StartsWith t e := by
  induction written with
  | nil keyword => exact ⟨_, _, rfl, .atom keyword rfl rfl rfl⟩
  | @bool t b keyword =>
    refine ⟨_, _, rfl, ?_⟩
    cases b <;> exact .atom keyword rfl rfl rfl
  | value kind =>
    refine ⟨_, _, rfl, ?_⟩
    rcases kind with kind | kind <;> exact .atom kind rfl rfl rfl
  | use named => exact ⟨_, _, rfl, .atom named rfl rfl rfl⟩
  | this keyword => exact ⟨_, _, rfl, .atom keyword rfl rfl rfl⟩
  | given keyword => exact ⟨_, _, rfl, .atom keyword rfl rfl rfl⟩
  | super keyword => exact ⟨_, _, rfl, .atom keyword rfl rfl rfl⟩
  | group opens => exact ⟨_, _, rfl, .atom opens rfl rfl rfl⟩
  | typeOf keyword => exact ⟨_, _, rfl, .atom keyword rfl rfl rfl⟩
  | length keyword => exact ⟨_, _, rfl, .atom keyword rfl rfl rfl⟩
  | type spelled => exact ⟨_, _, rfl, spelled.startsWith _⟩
  | array opens => exact ⟨_, _, rfl, .atom opens rfl rfl rfl⟩
  | typedArray opens => exact ⟨_, _, rfl, .atom opens rfl rfl rfl⟩
  | sizedArray opens => exact ⟨_, _, rfl, .atom opens rfl rfl rfl⟩
  | unary sign =>
    refine ⟨_, _, rfl, ?_, ?_, fun _ tight => absurd tight (by decide : ¬Level.call ≤ .unary)⟩
    · rw [sign]
      cases ‹UnaryOp› <;> rfl
    · rw [sign]
      cases ‹UnaryOp› <;> rfl
  | get _ _ _ first | safeGet _ _ _ first | staticGet _ _ _ first =>
    obtain ⟨t, rest, rfl, starts⟩ := first
    exact ⟨t, _, rfl, starts.first rfl fun levelled _ => ⟨levelled.operand (by simp [Expr.operands]), levelled.own⟩⟩
  | index _ _ _ _ first =>
    obtain ⟨t, rest, rfl, starts⟩ := first
    exact ⟨t, _, rfl, starts.first rfl fun levelled _ => ⟨levelled.operand (by simp [Expr.operands]), levelled.own⟩⟩
  | call _ _ _ _ _ first =>
    obtain ⟨t, rest, rfl, starts⟩ := first
    exact ⟨t, _, rfl, starts.first rfl fun levelled _ => ⟨levelled.operand (by simp [Expr.operands]), levelled.own.1⟩⟩
  | genericCall _ _ _ _ _ _ _ _ _ _ _ first =>
    obtain ⟨t, rest, rfl, starts⟩ := first
    exact ⟨t, _, rfl, starts.first rfl fun levelled _ => ⟨levelled.operand (by simp [Expr.operands]), levelled.own.1⟩⟩
  | @safeCall object _ _ _ name _ _ _ _ _ _ _ _ _ _ first =>
    obtain ⟨t, rest, rfl, starts⟩ := first
    refine ⟨t, _, rfl, starts.first rfl fun levelled _ => ?_⟩
    have member : WellLevelled (.get object name.name true) := levelled.operand (by simp [Expr.operands])
    exact ⟨member.operand (by simp [Expr.operands]), member.own⟩
  | @binary op _ _ _ _ _ _ _ _ first =>
    obtain ⟨t, rest, rfl, starts⟩ := first
    exact ⟨t, _, rfl, starts.first rfl fun _ tight => absurd tight op.level_loose⟩
  | @logical op _ _ _ _ _ _ _ _ first =>
    obtain ⟨t, rest, rfl, starts⟩ := first
    exact ⟨t, _, rfl, starts.first rfl fun _ tight => absurd tight op.level_loose⟩
  | ternary _ _ _ _ _ first =>
    obtain ⟨t, rest, rfl, starts⟩ := first
    exact ⟨t, _, rfl, starts.first rfl fun _ tight => absurd tight (by decide : ¬Level.call ≤ .ternary)⟩
  | cast _ _ _ first =>
    obtain ⟨t, rest, rfl, starts⟩ := first
    exact ⟨t, _, rfl, starts.first rfl fun _ tight => absurd tight (by decide : ¬Level.call ≤ .cast)⟩
  | assign made _ _ _ _ first | step made _ _ _ first =>
    obtain ⟨t, rest, rfl, starts⟩ := first
    exact ⟨t, _, rfl, starts.first made.startsWithType fun _ tight => absurd tight made.loose⟩

theorem commas_exist (parts : List (List Token)) : ∃ tokens, Commas parts tokens := by
  induction parts with
  | nil => exact ⟨[], .none⟩
  | cons first others ih =>
    obtain ⟨tokens, joined⟩ := ih
    cases others with
    | nil => exact ⟨first, .one⟩
    | cons second others => exact ⟨first ++ ⟨.comma, ",", 1⟩ :: tokens, .more rfl joined⟩

/-- Expressions that can be written can be written in a row. -/
theorem row_exists {es : List Expr} (each : ∀ e ∈ es, ∃ tokens, Written e tokens) :
    ∃ (parts : List (Expr × List Token)) (tokens : List Token), parts.map Prod.fst = es ∧
      (∀ part ∈ parts, Written part.1 part.2) ∧ Commas (parts.map Prod.snd) tokens := by
  have parts : ∃ parts : List (Expr × List Token), parts.map Prod.fst = es ∧
      ∀ part ∈ parts, Written part.1 part.2 := by
    induction es with
    | nil => exact ⟨[], rfl, by simp⟩
    | cons e es ih =>
      obtain ⟨tokens, written⟩ := each e (by simp)
      obtain ⟨parts, same, others⟩ := ih fun e member => each e (by simp [member])
      refine ⟨(e, tokens) :: parts, by simp [same], fun part member => ?_⟩
      rcases List.mem_cons.mp member with rfl | later
      · exact written
      · exact others part later
  obtain ⟨parts, same, written⟩ := parts
  obtain ⟨tokens, joined⟩ := commas_exist (parts.map Prod.snd)
  exact ⟨parts, tokens, same, written, joined⟩

theorem Assigns.written {site : AssignSite} {operand : Option Expr} {target e : Expr}
    (made : Assigns site operand target e) (fits : operand.isSome = site.op.takesValue)
    (first : ∃ tokens, Written target tokens) (last : ∀ value ∈ operand, ∃ tokens, Written value tokens) :
    ∃ tokens, Written e tokens := by
  obtain ⟨before, written⟩ := first
  obtain ⟨op, line⟩ := site
  cases operand with
  | none => exact ⟨before ++ [⟨op.kind, "", line⟩], .step made written rfl fits.symm⟩
  | some value =>
    obtain ⟨after, valueWritten⟩ := last value rfl
    exact ⟨before ++ ⟨op.kind, "", line⟩ :: after, .assign made written rfl fits.symm valueWritten⟩

theorem word_kind (kind : TokenKind) (name : Name) : (Token.mk kind name.text name.line).kind = kind := rfl

theorem mark_kind (kind : TokenKind) (line : Line) : (Token.mk kind "" line).kind = kind := rfl

theorem get_written {object : Expr} {tokens : List Token} (first : Written object tokens) (name : Name)
    (nullSafe : Bool) : ∃ tokens, Written (.get object name nullSafe) tokens := by
  cases nullSafe with
  | false => exact ⟨_, .get first (mark_kind .dot 1) (word_kind .identifier name)⟩
  | true => exact ⟨_, .safeGet first (mark_kind .questionDot 1) (word_kind .identifier name)⟩

theorem staticGet_written {object : Expr} {tokens : List Token} (first : Written object tokens) (name : Name) :
    ∃ tokens, Written (.staticGet object name) tokens :=
  ⟨_, .staticGet first (mark_kind .colonColon 1) (word_kind .identifier name)⟩

theorem index_written {object position : Expr} {tokens inner : List Token} (first : Written object tokens)
    (line : Line) (inside : Written position inner) : ∃ tokens, Written (.index object line position) tokens :=
  ⟨_, .index first (mark_kind .leftBracket line) inside (mark_kind .rightBracket 1)⟩

/-- A call whose callee and arguments can be written can be written, as long as it is marked null-safe only
where it has no generic arguments and calls a null-safe member. -/
theorem call_written {callee : Expr} {tokens inner angles : List Token} {parts types : List (Expr × List Token)}
    (first : Written callee tokens) (written : ∀ part ∈ parts, Written part.1 part.2)
    (joined : Commas (parts.map Prod.snd) inner) (writtenTypes : ∀ part ∈ types, Written part.1 part.2)
    (joinedTypes : Commas (types.map Prod.snd) angles) (line : Line) {nullSafe : Bool}
    (safe : nullSafe = true → types = [] ∧ callee.isSafeGet = true) :
    ∃ tokens, Written (.call callee line (parts.map Prod.fst) (types.map Prod.fst) nullSafe) tokens := by
  cases nullSafe with
  | true =>
    obtain ⟨rfl, member⟩ := safe rfl
    cases first with
    | safeGet object point named =>
      exact ⟨_, .safeCall object point named (mark_kind .leftParen 1) written joined (mark_kind .rightParen line)⟩
    | assign made => cases made <;> cases member
    | step made => cases made <;> cases member
    | _ => cases member
  | false =>
    by_cases some : types = []
    · subst some
      exact ⟨_, .call first (mark_kind .leftParen 1) written joined (mark_kind .rightParen line)⟩
    · exact ⟨_, .genericCall first (mark_kind .colon 1) (mark_kind .less 1) some writtenTypes joinedTypes
        (mark_kind .greater 1) (mark_kind .leftParen 1) written joined (mark_kind .rightParen line)⟩

theorem string_written (text : String) : ∃ t : Token, t.kind = .string ∧ t.literal? = some (.str text) :=
  ⟨⟨.string, String.ofList ('"' :: text.toList ++ ['"']), 1⟩, rfl, by simp [Token.literal?]⟩

/-- Every well-levelled tree can be written. -/
theorem WellLevelled.written {e : Expr} (levelled : WellLevelled e) : ∃ tokens, Written e tokens := by
  induction levelled with
  | @intro e own _ ih =>
    cases e with
    | literal value =>
      cases value with
      | nil => exact ⟨_, .nil (mark_kind .kwNil 1)⟩
      | bool b => exact ⟨_, .bool (mark_kind _ 1)⟩
      | num x =>
        obtain ⟨text, reads⟩ := own
        exact ⟨[⟨.number, text, 1⟩], .value (.inl rfl) (by simp [Token.literal?, reads])⟩
      | str text =>
        obtain ⟨t, kind, reads⟩ := string_written text
        exact ⟨[t], .value (.inr kind) reads⟩
    | use ref =>
      obtain ⟨name, _, _⟩ := ref
      obtain ⟨rfl, rfl⟩ := own
      exact ⟨_, .use (word_kind .identifier name)⟩
    | this ref =>
      obtain ⟨name, _, _⟩ := ref
      obtain ⟨rfl, rfl⟩ := own
      exact ⟨_, .this (word_kind .kwThis name)⟩
    | value ref =>
      obtain ⟨name, _, _⟩ := ref
      obtain ⟨rfl, rfl⟩ := own
      exact ⟨_, .given (word_kind .kwValue name)⟩
    | super ref method =>
      obtain ⟨name, _, _⟩ := ref
      obtain ⟨rfl, rfl⟩ := own
      exact ⟨_, .super (word_kind .kwSuper name) (mark_kind .dot 1) (word_kind .identifier method)⟩
    | group inner =>
      obtain ⟨tokens, inside⟩ := ih inner (by simp [Expr.operands])
      exact ⟨_, .group (mark_kind .leftParen 1) inside (mark_kind .rightParen 1)⟩
    | typeOf line inner =>
      obtain ⟨tokens, inside⟩ := ih inner (by simp [Expr.operands])
      exact ⟨_, .typeOf (mark_kind .kwTypeof line) (mark_kind .leftParen 1) inside (mark_kind .rightParen 1)⟩
    | length line inner =>
      obtain ⟨tokens, inside⟩ := ih inner (by simp [Expr.operands])
      exact ⟨_, .length (mark_kind .kwLength line) (mark_kind .leftParen 1) inside (mark_kind .rightParen 1)⟩
    | type line desc =>
      obtain ⟨range, t, tokens, spelled, rfl⟩ := TypeDesc.Writable.onLine own line
      exact ⟨_, .type spelled⟩
    | array line elementType elements =>
      obtain ⟨parts, tokens, rfl, written, joined⟩ := row_exists ih
      cases elementType with
      | none => exact ⟨_, .array (mark_kind .leftBracket line) written joined (mark_kind .rightBracket 1)⟩
      | some desc =>
        obtain ⟨range, type, spelled⟩ := own
        exact ⟨_, .typedArray (mark_kind .leftBracket line) spelled (mark_kind .colon 1) written joined
          (mark_kind .rightBracket 1)⟩
    | sizedArray line desc size =>
      obtain ⟨range, type, spelled⟩ := own
      obtain ⟨tokens, inside⟩ := ih size (by simp [Expr.operands])
      exact ⟨_, .sizedArray (mark_kind .leftBracket line) spelled (mark_kind .semicolon 1) inside
        (mark_kind .rightBracket 1)⟩
    | get object name nullSafe =>
      obtain ⟨tokens, first⟩ := ih object (by simp [Expr.operands])
      exact get_written first name nullSafe
    | staticGet object name =>
      obtain ⟨tokens, first⟩ := ih object (by simp [Expr.operands])
      exact staticGet_written first name
    | index object line position =>
      obtain ⟨tokens, first⟩ := ih object (by simp [Expr.operands])
      obtain ⟨inner, inside⟩ := ih position (by simp [Expr.operands])
      exact index_written first line inside
    | call callee line args generics nullSafe =>
      obtain ⟨-, -, -, safe⟩ := own
      obtain ⟨tokens, first⟩ := ih callee (by simp [Expr.operands])
      obtain ⟨parts, inner, rfl, written, joined⟩ := row_exists fun e (member : e ∈ args) =>
        ih e (by simp [Expr.operands, member])
      obtain ⟨types, angles, rfl, writtenTypes, joinedTypes⟩ := row_exists fun e (member : e ∈ generics) =>
        ih e (by simp [Expr.operands, member])
      exact call_written first written joined writtenTypes joinedTypes line (by simpa using safe.mp)
    | unary op line operand =>
      obtain ⟨tokens, last⟩ := ih operand (by simp [Expr.operands])
      exact ⟨_, .unary (mark_kind op.kind line) last⟩
    | binary op line left right =>
      obtain ⟨before, first⟩ := ih left (by simp [Expr.operands])
      obtain ⟨after, last⟩ := ih right (by simp [Expr.operands])
      exact ⟨_, .binary first (mark_kind op.kind line) last⟩
    | logical op line left right =>
      obtain ⟨before, first⟩ := ih left (by simp [Expr.operands])
      obtain ⟨after, last⟩ := ih right (by simp [Expr.operands])
      exact ⟨_, .logical first (mark_kind op.kind line) last⟩
    | ternary line condition yes no =>
      obtain ⟨before, first⟩ := ih condition (by simp [Expr.operands])
      obtain ⟨middle, inside⟩ := ih yes (by simp [Expr.operands])
      obtain ⟨after, last⟩ := ih no (by simp [Expr.operands])
      exact ⟨_, .ternary first (mark_kind .question line) inside (mark_kind .colon 1) last⟩
    | cast operand line target =>
      obtain ⟨before, first⟩ := ih operand (by simp [Expr.operands])
      obtain ⟨after, last⟩ := ih target (by simp [Expr.operands])
      exact ⟨_, .cast first (mark_kind .kwAs line) last⟩
    | assign ref site operand =>
      obtain ⟨name, _, _⟩ := ref
      obtain ⟨⟨rfl, rfl⟩, fits⟩ := own
      exact (Assigns.use _).written fits ⟨_, .use (word_kind .identifier name)⟩
        fun value member => ih value (by simpa [Expr.operands] using member)
    | set object name site operand =>
      obtain ⟨tokens, first⟩ := ih object (by simp [Expr.operands])
      exact (Assigns.get object name).written own.2 (get_written first name false)
        fun value member => ih value (by simpa [Expr.operands] using .inr member)
    | staticSet object name site operand =>
      obtain ⟨tokens, first⟩ := ih object (by simp [Expr.operands])
      exact (Assigns.staticGet object name).written own.2 (staticGet_written first name)
        fun value member => ih value (by simpa [Expr.operands] using .inr member)
    | indexSet object line position site operand =>
      obtain ⟨tokens, first⟩ := ih object (by simp [Expr.operands])
      obtain ⟨inner, inside⟩ := ih position (by simp [Expr.operands])
      exact (Assigns.index object line position).written own.2 (index_written first line inside)
        fun value member => ih value (by simpa [Expr.operands] using .inr (.inr member))
    | lambda decl => cases own

end Treewalk
