import Treewalk.Grammar.Statement
import Treewalk.Proofs.Place
import Treewalk.Proofs.Reading

/-!
The form of what the grammar accepts: no branch of a statement declares anything, a loop copies only the
variable that is declared right before it, in a block of the two, and no reserved word is declared or
assigned to.
-/

namespace Treewalk

namespace Grammar

open Scoping (Formed Item)

open Parser

structure Rules.Formed (r : Rules) : Prop where
  expression : Yields (fun e => Scoping.Formed (.expr e)) r.expression
  ternary : Yields (fun e => Scoping.Formed (.expr e)) r.ternary
  unary : Yields (fun e => Scoping.Formed (.expr e)) r.unary
  statement : Yields (fun s => Scoping.Formed (.stmt s) ∧ s.Plain) r.statement
  declaration : Yields (fun s => Scoping.Formed (.stmt s) ∧ s.loopNames = []) r.declaration
  blockItem : Yields (fun s => Scoping.Formed (.stmt s) ∧ s.loopNames = []) r.blockItem

theorem formed_expr {e : Expr} (es : List Expr) (same : e.parts {} = es.map fun e => ({}, .expr e))
    (parts : ∀ part ∈ es, Formed (.expr part)) (regular : Item.Regular (.expr e)) :
    Formed (.expr e) := by
  refine .intro regular ?_
  intro q member
  simp only [Item.parts, same, List.mem_map] at member
  obtain ⟨part, found, rfl⟩ := member
  exact parts part found

theorem formed_atom {e : Expr} (same : e.parts {} = [])
    (regular : Item.Regular (.expr e)) : Formed (.expr e) :=
  formed_expr [] same (by simp) regular

theorem formed_use {ref : Reference} (proper : ref.name.Proper) : Formed (.expr (.use ref)) :=
  formed_atom rfl proper

theorem loopsFollow_of_none {ss : List Stmt} (none : ∀ s ∈ ss, s.loopNames = []) (before : Option Name) :
    LoopsFollow before ss := by
  induction ss generalizing before with
  | nil => trivial
  | cons s rest ih =>
    exact ⟨by simp [none s (by simp)], ih (fun s member => none s (by simp [member])) _⟩

theorem formed_bodyParts {ss : List Stmt} (formed : ∀ s ∈ ss, Formed (.stmt s)) (p : Scoping.Place) :
    ∀ q ∈ bodyParts p ss, Formed q.2 := by
  induction ss generalizing p with
  | nil => simp [bodyParts]
  | cons s rest ih =>
    simp only [bodyParts, List.mem_cons]
    rintro q (rfl | member)
    · exact formed s (by simp)
    · exact ih (fun s found => formed s (by simp [found])) _ q member

theorem formed_body {ss : List Stmt} (formed : ∀ s ∈ ss, Formed (.stmt s) ∧ s.loopNames = []) :
    Formed (.body ss) :=
  .intro (loopsFollow_of_none (fun s member => (formed s member).2) none)
    (formed_bodyParts (fun s member => (formed s member).1) {})

theorem regular_plain {s : Stmt} (plain : s.Plain) (branches : ∀ branch ∈ s.branches, branch.Plain)
    (opened : ∀ name ∈ s.openedNames, name.Proper) : Item.Regular (.stmt s) :=
  ⟨branches, by simpa [Stmt.boundNames, plain.1, plain.2] using opened⟩

/-- A declaration has no branches, and binds a proper name. -/
theorem regular_declaration {s : Stmt} {name : Name} (declared : s.declares? = some name)
    (simple : s.branches = []) (still : s.loopNames = []) (proper : name.Proper)
    (opened : ∀ name ∈ s.openedNames, name.Proper) : Item.Regular (.stmt s) :=
  ⟨by simp [simple], by simpa [Stmt.boundNames, declared, still] using ⟨proper, opened⟩⟩

def FunctionFormed (decl : FunctionDecl) : Prop :=
  (∀ param ∈ decl.params, Ordinary param.name.text) ∧ ∀ ss ∈ decl.body, Formed (.body ss)

theorem FunctionFormed.formed {role : Scoping.FunctionRole} {decl : FunctionDecl}
    (held : FunctionFormed decl) : Formed (.function role decl) := by
  refine .intro held.1 ?_
  simp only [Item.parts, List.mem_map, Option.mem_toList]
  rintro _ ⟨ss, member, rfl⟩
  exact held.2 ss member

section

variable {r : Rules} (formed : r.Formed)

include formed

theorem parenthesized_formed (keyword : String) :
    Yields (fun e => Formed (.expr e)) (parenthesized r keyword) :=
  .after fun _ => .bind formed.expression fun _ held => .after fun _ => .pure held

theorem block_formed : Yields (fun ss => Formed (.body ss)) (block r) :=
  .after fun fuel => .bind (.untilBrace formed.blockItem fuel) fun _ held =>
    .after fun _ => .pure (formed_body held)

theorem bracedBody_formed (kind : String) : Yields (fun ss => Formed (.body ss)) (bracedBody r kind) :=
  .after fun _ => block_formed formed

theorem functionBody_formed (kind : String) (needsBody : Bool) :
    Yields (fun body => ∀ ss ∈ body, Formed (.body ss)) (functionBody r kind needsBody) := by
  have braced := bracedBody_formed formed kind
  cases needsBody with
  | true => exact .bind braced fun _ held => .pure (by simpa using held)
  | false =>
    refine .after fun semicolon => ?_
    split
    · exact .pure (by simp)
    · exact .bind braced fun _ held => .pure (by simpa using held)

theorem functionRest_formed (name : Name) (kind : String) (given : Modifiers) (needsBody : Bool) :
    Yields (fun decl => decl.name = name ∧ FunctionFormed decl) (functionRest r name kind given needsBody) :=
  .bind parameters_yields fun _ proper => .after fun _ => .after fun _ =>
    .bind (functionBody_formed formed kind needsBody) fun _ held =>
      .pure ⟨rfl, fun param member => (proper param member).ordinary, held⟩

theorem function_formed (kind : String) (given : Modifiers) :
    Yields (fun decl => decl.name.Proper ∧ FunctionFormed decl) (function r kind given) :=
  .bind (identifier_yields _) fun name proper => .after fun _ =>
    (functionRest_formed formed name.name kind given false).weaken fun _ held =>
      ⟨held.1 ▸ proper, held.2⟩

theorem elements_formed :
    Yields (fun es => ∀ e ∈ es, Formed (.expr e)) (arrayLiteral.elements r) :=
  .bind (.unlessNext (by simp) (.after fun fuel => .commaSeparated formed.expression fuel) _)
    fun _ held => .after fun _ => .pure held

theorem arrayLiteral_formed (line : Line) :
    Yields (fun e => Formed (.expr e)) (arrayLiteral r line) := by
  refine .bind writtenType?_yields fun written denotable => ?_
  cases written with
  | some read =>
    have element := denotable read rfl
    refine .after fun semicolon => ?_
    split
    · exact .bind formed.expression fun size held => .after fun _ =>
        .pure (formed_expr [size] rfl (by simpa using held) element)
    · exact .after fun _ => .bind (elements_formed formed) fun es held =>
        .pure (formed_expr es rfl held fun _ same => Option.some.inj same ▸ element)
  | none =>
    exact .bind (elements_formed formed) fun es held => .pure (formed_expr es rfl held fun _ none => by cases none)

theorem primary_formed : Yields (fun e => Formed (.expr e)) (primary r) := by
  refine .bind .peek fun next genuine => ?_
  split
  · exact .fail _
  · rename_i t
    split
    · exact .after fun _ => .pure (formed_atom rfl trivial)
    · exact .after fun _ => .pure (formed_atom rfl trivial)
    · exact .after fun _ => .pure (formed_atom rfl trivial)
    all_goals try
      refine .after fun _ => ?_
      split
      · exact .pure (formed_atom rfl trivial)
      · exact .after fun _ => .giveUp
    · exact .after fun _ => .pure (formed_atom rfl trivial)
    · exact .after fun _ => .pure (formed_atom rfl trivial)
    · rename_i kind
      exact .after fun _ => .after fun _ => .after fun _ =>
        .pure (.intro ((genuine t rfl).reserved kind) (by simp [Item.parts, Expr.parts]))
    · rename_i kind
      exact .after fun _ => .pure (formed_use ((genuine t rfl).proper kind))
    · exact .after fun _ => .bind formed.expression fun inner held => .after fun _ =>
        .pure (formed_expr [inner] rfl (by simpa using held) trivial)
    · exact .after fun _ => arrayLiteral_formed formed t.line
    · exact .after fun _ => .after fun _ => .bind (functionRest_formed formed _ _ _ _) fun decl held =>
        .pure (.intro trivial (by simpa [Item.parts, Expr.parts] using held.2.formed))
    · exact .after fun _ => .bind (parenthesized_formed formed _) fun operand held =>
        .pure (formed_expr [operand] rfl (by simpa using held) trivial)
    · exact .after fun _ => .bind (parenthesized_formed formed _) fun operand held =>
        .pure (formed_expr [operand] rfl (by simpa using held) trivial)
    · refine .bind writtenType?_yields fun written denotable => ?_
      cases written with
      | some read => exact .pure (formed_atom rfl (denotable read rfl))
      | none => exact .fail _

theorem callRest_formed {callee : Expr} {generics : List Expr} (calleeFormed : Formed (.expr callee))
    (genericsFormed : ∀ e ∈ generics, Formed (.expr e)) (nullSafe : Bool) :
    Yields (fun e => Formed (.expr e)) (callRest r callee generics nullSafe) := by
  refine .bind (.unlessNext (by simp) (.after fun fuel =>
    .commaSeparatedLimited formed.expression _ _ fuel) _) fun args held => .after fun paren => .pure ?_
  refine formed_expr (callee :: (args ++ generics)) rfl ?_ trivial
  simp only [List.mem_cons, List.mem_append]
  rintro e (rfl | member | member)
  · exact calleeFormed
  · exact held e member
  · exact genericsFormed e member

theorem genericCall_formed {callee : Expr} (calleeFormed : Formed (.expr callee)) :
    Yields (fun e => Formed (.expr e)) (genericCall r callee) :=
  .after fun fuel => .bind (.commaSeparated (primary_formed formed) fuel) fun _ held =>
    .after fun _ => .after fun _ => callRest_formed formed calleeFormed held false

theorem nullSafeMember_formed {object : Expr} (objectFormed : Formed (.expr object)) :
    Yields (fun e => Formed (.expr e)) (nullSafeMember r object) := by
  refine .after fun name => .after fun called => ?_
  have member : Formed (.expr (.get object name.name true)) :=
    formed_expr [object] rfl (by simpa using objectFormed) trivial
  split
  · exact callRest_formed formed member (by simp) true
  · exact .pure member

theorem suffix?_formed {e : Expr} (held : Formed (.expr e)) :
    Yields (fun found => ∀ longer ∈ found, Formed (.expr longer)) (suffix? r e) := by
  refine .after fun next => ?_
  split
  · exact .pure (by simp)
  · rename_i t
    split
    · exact .after fun _ => .bind (callRest_formed formed held (by simp) false) fun _ longer =>
        .pure (by simpa using longer)
    · refine .after fun two => ?_
      split
      · exact .after fun _ => .after fun _ => .bind (genericCall_formed formed held) fun _ longer =>
          .pure (by simpa using longer)
      · exact .pure (by simp)
    · exact .after fun _ => .after fun name => .pure
        (by rintro _ ⟨⟩; exact formed_expr [e] rfl (by simpa using held) trivial)
    · exact .after fun _ => .bind (nullSafeMember_formed formed held) fun _ longer =>
        .pure (by simpa using longer)
    · exact .after fun _ => .after fun name => .pure
        (by rintro _ ⟨⟩; exact formed_expr [e] rfl (by simpa using held) trivial)
    · exact .after fun _ => .bind formed.expression fun position other => .after fun _ => .pure
        (by rintro _ ⟨⟩; exact formed_expr [e, position] rfl (by simpa using ⟨held, other⟩) trivial)
    · exact .pure (by simp)

theorem suffixes_formed {e : Expr} (held : Formed (.expr e)) (fuel : Budget) :
    Yields (fun e => Formed (.expr e)) (suffixes r e fuel) := by
  induction fuel generalizing e with
  | nil => exact .giveUp
  | cons _ fuel ih =>
    refine .bind (suffix?_formed formed held) fun found longer => ?_
    cases found with
    | none => exact .pure held
    | some e => exact ih (longer e rfl)

theorem call_formed : Yields (fun e => Formed (.expr e)) (call r) :=
  .bind (primary_formed formed) fun _ held => .after fun fuel => suffixes_formed formed held fuel

theorem unary_formed : Yields (fun e => Formed (.expr e)) (unary r) := by
  refine .after fun op => ?_
  split
  · exact .bind formed.unary fun operand held =>
      .pure (formed_expr [operand] rfl (by simpa using held) trivial)
  · exact call_formed formed

omit formed in
theorem level_formed {select : TokenKind → Option α} {join : α → Line → Expr → Expr → Expr}
    {operand : Parser Expr} (each : Yields (fun e => Formed (.expr e)) operand)
    (joined : ∀ op line left right, (join op line left right).parts {} =
      [left, right].map fun e => ({}, .expr e))
    (regular : ∀ op line left right, Item.Regular (.expr (join op line left right))) :
    Yields (fun e => Formed (.expr e)) (level select join operand) := by
  have from_left : ∀ (fuel : Budget) (left : Expr), Formed (.expr left) →
      Yields (fun e => Formed (.expr e)) (leftAssociative select join operand left fuel) := by
    intro fuel
    induction fuel with
    | nil => exact fun _ _ => .giveUp
    | cons _ fuel ih =>
      refine fun left leftFormed => .after fun op => ?_
      split
      · exact .bind each fun right held =>
          ih _ (formed_expr [left, right] (joined ..) (by simpa using ⟨leftFormed, held⟩) (regular ..))
      · exact .pure leftFormed
  exact .bind each fun left held => .after fun fuel => from_left fuel left held

theorem disjunction_formed : Yields (fun e => Formed (.expr e)) (disjunction r) := by
  have factors : Yields (fun e => Formed (.expr e)) (factor r) :=
    level_formed (unary_formed formed) (fun _ _ _ _ => rfl) fun _ _ _ _ => trivial
  have terms : Yields (fun e => Formed (.expr e)) (term r) :=
    level_formed factors (fun _ _ _ _ => rfl) fun _ _ _ _ => trivial
  have comparisons : Yields (fun e => Formed (.expr e)) (comparison r) :=
    level_formed terms (fun _ _ _ _ => rfl) fun _ _ _ _ => trivial
  have equalities : Yields (fun e => Formed (.expr e)) (equality r) :=
    level_formed comparisons (fun _ _ _ _ => rfl) fun _ _ _ _ => trivial
  have conjunctions : Yields (fun e => Formed (.expr e)) (conjunction r) :=
    level_formed equalities (fun _ _ _ _ => rfl) fun _ _ _ _ => trivial
  exact level_formed conjunctions (fun _ _ _ _ => rfl) fun _ _ _ _ => trivial

theorem ternary_formed : Yields (fun e => Formed (.expr e)) (ternary r) := by
  refine .bind (disjunction_formed formed) fun condition held => .after fun question => ?_
  split
  · exact .bind formed.expression fun yes yesHeld => .after fun _ =>
      .bind formed.ternary fun no noHeld =>
        .pure (formed_expr [condition, yes, no] rfl (by simpa using ⟨held, yesHeld, noHeld⟩) trivial)
  · exact .pure held

theorem castsFrom_formed {e : Expr} (held : Formed (.expr e)) (fuel : Budget) :
    Yields (fun e => Formed (.expr e)) (castsFrom r e fuel) := by
  induction fuel generalizing e with
  | nil => exact .giveUp
  | cons _ fuel ih =>
    refine .after fun keyword => ?_
    split
    · exact .bind (call_formed formed) fun target other =>
        ih (formed_expr [e, target] rfl (by simpa using ⟨held, other⟩) trivial)
    · exact .pure held

omit formed in
theorem assignTo?_formed {site : AssignSite} {value : Option Expr} {target e : Expr}
    (targetFormed : Formed (.expr target)) (valueFormed : ∀ x ∈ value, Formed (.expr x))
    (assigned : assignTo? site value target = some e) : Formed (.expr e) := by
  unfold assignTo? at assigned
  split at assigned <;> cases assigned
  · have proper : Item.Regular (.expr (.use _)) := targetFormed.regular
    exact formed_expr value.toList rfl (by simpa using valueFormed) proper
  · rename_i object name
    have part : Formed (.expr object) := targetFormed.part (by simp [Item.parts, Expr.parts])
    exact formed_expr (object :: value.toList) rfl (by simpa using ⟨part, valueFormed⟩) trivial
  · rename_i object name
    have part : Formed (.expr object) := targetFormed.part (by simp [Item.parts, Expr.parts])
    exact formed_expr (object :: value.toList) rfl (by simpa using ⟨part, valueFormed⟩) trivial
  · rename_i object line position
    have part : Formed (.expr object) := targetFormed.part (by simp [Item.parts, Expr.parts])
    have other : Formed (.expr position) := targetFormed.part (by simp [Item.parts, Expr.parts])
    exact formed_expr (object :: position :: value.toList) rfl (by simpa using ⟨part, other, valueFormed⟩) trivial

theorem assignment_formed : Yields (fun e => Formed (.expr e)) (assignment r) := by
  have casts : Yields (fun e => Formed (.expr e)) (casts r) :=
    .bind (ternary_formed formed) fun _ held => .after fun fuel => castsFrom_formed formed held fuel
  have value (op : AssignOp) :
      Yields (fun value => ∀ e ∈ value, Formed (.expr e)) (assignedValue r op) := by
    unfold assignedValue
    split
    · exact .bind formed.expression fun _ held => .pure (by simpa using held)
    · exact .pure (by simp)
  refine .bind casts fun target held => .after fun op => ?_
  split
  · refine .bind (value _) fun operand operandHeld => ?_
    split
    · rename_i assigned
      exact .pure (assignTo?_formed held operandHeld assigned)
    · exact .after fun _ => .pure held
  · exact .pure held

omit formed in
def FieldFormed (field : Field) : Prop :=
  (∀ name ∈ (Field.stmt field).boundNames, name.Proper) ∧ ∀ p q, ∀ part ∈ field.parts p q, Formed part.2

theorem varRest_formed {name : Name} (proper : name.Proper) (given : Modifiers)
    (declared : Option TypeDesc) :
    Yields (fun decl => FieldFormed (.var decl)) (varRest r name given declared) := by
  refine .bind (.optional formed.expression _) fun initializer held => .after fun _ =>
    .pure ⟨by
      simpa [Field.stmt, Stmt.boundNames, Stmt.declares?, Stmt.loopNames, Stmt.openedNames] using proper, ?_⟩
  intro p q
  simp only [Field.parts, VarDecl.parts, List.mem_map, Option.mem_toList]
  rintro _ ⟨e, member, rfl⟩
  exact held e member

theorem varDeclaration_formed (given : Modifiers) :
    Yields (fun decl => FieldFormed (.var decl)) (varDeclaration r given) :=
  .bind (identifier_yields _) fun _ proper => varRest_formed formed proper given none

omit formed in
def Accessors.Formed (accessors : Accessors) : Prop :=
  (∀ f ∈ accessors.getter, Scoping.Formed (.function .accessor f)) ∧
    ∀ f ∈ accessors.setter, Scoping.Formed (.function .accessor f)

omit formed in
theorem Accessors.add_formed {accessors : Accessors} {decl : FunctionDecl} (held : accessors.Formed)
    (declFormed : Scoping.Formed (.function .accessor decl)) :
    Yields Accessors.Formed (accessors.add decl) := by
  unfold Accessors.add
  split
  · exact .pure ⟨by simpa using declFormed, held.2⟩
  · exact .pure ⟨held.1, by simpa using declFormed⟩
  · exact .after fun _ => .pure held
  · exact .after fun _ => .pure held
  · exact .after fun _ => .pure held

theorem accessorsFrom_formed (given : Modifiers) {accessors : Accessors} (held : accessors.Formed)
    (fuel : Budget) : Yields Accessors.Formed (accessorsFrom r given accessors fuel) := by
  induction fuel generalizing accessors with
  | nil => exact .giveUp
  | cons _ fuel ih =>
    refine .after fun kind => ?_
    split
    · exact .pure held
    · exact .pure held
    · refine .after fun name => .after fun _ => .bind (block_formed formed) fun body bodyHeld => ?_
      have accessor : Scoping.Formed (.function .accessor (accessorDecl name.name given body)) :=
        FunctionFormed.formed ⟨by simp [accessorDecl, Ordinary], by simpa [accessorDecl] using bodyHeld⟩
      exact .bind (Accessors.add_formed held accessor) fun _ added => ih added

theorem propertyRest_formed {name : Name} (proper : name.Proper) (given : Modifiers)
    (declared : TypeDesc) :
    Yields (fun decl => FieldFormed (.property decl)) (propertyRest r name given declared) := by
  refine .after fun fuel => .bind (accessorsFrom_formed formed given (by simp [Accessors.Formed]) fuel)
    fun accessors held => .after fun _ => ?_
  split
  · rename_i getter found
    refine .pure ⟨by
      simpa [Field.stmt, Stmt.boundNames, Stmt.declares?, Stmt.loopNames, Stmt.openedNames] using proper,
      fun p q => ?_⟩
    simp only [Field.parts, PropertyDecl.parts, List.mem_cons, List.mem_map, Option.mem_toList]
    rintro _ (rfl | ⟨f, member, rfl⟩)
    · exact held.1 getter found
    · exact held.2 f member
  · exact .after fun _ => .giveUp

theorem typedDeclaration_formed (given : Modifiers) (declared : TypeDesc) :
    Yields FieldFormed (typedDeclaration r given declared) := by
  refine .bind (identifier_yields _) fun name proper => .after fun brace => ?_
  split
  · exact .bind (propertyRest_formed formed proper _ _) fun _ held => .pure held
  · exact .bind (varRest_formed formed proper _ _) fun _ held => .pure held

omit formed in
def MemberFormed : Member → Prop
  | .field field => FieldFormed field
  | .method decl => FunctionFormed decl

theorem member_formed (kind : String) : Yields MemberFormed (member r kind) := by
  have ofVar (given : Modifiers) : Yields MemberFormed
      (do return .field (.var (← varDeclaration r given))) :=
    .bind (varDeclaration_formed formed given) fun _ held => .pure held
  refine .after fun given => .after fun method => ?_
  split
  · exact .bind (function_formed formed _ _) fun _ held => .pure held.2
  · refine .after fun var => ?_
    split
    · exact ofVar given
    · refine .after fun written => ?_
      split
      · exact .bind (typedDeclaration_formed formed _ _) fun _ held => .pure held
      · refine .after fun next => ?_
        split
        · exact ofVar given
        · exact .fail _

theorem members_formed (kind : String) :
    Yields (fun items => ∀ item ∈ items, MemberFormed item) (members r kind) :=
  .after fun fuel => .bind (.untilBrace (member_formed formed kind) fuel) fun _ held =>
    .after fun _ => .pure held

omit formed in
theorem fields_formed {items : List Member} (held : ∀ item ∈ items, MemberFormed item) :
    ∀ field ∈ items.filterMap Member.field?, FieldFormed field := by
  simp only [List.mem_filterMap]
  rintro field ⟨item, member, found⟩
  cases item with
  | field decl =>
    cases found
    exact held _ member
  | method decl => cases found

omit formed in
theorem methods_formed {items : List Member} (held : ∀ item ∈ items, MemberFormed item)
    (role : Name → Scoping.FunctionRole) :
    ∀ decl ∈ items.filterMap Member.method?, Formed (.function (role decl.name) decl) := by
  simp only [List.mem_filterMap]
  rintro decl ⟨item, member, found⟩
  cases item with
  | field decl => cases found
  | method decl =>
    cases found
    exact FunctionFormed.formed (held _ member)

theorem classDeclaration_formed :
    Yields (fun decl => Formed (.stmt (.classDecl decl))) (classDeclaration r) := by
  refine .bind (identifier_yields _) fun name proper =>
    .bind (.optional (reference_yields _) _) fun superclass parent =>
    .bind (.optional (.after fun fuel => .commaSeparated (reference_yields _) fuel) _)
    fun interfaces listed => .bind templates_yields fun names templates =>
    .after fun _ => .bind (members_formed formed "class") fun items held => .pure ?_
  refine .intro (regular_declaration rfl rfl rfl proper templates) ?_
  simp only [Item.parts, Stmt.parts, ClassDecl.parts, referenceParts, List.mem_append, List.mem_flatMap,
    List.mem_map]
  rintro q ((⟨ref, member, rfl⟩ | ⟨field, member, found⟩) | ⟨method, member, rfl⟩)
  · refine formed_use ?_
    rcases member with member | member
    · exact parent ref (by simpa using member)
    · cases interfaces with
      | none => simp at member
      | some refs => exact listed refs rfl ref member
  · exact (fields_formed held field member).2 _ _ q found
  · exact methods_formed held _ method member

theorem interfaceDeclaration_formed :
    Yields (fun decl => Formed (.stmt (.interfaceDecl decl))) (interfaceDeclaration r) := by
  refine .bind (identifier_yields _) fun name proper => .after fun _ =>
    .bind (members_formed formed "interface") fun items held => .pure ?_
  refine .intro (regular_declaration rfl rfl rfl proper (by simp [Stmt.openedNames])) ?_
  simp only [Item.parts, Stmt.parts, InterfaceDecl.parts, List.mem_append, List.mem_flatMap, List.mem_map]
  rintro q (⟨field, member, found⟩ | ⟨method, member, rfl⟩)
  · exact (fields_formed held field member).2 _ _ q found
  · exact methods_formed held (fun _ => .method) method member

omit formed in
abbrev BranchFormed (s : Stmt) : Prop :=
  Formed (.stmt s) ∧ s.Plain

omit formed in
theorem branchFormed_simple {s : Stmt} (plain : s.Plain) (simple : s.branches = []) (es : List Expr)
    (same : s.parts {} = es.map fun e => ({}, .expr e)) (held : ∀ e ∈ es, Formed (.expr e))
    (opened : s.openedNames = []) : BranchFormed s := by
  refine ⟨.intro (regular_plain plain (by simp [simple]) (by simp [opened])) ?_, plain⟩
  simp only [Item.parts, same, List.mem_map]
  rintro _ ⟨e, member, rfl⟩
  exact held e member

theorem expressionStatement_formed : Yields BranchFormed (expressionStatement r) :=
  .bind (assignment_formed formed) fun e held => .after fun _ =>
    .pure (branchFormed_simple ⟨rfl, rfl⟩ rfl [e] rfl (by simpa using held) rfl)

theorem ifStatement_formed : Yields BranchFormed (ifStatement r) := by
  refine .bind (parenthesized_formed formed _) fun condition conditionHeld =>
    .bind formed.statement fun yes yesHeld =>
    .bind (.optional formed.statement _) fun no noHeld =>
    .pure ⟨.intro (regular_plain ⟨rfl, rfl⟩ ?_ (by simp [Stmt.openedNames])) ?_, rfl, rfl⟩
  · simp only [Stmt.branches, List.mem_cons, Option.mem_toList]
    rintro s (rfl | member)
    · exact yesHeld.2
    · exact (noHeld s member).2
  · simp only [Item.parts, Stmt.parts, List.mem_cons, List.mem_map, Option.mem_toList]
    rintro _ (rfl | rfl | ⟨s, member, rfl⟩)
    · exact conditionHeld
    · exact yesHeld.1
    · exact (noHeld s member).1

omit formed in
theorem whileLoop_formed {condition : Expr} {body : Stmt} {increment : Option Expr} {names : List Name}
    (conditionHeld : Formed (.expr condition)) (bodyHeld : BranchFormed body)
    (incrementHeld : ∀ e ∈ increment, Formed (.expr e)) (proper : ∀ name ∈ names, name.Proper) :
    Formed (.stmt (.whileLoop condition body increment names)) := by
  refine .intro ⟨by simpa [Stmt.branches] using bodyHeld.2,
    by simpa [Stmt.boundNames, Stmt.declares?, Stmt.loopNames, Stmt.openedNames] using proper⟩ ?_
  simp only [Item.parts, Stmt.parts, List.mem_cons, List.mem_map, Option.mem_toList]
  rintro _ (rfl | rfl | ⟨e, member, rfl⟩)
  · exact conditionHeld
  · exact bodyHeld.1
  · exact incrementHeld e member

theorem whileStatement_formed : Yields BranchFormed (whileStatement r) :=
  .bind (parenthesized_formed formed _) fun _ conditionHeld => .bind formed.statement fun _ bodyHeld =>
    .pure ⟨whileLoop_formed conditionHeld bodyHeld (by simp) (by simp), rfl, rfl⟩

theorem whenStatement_formed : Yields BranchFormed (whenStatement r) := by
  refine .bind (parenthesized_formed formed _) fun condition conditionHeld =>
    .bind formed.statement fun body bodyHeld =>
    .bind (.optional formed.statement _) fun finish finishHeld =>
    .pure ⟨.intro (regular_plain ⟨rfl, rfl⟩ ?_ (by simp [Stmt.openedNames])) ?_, rfl, rfl⟩
  · simp only [Stmt.branches, List.mem_cons, Option.mem_toList]
    rintro s (rfl | member)
    · exact bodyHeld.2
    · exact (finishHeld s member).2
  · simp only [Item.parts, Stmt.parts, List.mem_cons, List.mem_map, Option.mem_toList]
    rintro _ (rfl | rfl | ⟨s, member, rfl⟩)
    · exact conditionHeld
    · exact bodyHeld.1
    · exact (finishHeld s member).1

theorem forInitializer_formed :
    Yields (fun first => ∀ s ∈ first, Formed (.stmt s) ∧ s.loopNames = []) (forInitializer r) := by
  have expression := Yields.some (expressionStatement_formed formed)
  have weaker : Yields (fun first => ∀ s ∈ first, Formed (.stmt s) ∧ s.loopNames = [])
      (some <$> expressionStatement r) :=
    expression.weaken fun _ held s member => ⟨(held s member).1, (held s member).2.2⟩
  refine .after fun kind => ?_
  split
  · exact .after fun _ => .pure (by simp)
  · split
    · exact Yields.some formed.declaration
    · exact weaker
  · exact weaker

theorem forStatement_formed : Yields BranchFormed (forStatement r) := by
  refine .after fun _ => .bind (forInitializer_formed formed) fun first firstHeld =>
    .bind (.unlessNext (Q := fun e => Formed (.expr e)) (by exact formed_atom rfl trivial) formed.expression _)
    fun condition conditionHeld =>
    .after fun _ => .bind (.unlessNext (by simp) (.some formed.expression) _)
    fun increment incrementHeld => .after fun _ => .bind formed.statement fun body bodyHeld => ?_
  have loop {names : List Name} (proper : ∀ name ∈ names, name.Proper) :
      Formed (.stmt (.whileLoop condition body increment names)) :=
    whileLoop_formed conditionHeld bodyHeld incrementHeld proper
  cases first with
  | none => exact .pure ⟨loop (by simp [loopNames]), rfl, rfl⟩
  | some first =>
    obtain ⟨firstFormed, noNames⟩ := firstHeld first rfl
    have proper : ∀ name ∈ loopNames (some first), name.Proper := by
      intro name member
      refine firstFormed.regular.2 name ?_
      cases first with
      | var decl => simpa [Stmt.boundNames, Stmt.declares?, Stmt.loopNames, Stmt.openedNames, loopNames] using member
      | _ => simp [loopNames] at member
    refine .pure ⟨.intro (regular_plain ⟨rfl, rfl⟩ (by simp [Stmt.branches]) (by simp [Stmt.openedNames])) ?_, rfl, rfl⟩
    simp only [Item.parts, Stmt.parts, List.mem_singleton]
    rintro _ rfl
    refine .intro ⟨by simp [noNames], ?_, trivial⟩ (formed_bodyParts ?_ {})
    · intro name member
      cases first with
      | var decl => simpa [Stmt.loopNames, loopNames, Stmt.declares?, eq_comm] using member
      | _ => simp [Stmt.loopNames, loopNames] at member
    · simp only [List.mem_cons, List.not_mem_nil, or_false]
      rintro s (rfl | rfl)
      · exact firstFormed
      · exact loop proper

omit formed in
def Branches.Formed (branches : Branches) : Prop :=
  (∀ x ∈ branches.cases, Scoping.Formed (.expr x.1) ∧ BranchFormed x.2) ∧
    ∀ s ∈ branches.default, BranchFormed s

omit formed in
instance (branches : Branches) (keyword : Name) : Tame (defaultOnce branches keyword) :=
  inferInstanceAs (Tame (if branches.default.isSome then reportAt keyword .defaultDefined else pure ()))

theorem branchesFrom_formed {branches : Branches} (held : branches.Formed) (fuel : Budget) :
    Yields Branches.Formed (branchesFrom r branches fuel) := by
  induction fuel generalizing branches with
  | nil => exact .giveUp
  | cons _ fuel ih =>
    refine .after fun next => ?_
    split
    · exact .pure held
    · split
      · exact .pure held
      · refine .after fun _ => .bind (parenthesized_formed formed _) fun candidate candidateHeld =>
          .bind formed.statement fun body bodyHeld => ih ⟨?_, held.2⟩
        simp only [List.mem_append, List.mem_singleton]
        rintro x (member | rfl)
        · exact held.1 x member
        · exact ⟨candidateHeld, bodyHeld⟩
      · exact .after fun _ => .after fun _ => .bind formed.statement fun body bodyHeld =>
          ih ⟨held.1, by simpa using bodyHeld⟩
      · exact .fail _

theorem switchStatement_formed (line : Line) : Yields BranchFormed (switchStatement r line) := by
  refine .bind (parenthesized_formed formed _) fun value valueHeld => .after fun _ => .after fun fuel =>
    .bind (branchesFrom_formed formed (by simp [Branches.Formed]) fuel) fun branches held =>
    .after fun _ => .pure ⟨.intro (regular_plain ⟨rfl, rfl⟩ ?_ (by simp [Stmt.openedNames])) ?_, rfl, rfl⟩
  · simp only [Stmt.branches, List.mem_append, List.mem_map, Option.mem_toList]
    rintro _ (⟨x, member, rfl⟩ | member)
    · exact (held.1 x member).2.2
    · exact (held.2 _ member).2
  · simp only [Item.parts, Stmt.parts, List.mem_append, List.mem_cons, List.mem_flatMap, List.mem_map,
      Option.mem_toList, List.not_mem_nil, or_false]
    rintro _ ((rfl | ⟨x, member, rfl | rfl⟩) | ⟨s, member, rfl⟩)
    · exact valueHeld
    · exact (held.1 x member).1
    · exact (held.1 x member).2.1
    · exact (held.2 s member).1

theorem tryStatement_formed : Yields BranchFormed (tryStatement r) := by
  have caught : Yields Name.Proper (do
      let name ← require .identifier "error name"
      let _ ← require .rightParen "')' after error name"
      return name.name) :=
    .bind (identifier_yields _) fun _ proper => .after fun _ => .pure proper
  refine .bind formed.statement fun body bodyHeld => .after fun _ =>
    .bind (.optional caught _) fun name proper => .after fun _ =>
    .bind (block_formed formed) fun handler handlerHeld =>
    .pure ⟨.intro (regular_plain ⟨rfl, rfl⟩ ?_ (by simpa [Stmt.openedNames] using proper)) ?_, rfl, rfl⟩
  · simpa [Stmt.branches] using bodyHeld.2
  · simpa [Item.parts, Stmt.parts] using ⟨bodyHeld.1, handlerHeld⟩

theorem testStatement_formed (line : Line) : Yields BranchFormed (testStatement r line) := by
  refine .bind (parenthesized_formed formed _) fun name nameHeld =>
    .bind formed.statement fun body bodyHeld =>
    .pure ⟨.intro (regular_plain ⟨rfl, rfl⟩ ?_ (by simp [Stmt.openedNames])) ?_, rfl, rfl⟩
  · simpa [Stmt.branches] using bodyHeld.2
  · simpa [Item.parts, Stmt.parts] using ⟨nameHeld, bodyHeld.1⟩

theorem returnStatement_formed (line : Line) : Yields BranchFormed (returnStatement r line) :=
  .bind (.unlessNext (by simp) (.some formed.expression) _) fun value held => .after fun _ =>
    .pure (branchFormed_simple ⟨rfl, rfl⟩ rfl value.toList rfl (by simpa using held) rfl)

theorem statement_formed : Yields BranchFormed (statement r) := by
  refine .after fun next => ?_
  split
  · exact expressionStatement_formed formed
  · rename_i t
    split
    · exact .after fun _ => ifStatement_formed formed
    · exact .after fun _ => whileStatement_formed formed
    · exact .after fun _ => forStatement_formed formed
    · exact .after fun _ => whenStatement_formed formed
    · exact .after fun _ => switchStatement_formed formed t.line
    · exact .after fun _ => tryStatement_formed formed
    · exact .after fun _ => testStatement_formed formed t.line
    · exact .after fun _ => .bind formed.expression fun value held => .after fun _ =>
        .pure (branchFormed_simple ⟨rfl, rfl⟩ rfl [value] rfl (by simpa using held) rfl)
    · exact .after fun _ => returnStatement_formed formed t.line
    · exact .after fun _ => .after fun _ =>
        .pure (branchFormed_simple ⟨rfl, rfl⟩ rfl [] rfl (by simp) rfl)
    · exact .after fun _ => .after fun _ =>
        .pure (branchFormed_simple ⟨rfl, rfl⟩ rfl [] rfl (by simp) rfl)
    · exact .after fun _ => .after fun _ => .after fun _ =>
        .pure (branchFormed_simple ⟨rfl, rfl⟩ rfl [] rfl (by simp) rfl)
    · refine .after fun _ => .bind (block_formed formed) fun body held =>
        .pure ⟨.intro (regular_plain ⟨rfl, rfl⟩ ?_ (by simp [Stmt.openedNames])) ?_, rfl, rfl⟩
      · simp [Stmt.branches]
      · simpa [Item.parts, Stmt.parts] using held
    · exact expressionStatement_formed formed

omit formed in
theorem fieldStmt_formed {field : Field} (held : FieldFormed field) :
    Formed (.stmt (Field.stmt field)) ∧ (Field.stmt field).loopNames = [] := by
  cases field with
  | var decl => exact ⟨.intro ⟨by simp [Field.stmt, Stmt.branches], held.1⟩ (held.2 _ {}), rfl⟩
  | property decl => exact ⟨.intro ⟨by simp [Field.stmt, Stmt.branches], held.1⟩ (held.2 {} _), rfl⟩

theorem declaration_formed :
    Yields (fun s => Formed (.stmt s) ∧ s.loopNames = []) (declaration r) := by
  have ofVar (given : Modifiers) : Yields (fun s => Formed (.stmt s) ∧ s.loopNames = [])
      (do return .var (← varDeclaration r given)) :=
    .bind (varDeclaration_formed formed given) fun decl held =>
      .pure (fieldStmt_formed held)
  refine .after fun given => .after fun next => ?_
  split
  · exact .after fun _ => ofVar given
  · refine .after fun _ => .bind (function_formed formed _ _) fun decl held =>
      .pure ⟨.intro (regular_declaration rfl rfl rfl held.1 (by simp [Stmt.openedNames])) ?_, rfl⟩
    simpa [Item.parts, Stmt.parts] using held.2.formed
  · exact .after fun _ => .bind (classDeclaration_formed formed) fun _ held => .pure ⟨held, rfl⟩
  · exact .after fun _ => .bind (interfaceDeclaration_formed formed) fun _ held => .pure ⟨held, rfl⟩
  · refine .after fun _ => .bind (identifier_yields _) fun name proper => .after fun _ =>
      .after fun fuel => .after fun elements => .after fun _ =>
      .pure ⟨.intro (regular_declaration rfl rfl rfl proper (by simp [Stmt.openedNames])) ?_, rfl⟩
    simp [Item.parts, Stmt.parts]
  · refine .after fun written => ?_
    split
    · exact .bind (typedDeclaration_formed formed _ _) fun _ held => .pure (fieldStmt_formed held)
    · split
      · exact (statement_formed formed).weaken fun _ held => ⟨held.1, held.2.2⟩
      · split
        · exact ofVar given
        · exact .fail _

end

theorem skipToFreshStart_subset (tokens : List Token) : skipToFreshStart tokens ⊆ tokens := by
  fun_induction skipToFreshStart tokens with
  | case1 => exact List.Subset.refl _
  | case2 t rest _ => exact List.subset_cons_self ..
  | case3 t _ => exact List.nil_subset _
  | case4 t _ next rest _ => exact List.subset_cons_self ..
  | case5 t _ next rest _ ih => exact List.subset_cons_of_subset t ih

theorem Parser.Yields.recovering {p : Parser α} {Q : α → Prop} (holds : Yields Q p) :
    Yields Q (recovering p) := by
  intro s genuine
  obtain ⟨left, held⟩ := holds s genuine
  unfold Grammar.recovering
  split
  · rename_i found
    rw [found] at left held
    exact ⟨left, held⟩
  · rename_i found
    rw [found] at left
    exact ⟨fun t member => left t (skipToFreshStart_subset _ member), by simp⟩

theorem rules_formed (fuel : Nat) : (rules fuel).Formed := by
  induction fuel with
  | zero => exact ⟨.giveUp, .giveUp, .giveUp, .giveUp, .giveUp, .giveUp⟩
  | succ fuel ih =>
    exact ⟨assignment_formed ih, ternary_formed ih, unary_formed ih, statement_formed ih,
      declaration_formed ih, (declaration_formed ih).recovering⟩

theorem declarationsFrom_formed {r : Rules} (formed : r.Formed) (fuel : Nat) {s : State}
    (genuine : s.Genuine) :
    ∀ first ∈ (declarationsFrom r fuel s).1, Formed (.stmt first) ∧ first.loopNames = [] := by
  induction fuel generalizing s with
  | zero => simp [declarationsFrom]
  | succ fuel ih =>
    obtain ⟨left, held⟩ := (declaration_formed formed).recovering s genuine
    unfold declarationsFrom
    split
    · simp
    · split
      · rename_i first after found
        rw [found] at left held
        simp only [List.mem_cons]
        rintro _ (rfl | member)
        · exact held _ rfl
        · exact ih left _ member
      · rename_i after found
        rw [found] at left
        exact ih left

end Grammar

/-- A parsed program has the form that the grammar gives. -/
theorem parse_formed {source : Tokens} (genuine : ∀ t ∈ source.tokens, t.Genuine) {program : List Stmt}
    (done : parse source = .ok program) :
    ∀ s ∈ program, Scoping.Formed (.stmt s) ∧ s.loopNames = [] := by
  unfold parse at done
  dsimp only at done
  split at done
  · cases done
    exact Grammar.declarationsFrom_formed (Grammar.rules_formed _) _ genuine
  · cases done

end Treewalk
