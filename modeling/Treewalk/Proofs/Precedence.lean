import Treewalk.Proofs.LevelsKept

/-!
The expression parser accepts exactly the trees that respect the table of levels.
-/

namespace Treewalk

open Treewalk.Grammar Treewalk.Grammar.Parser

namespace Grammar

/-- In front of a semicolon a well-levelled tree is read off its tokens. -/
theorem expression_take {e : Expr} {tokens : List Token} {semicolon : Token} {n : Nat}
    (levelled : WellLevelled e) (written : Written e tokens) (ends : semicolon.kind = .semicolon)
    (enough : tokens.length < n) (rest : List Token) :
    Takes (rules n).expression (tokens ++ semicolon :: rest) e (semicolon :: rest) := by
  obtain ⟨n, rfl⟩ : ∃ m, n = m + 1 := ⟨n - 1, by omega⟩
  exact (written_readBack written levelled (by omega)).expression (Level.stops_closing (by rw [ends]; rfl) _ _)

/-- What is read and records nothing is well levelled and written with the tokens taken. -/
theorem expression_kept {e : Expr} {n : Nat} {s later : State} (free : LambdaFree e)
    (done : (rules n).expression s = (some e, later)) (quiet : later.errors = s.errors) :
    WellLevelled e ∧ ∃ tokens, s.rest = tokens ++ later.rest ∧ Written e tokens := by
  rcases (rules_kept n).expression s e later done with more | ⟨-, tokens, taken, fits⟩
  · rw [quiet] at more
    exact absurd more (Nat.lt_irrefl _)
  · obtain ⟨levelled, written, -⟩ := fits free
    exact ⟨levelled, tokens, taken, written⟩

/-- Tokens that start an expression, and no type, start no other statement. -/
theorem expressionStatement_first {n : Nat} {t : Token} {input rest : List Token} {stmt : Stmt}
    (starts : t.kind.startsExpr = true) (untyped : t.kind.isTypeName = false)
    (read : Takes (expressionStatement (rules n)) (t :: input) stmt rest) :
    Takes (declaration (rules n)) (t :: input) stmt rest := by
  have plain : Takes modifiers (t :: input) .none (t :: input) := by
    intro line errors
    have none : modifierOf t.kind = none := by
      revert starts
      cases t.kind <;> decide
    simp [modifiers, modifiersIn, none]
  have statement : Takes (statement (rules n)) (t :: input) stmt rest := by
    refine .bind .peek ?_
    simp only [List.head?_cons]
    split
    all_goals first
      | rename_i kind
        rw [kind] at starts
        cases starts
      | exact read
  refine .bind plain (.bind .peekTwo ?_)
  simp only [List.head?_cons, Option.map_some]
  split
  all_goals first
    | rename_i kind
      obtain ⟨kind, -⟩ := Prod.mk.inj kind
      rw [Option.some.inj kind] at starts
      cases starts
    | skip
  refine .bind (writtenType?_none (by simpa using untyped)) ?_
  simpa using statement

end Grammar

/-- A well-levelled tree that starts with no type is the whole of a program made of its tokens and a
semicolon. -/
theorem parse_expression {e : Expr} {tokens : List Token} {semicolon : Token} (levelled : WellLevelled e)
    (written : Written e tokens) (ends : semicolon.kind = .semicolon) (untyped : e.startsWithType = false)
    (line : Line) : parse ⟨tokens ++ [semicolon], line⟩ = .ok [.expr e] := by
  obtain ⟨t, input, rfl, first⟩ := written.starts
  have back : ReadBack (input.length + 3) e (t :: input) := written_readBack written levelled (by simp)
  have stops : Level.assignment.Stops [semicolon] := Level.stops_closing (by rw [ends]; rfl) _ _
  have read : Takes (expressionStatement (rules (input.length + 3))) (t :: (input ++ [semicolon])) (.expr e) [] :=
    .bind ((back .assignment (Nat.zero_le _)).1 _ stops) (.bind (.require ends) .pure)
  have declared := expressionStatement_first first.starts (first.type.trans untyped) read line []
  have done (fuel : Nat) : declarationsFrom (rules (input.length + 3)) fuel ⟨[], line, []⟩ = ([], ⟨[], line, []⟩) := by
    cases fuel <;> rfl
  have unrolled : (t :: (input ++ [semicolon])).length + 1 = input.length + 3 := by simp
  simp only [parse, List.cons_append, unrolled, declarationsFrom, List.isEmpty_cons, recovering, declared, done,
    List.isEmpty_nil, if_true, Bool.false_eq_true, if_false]

/-- No two well-levelled trees are written with the same tokens. -/
theorem Written.unique {e other : Expr} {tokens : List Token} (levelled : WellLevelled e) (written : Written e tokens)
    (levelled' : WellLevelled other) (written' : Written other tokens) : e = other := by
  have first := expression_take levelled written (mark_kind .semicolon 1) (Nat.lt_succ_self _) [] 1 []
  have second := expression_take levelled' written' (mark_kind .semicolon 1) (Nat.lt_succ_self _) [] 1 []
  exact Option.some.inj (congrArg Prod.fst (first.symm.trans second))

/-- The expression parser accepts exactly the documented grammar. Every well-levelled tree can be written;
in front of a semicolon it is read off whatever tokens it is written with; and whatever is read without a
mistake, and without a lambda in it, is a well-levelled tree written with the tokens that were taken. As a
statement of its own an expression must not start with a type, which would start a declaration. -/
theorem expressions_parse_exactly (e : Expr) :
    (WellLevelled e → ∃ tokens, Written e tokens) ∧
    (∀ tokens rest semicolon line errors n, WellLevelled e → Written e tokens → semicolon.kind = .semicolon →
      tokens.length < n → (rules n).expression ⟨tokens ++ semicolon :: rest, line, errors⟩ =
        (some e, ⟨semicolon :: rest, line, errors⟩)) ∧
    (∀ n s later, LambdaFree e → (rules n).expression s = (some e, later) → later.errors = s.errors →
      WellLevelled e ∧ ∃ tokens, s.rest = tokens ++ later.rest ∧ Written e tokens) ∧
    (∀ tokens semicolon line, WellLevelled e → Written e tokens → semicolon.kind = .semicolon →
      e.startsWithType = false → parse ⟨tokens ++ [semicolon], line⟩ = .ok [.expr e]) := by
  refine ⟨fun levelled => levelled.written, ?_, ?_, ?_⟩
  · intro tokens rest semicolon line errors n levelled written ends enough
    exact expression_take levelled written ends enough rest line errors
  · intro n s later free done quiet
    exact expression_kept free done quiet
  · intro tokens semicolon line levelled written ends untyped
    exact parse_expression levelled written ends untyped line

theorem expressions_parse_exactly_product :
    parse ⟨[⟨.identifier, "a", 1⟩, ⟨.plus, "+", 1⟩, ⟨.identifier, "b", 1⟩, ⟨.star, "*", 2⟩, ⟨.identifier, "c", 2⟩] ++
        [⟨.semicolon, ";", 2⟩], 3⟩ =
      .ok [.expr (.binary (.operator .add) 1 (.use { name := ⟨"a", 1⟩ })
        (.binary (.operator .multiply) 2 (.use { name := ⟨"b", 1⟩ }) (.use { name := ⟨"c", 2⟩ })))] := by
  have name (name : Name) : WellLevelled (.use { name := name }) := .intro ⟨rfl, rfl⟩ (by simp [Expr.operands])
  have product : WellLevelled (.binary (.operator .multiply) 2 (.use { name := ⟨"b", 1⟩ }) (.use { name := ⟨"c", 2⟩ })) :=
    .intro ⟨by decide, by decide⟩ (by simpa [Expr.operands] using ⟨name _, name _⟩)
  have spelled : Written (.binary (.operator .multiply) 2 (.use { name := ⟨"b", 1⟩ }) (.use { name := ⟨"c", 2⟩ }))
      [⟨.identifier, "b", 1⟩, ⟨.star, "*", 2⟩, ⟨.identifier, "c", 2⟩] :=
    .binary (t := ⟨.star, "*", 2⟩) (.use (t := ⟨.identifier, "b", 1⟩) rfl) rfl (.use (t := ⟨.identifier, "c", 2⟩) rfl)
  obtain ⟨-, -, -, parses⟩ := expressions_parse_exactly (.binary (.operator .add) 1 (.use { name := ⟨"a", 1⟩ })
    (.binary (.operator .multiply) 2 (.use { name := ⟨"b", 1⟩ }) (.use { name := ⟨"c", 2⟩ })))
  refine parses _ _ 3 (.intro ⟨by decide, by decide⟩ (by simpa [Expr.operands] using ⟨name _, product⟩)) ?_ rfl rfl
  exact .binary (t := ⟨.plus, "+", 1⟩) (.use (t := ⟨.identifier, "a", 1⟩) rfl) rfl spelled

end Treewalk
