import Treewalk.Proofs.Levels

/-!
What is written is read: in front of tokens that cannot go on with it, a well-levelled tree is read off
its own tokens, with nothing recorded and nothing else taken.
-/

namespace Treewalk.Grammar

open Treewalk.Grammar.Parser

/-- From the tokens `input` the parser reads `a`, leaves `rest` and records nothing. -/
def Takes (p : Parser α) (input : List Token) (a : α) (rest : List Token) : Prop :=
  ∀ line errors, p ⟨input, line, errors⟩ = (some a, ⟨rest, line, errors⟩)

def NextIsnt (kind : TokenKind) (input : List Token) : Prop :=
  ∀ t ∈ input.head?, t.kind ≠ kind

namespace Takes

variable {α β : Type} {input middle rest : List Token} {t : Token} {kind : TokenKind}

theorem pure {a : α} : Takes (Pure.pure a) input a input :=
  fun _ _ => rfl

theorem bind {p : Parser α} {f : α → Parser β} {a : α} {b : β} (first : Takes p input a middle)
    (next : Takes (f a) middle b rest) : Takes (p >>= f) input b rest := by
  intro line errors
  rw [bind_apply, first]
  exact next line errors

theorem peek : Takes Parser.peek input input.head? input :=
  fun _ _ => rfl

theorem peekKind : Takes Parser.peekKind input (input.head?.map Token.kind) input :=
  fun _ _ => rfl

theorem peekTwo :
    Takes Parser.peekTwo input (input.head?.map Token.kind, (input.drop 1).head?.map Token.kind) input :=
  fun _ _ => rfl

theorem skip : Takes Parser.skip (t :: rest) () rest :=
  fun _ _ => rfl

theorem budget : Takes Parser.budget input (default :: input) input :=
  fun _ _ => rfl

theorem acceptMap {select : TokenKind → Option α} {a : α} (found : select t.kind = some a) :
    Takes (Parser.acceptMap select) (t :: rest) (some (a, t)) rest := by
  intro line errors
  simp only [Parser.acceptMap, found]

theorem acceptMap_none {select : TokenKind → Option α} (none : ∀ t ∈ input.head?, select t.kind = none) :
    Takes (Parser.acceptMap select) input Option.none input := by
  intro line errors
  cases input with
  | nil => rfl
  | cons t rest => simp only [Parser.acceptMap, none t rfl]

theorem accept (same : t.kind = kind) : Takes (Parser.accept kind) (t :: rest) (some t) rest := by
  intro line errors
  simp only [Parser.accept, same, if_true]

theorem accept_none (other : NextIsnt kind input) : Takes (Parser.accept kind) input none input := by
  intro line errors
  cases input with
  | nil => rfl
  | cons t rest => simp only [Parser.accept, other t rfl, if_false]

theorem accepts (same : t.kind = kind) : Takes (Parser.accepts kind) (t :: rest) true rest :=
  bind (accept same) pure

theorem accepts_none (other : NextIsnt kind input) : Takes (Parser.accepts kind) input false input :=
  bind (accept_none other) pure

theorem require {what : String} (same : t.kind = kind) : Takes (Parser.require kind what) (t :: rest) t rest :=
  bind (accept same) pure

theorem unlessNext {p : Parser α} {otherwise a : α} (other : NextIsnt kind input) (next : Takes p input a rest) :
    Takes (Parser.unlessNext kind otherwise p) input a rest := by
  refine bind peekKind ?_
  rw [if_neg]
  · exact next
  · cases input with
    | nil => simp
    | cons t rest => simpa using other t rfl

theorem unlessNext_next {p : Parser α} {otherwise : α} (same : t.kind = kind) :
    Takes (Parser.unlessNext kind otherwise p) (t :: rest) otherwise (t :: rest) := by
  refine bind peekKind ?_
  rw [if_pos (by simp [same])]
  exact pure

theorem commaSeparated {item : Parser α} {parts : List (α × List Token)} {tokens : List Token}
    (joined : Commas (parts.map Prod.snd) tokens) (some : parts ≠ [])
    (each : ∀ part ∈ parts, ∀ after, (after = rest ∨ ∃ comma more, comma.kind = .comma ∧ after = comma :: more) →
      Takes item (part.2 ++ after) part.1 after)
    (last : NextIsnt .comma rest) {fuel : Budget} (enough : tokens.length < fuel.length) :
    Takes (Parser.commaSeparated item fuel) (tokens ++ rest) (parts.map Prod.fst) rest := by
  induction parts generalizing tokens fuel with
  | nil => exact absurd rfl some
  | cons part parts ih =>
    cases fuel with
    | nil => simp at enough
    | cons mark fuel =>
      cases parts with
      | nil =>
        cases joined with
        | one =>
          refine bind (each part (by simp) rest (.inl rfl)) (bind (accepts_none last) ?_)
          exact pure
      | cons second parts =>
        cases joined with
        | @more _ _ others _ comma kind joined =>
          rw [List.append_assoc, List.cons_append]
          refine bind (each part (by simp) _ (.inr ⟨comma, _, kind, rfl⟩)) (bind (accepts kind) ?_)
          refine bind (ih joined (by simp) (fun part member => each part (by simp [member])) ?_) pure
          simp only [List.length_append, List.length_cons] at enough
          omega

theorem commaSeparatedLimited {item : Parser α} {what : String} {parts : List (α × List Token)} {tokens : List Token}
    (joined : Commas (parts.map Prod.snd) tokens) (some : parts ≠ [])
    (each : ∀ part ∈ parts, ∀ after, (after = rest ∨ ∃ comma more, comma.kind = .comma ∧ after = comma :: more) →
      Takes item (part.2 ++ after) part.1 after)
    (last : NextIsnt .comma rest) {count : Nat} (few : count + parts.length ≤ 255) {fuel : Budget}
    (enough : tokens.length < fuel.length) :
    Takes (Parser.commaSeparatedLimited item what count fuel) (tokens ++ rest) (parts.map Prod.fst) rest := by
  induction parts generalizing tokens fuel count with
  | nil => exact absurd rfl some
  | cons part parts ih =>
    have quiet : ∀ {input}, Takes (reportIf (255 ≤ count) (.tooMany what)) input () input := by
      simp only [List.length_cons] at few
      rw [reportIf, if_neg (by rw [decide_eq_true_eq]; omega)]
      exact pure
    cases fuel with
    | nil => simp at enough
    | cons mark fuel =>
      cases parts with
      | nil =>
        cases joined with
        | one =>
          exact bind quiet (bind (each part (by simp) rest (.inl rfl)) (bind (accepts_none last) pure))
      | cons second parts =>
        cases joined with
        | @more _ _ others _ comma kind joined =>
          rw [List.append_assoc, List.cons_append]
          refine bind quiet (bind (each part (by simp) _ (.inr ⟨comma, _, kind, rfl⟩)) (bind (accepts kind) ?_))
          refine bind (ih joined (by simp) (fun part member => each part (by simp [member])) ?_ ?_) pure
          · simp only [List.length_cons] at few ⊢
            omega
          · simp only [List.length_append, List.length_cons] at enough
            omega

end Takes

def bracketsNext : List Token → Bool
  | first :: second :: _ => first.kind = .leftBracket && second.kind = .rightBracket
  | _ => false

theorem dimensions_take {desc : TypeDesc} {count : Nat} {pairs rest : List Token}
    (brackets : BracketPairs count pairs) (stop : bracketsNext rest = false) :
    Takes (dimensions desc) (pairs ++ rest) (desc.arrayOfAt count) rest := by
  have found : dimensionsIn desc (pairs ++ rest) = (desc.arrayOfAt count, rest) := by
    induction brackets generalizing desc with
    | zero =>
      match rest, stop with
      | [], _ => rfl
      | [_], _ => rfl
      | first :: second :: rest, stop =>
        have other : ¬(first.kind = .leftBracket ∧ second.kind = .rightBracket) := by
          simpa [bracketsNext] using stop
        simp only [List.nil_append, dimensionsIn, if_neg other]
        rfl
    | succ opens closes _ ih =>
      simp only [List.cons_append, dimensionsIn, opens, closes, and_self, if_true]
      exact ih
  intro line errors
  simp only [dimensions, found]

theorem plainType?_start {inner : Name → Parser (TypeDesc × Modifiers)} {t : Token}
    {written : TypeDesc × Modifiers} (keyword : t.kind.plainType? = some written) (input : List Token) :
    Takes (typeStart inner t) input written input := by
  unfold typeStart
  revert keyword
  cases t.kind <;> intro keyword <;> cases keyword <;> exact .pure

theorem paramTypes_take {inner : Name → Parser (TypeDesc × Modifiers)}
    {parts : List ((TypeDesc × Modifiers) × List Token)} {tokens rest : List Token}
    (joined : Commas (parts.map Prod.snd) tokens) (some : parts ≠ [])
    (each : ∀ part ∈ parts, ∀ name after, bracketsNext after = false →
      Takes (inner name) (part.2 ++ after) part.1 after)
    (last : NextIsnt .comma rest) (stop : bracketsNext rest = false) {fuel : Budget}
    (enough : tokens.length < fuel.length) (before : Name) :
    Takes (functionType.paramTypes inner before fuel) (tokens ++ rest) (parts.map fun part => part.1.1) rest := by
  induction parts generalizing tokens fuel before with
  | nil => exact absurd rfl some
  | cons part parts ih =>
    cases fuel with
    | nil => simp at enough
    | cons mark fuel =>
      cases parts with
      | nil =>
        cases joined with
        | one => exact .bind (each part (by simp) before rest stop) (.bind (.accept_none last) .pure)
      | cons second parts =>
        cases joined with
        | @more _ _ others _ comma kind joined =>
          rw [List.append_assoc, List.cons_append]
          have between : bracketsNext (comma :: (others ++ rest)) = false := by
            cases others ++ rest <;> simp [bracketsNext, kind]
          refine .bind (each part (by simp) before _ between) (.bind (.accept kind) ?_)
          refine .bind (ih joined (by simp) (fun part member => each part (by simp [member])) ?_ _) .pure
          simp only [List.length_append, List.length_cons] at enough
          omega

theorem bracketsNext_kind {t : Token} (kind : t.kind ≠ .leftBracket) (rest : List Token) :
    bracketsNext (t :: rest) = false := by
  cases rest <;> simp [bracketsNext, kind]

theorem nextIsnt_cons {kind : TokenKind} {t : Token} {rest : List Token} (other : t.kind ≠ kind) :
    NextIsnt kind (t :: rest) := by
  simpa [NextIsnt] using other

theorem typeStart_object {inner : Name → Parser (TypeDesc × Modifiers)} {t name : Token}
    (keyword : t.kind = .typeObj) (named : name.kind = .identifier) (rest : List Token) :
    Takes (typeStart inner t) (name :: rest) (.object name.lexeme, .none) rest := by
  simp only [typeStart, keyword]
  refine .bind (.accepts_none (nextIsnt_cons (by simp [named]))) ?_
  exact .bind (.require named) .pure

theorem typeAfter_take {written : TypeDesc × Modifiers} {tokens : List Token}
    (spelled : TypeWritten written tokens) {fuel : Budget} (enough : tokens.length ≤ fuel.length)
    (before : Name) {rest : List Token} (stop : bracketsNext rest = false) :
    Takes (typeAfter fuel before) (tokens ++ rest) written rest := by
  induction spelled generalizing fuel before rest with
  | plain keyword brackets =>
    cases fuel with
    | nil => simp at enough
    | cons mark fuel =>
      refine .bind .peek (.bind .skip (.bind (plainType?_start keyword _) ?_))
      exact .bind (dimensions_take brackets stop) .pure
  | object keyword named brackets =>
    cases fuel with
    | nil => simp at enough
    | cons mark fuel =>
      refine .bind .peek (.bind .skip (.bind (typeStart_object keyword named _) ?_))
      exact .bind (dimensions_take brackets stop) .pure
  | @function t keyword left right colon parts params result returns object function opens starts joined closes
      between _ each last =>
    cases fuel with
    | nil => simp at enough
    | cons mark fuel =>
      simp only [List.length_cons, List.length_append] at enough
      have item : ∀ part ∈ parts, ∀ name after, bracketsNext after = false →
          Takes (typeAfter fuel name) (part.2 ++ after) part.1 after := by
        intro part member name after ends
        have shorter := joined.length_le part.2 (List.mem_map_of_mem member)
        exact each part member (by omega) name ends
      have signature : Takes (functionType (typeAfter fuel))
          (left :: (params ++ right :: colon :: (result ++ rest)))
          (.function (parts.map fun part => part.1.1) returns.1) rest := by
        have tail : ∀ ps, Takes (do
            let _ ← require .rightParen "')' after parameter types"
            let colon ← require .colon "':' before return type"
            let returns ← typeAfter fuel colon.name
            return TypeDesc.function ps returns.1) (right :: colon :: (result ++ rest)) (.function ps returns.1) rest :=
          fun ps => .bind (.require closes) (.bind (.require between) (.bind (last (by omega) _ stop) .pure))
        refine .bind (.require opens) (.bind .peekKind ?_)
        cases parts with
        | nil =>
          cases joined
          simp only [List.nil_append, List.head?_cons, Option.map_some, closes]
          exact tail []
        | cons part parts =>
          obtain ⟨t, more, first, type⟩ := (starts part (by simp)).starts
          obtain ⟨others, rfl⟩ := joined.starts
          have params : Takes (functionType.paramTypes (typeAfter fuel) left.name
              (default :: (part.2 ++ others ++ right :: colon :: (result ++ rest))))
              (part.2 ++ others ++ right :: colon :: (result ++ rest)) ((part :: parts).map fun part => part.1.1)
              (right :: colon :: (result ++ rest)) := by
            refine paramTypes_take joined (by simp) item (nextIsnt_cons (by simp [closes]))
              (bracketsNext_kind (by simp [closes]) _) ?_ _
            simp only [List.length_cons, List.length_append]
            omega
          simp only [first, List.cons_append, List.head?_cons, Option.map_some] at params ⊢
          split
          · rename_i closing
            rw [Option.some.inj closing] at type
            cases type
          · exact .bind .budget (.bind params (tail _))
      have start : Takes (typeStart (typeAfter fuel) t)
          (keyword :: left :: (params ++ right :: colon :: (result ++ rest)))
          (.function (parts.map fun part => part.1.1) returns.1, .none) rest := by
        simp only [typeStart, object]
        exact .bind (.accepts function) (.bind signature .pure)
      simp only [List.cons_append, List.append_assoc]
      exact .bind .peek (.bind .skip (.bind start (.bind (dimensions_take .zero stop) .pure)))

theorem writtenType?_take {written : TypeDesc × Modifiers} {tokens rest : List Token}
    (spelled : TypeWritten written tokens) (stop : bracketsNext rest = false) :
    Takes writtenType? (tokens ++ rest) (some written) rest := by
  obtain ⟨t, more, rfl, type⟩ := spelled.starts
  refine .bind .peek ?_
  simp only [List.cons_append, List.head?_cons, type, if_true]
  refine .bind (.bind .budget (typeAfter_take spelled ?_ t.name stop)) .pure
  simp only [List.length_cons, List.length_append]
  omega

theorem writtenType?_none {input : List Token} (other : ∀ t ∈ input.head?, t.kind.isTypeName = false) :
    Takes writtenType? input none input := by
  refine .bind .peek ?_
  cases input with
  | nil => exact .pure
  | cons t rest =>
    simp only [List.head?_cons, other t rfl]
    exact .pure

def suffixNext : List Token → Bool
  | [] => false
  | t :: rest =>
    match t.kind with
    | .leftParen | .dot | .questionDot | .colonColon | .leftBracket => true
    | .colon => rest.head?.map Token.kind = some .less
    | _ => false

end Treewalk.Grammar

namespace Treewalk.Level

open Treewalk.Grammar Treewalk.Grammar.Parser

/-- Whether a level goes on with these tokens after what it has read. -/
def takes : Level → List Token → Bool
  | primary, input => bracketsNext input
  | call, input => suffixNext input
  | unary, _ => false
  | factor, input => input.head?.any fun t => (factorOp t.kind).isSome
  | term, input => input.head?.any fun t => (termOp t.kind).isSome
  | comparison, input => input.head?.any fun t => (comparisonOp t.kind).isSome
  | equality, input => input.head?.any fun t => (equalityOp t.kind).isSome
  | conjunction, input => input.head?.any fun t => (andOp t.kind).isSome
  | disjunction, input => input.head?.any fun t => (orOp t.kind).isSome
  | ternary, input => input.head?.any fun t => t.kind = .question
  | cast, input => input.head?.any fun t => t.kind = .kwAs
  | assignment, input => input.head?.any fun t => (assignOp t.kind).isSome

/-- An expression of the level ends where these tokens follow. -/
def Stops (k : Level) (input : List Token) : Prop :=
  ∀ j, k ≤ j → j.takes input = false

def tighter : Level → Level
  | assignment => cast
  | cast => ternary
  | ternary => disjunction
  | disjunction => conjunction
  | conjunction => equality
  | equality => comparison
  | comparison => term
  | term => factor
  | factor => unary
  | unary => call
  | call | primary => primary

def parser (r : Rules) : Level → Parser Expr
  | assignment => Grammar.assignment r
  | cast => casts r
  | ternary => Grammar.ternary r
  | disjunction => Grammar.disjunction r
  | conjunction => Grammar.conjunction r
  | equality => Grammar.equality r
  | comparison => Grammar.comparison r
  | term => Grammar.term r
  | factor => Grammar.factor r
  | unary => Grammar.unary r
  | call => Grammar.call r
  | primary => Grammar.primary r

/-- Whether a level reads an operand of the next tighter level and goes on from there as often as it can. -/
def loops : Level → Bool
  | assignment | ternary | unary | primary => false
  | _ => true

def loop (r : Rules) : Level → Expr → Budget → Parser Expr
  | cast => castsFrom r
  | disjunction => leftAssociative orOp .logical (Grammar.conjunction r)
  | conjunction => leftAssociative andOp .logical (Grammar.equality r)
  | equality => leftAssociative equalityOp .binary (Grammar.comparison r)
  | comparison => leftAssociative comparisonOp .binary (Grammar.term r)
  | term => leftAssociative termOp .binary (Grammar.factor r)
  | factor => leftAssociative factorOp .binary (Grammar.unary r)
  | call => suffixes r
  | assignment | ternary | unary | primary => fun e _ => pure e

theorem parser_loops (r : Rules) {k : Level} (loops : k.loops = true) :
    k.parser r = (do
      let e ← k.tighter.parser r
      k.loop r e (← budget)) := by
  cases k <;> first | rfl | cases loops

theorem tighter_rank {k : Level} (loose : k.rank < Level.primary.rank) : k.tighter.rank = k.rank + 1 := by
  cases k <;> first | rfl | simp [rank] at loose

theorem tighter_le {j k : Level} (less : j < k) : j.tighter ≤ k := by
  revert less
  cases j <;> cases k <;> decide

theorem lt_of_tighter {j k : Level} (loose : ¬.call ≤ k) (tight : k.tighter ≤ j) : k < j := by
  revert loose tight
  cases k <;> cases j <;> decide

theorem rank_injective {j k : Level} (same : j.rank = k.rank) : j = k := by
  revert same
  cases j <;> cases k <;> decide

theorem Stops.mono {j k : Level} {input : List Token} (stops : k.Stops input) (tighter : k ≤ j) : j.Stops input :=
  fun l looser => stops l (Nat.le_trans tighter looser)

theorem Stops.tighter {k : Level} {input : List Token} (stops : k.Stops input) : k.tighter.Stops input := by
  refine stops.mono ?_
  cases k <;> decide

/-- Where a level ends, the next token is no opening parenthesis, unless it is the tightest level. -/
theorem Stops.nextIsnt_leftParen {k : Level} {input : List Token} (stops : k.Stops input) (loose : k ≤ .call) :
    NextIsnt .leftParen input := by
  have suffix := stops .call loose
  cases input with
  | nil => simp [NextIsnt]
  | cons t rest =>
    refine nextIsnt_cons fun paren => ?_
    simp [takes, suffixNext, paren] at suffix

/-- Whether a level may go on with a token of this kind, whatever follows it. -/
def mayTake : Level → TokenKind → Bool
  | primary, kind => kind = .leftBracket
  | call, kind =>
    match kind with
    | .leftParen | .dot | .questionDot | .colonColon | .leftBracket | .colon => true
    | _ => false
  | unary, _ => false
  | factor, kind => (factorOp kind).isSome
  | term, kind => (termOp kind).isSome
  | comparison, kind => (comparisonOp kind).isSome
  | equality, kind => (equalityOp kind).isSome
  | conjunction, kind => (andOp kind).isSome
  | disjunction, kind => (orOp kind).isSome
  | ternary, kind => kind = .question
  | cast, kind => kind = .kwAs
  | assignment, kind => (assignOp kind).isSome

theorem takes_kind {j : Level} {t : Token} (none : j.mayTake t.kind = false) (rest : List Token) :
    j.takes (t :: rest) = false := by
  cases j with
  | primary => exact bracketsNext_kind (by simpa [mayTake] using none) rest
  | call =>
    simp only [takes, suffixNext]
    revert none
    cases t.kind <;> simp [mayTake]
  | unary => rfl
  | _ => simpa [takes, mayTake] using none

theorem stops_kind {k : Level} {kind : TokenKind} (none : ∀ j, k ≤ j → j.mayTake kind = false) {t : Token}
    (same : t.kind = kind) (rest : List Token) : k.Stops (t :: rest) :=
  fun j looser => takes_kind (same ▸ none j looser) rest

/-- A colon ends an expression unless the angle of generic arguments follows. -/
theorem stops_colon {t : Token} (same : t.kind = .colon) {rest : List Token} (other : NextIsnt .less rest)
    (k : Level) : k.Stops (t :: rest) := by
  intro j _
  by_cases suffix : j = .call
  · subst suffix
    simp only [takes, suffixNext, same]
    cases rest with
    | nil => rfl
    | cons u rest => simpa using other u rfl
  · refine takes_kind ?_ rest
    rw [same]
    revert suffix
    cases j <;> decide

def closes : TokenKind → Bool
  | .semicolon | .comma | .rightParen | .rightBracket => true
  | _ => false

theorem stops_closing {t : Token} (closing : closes t.kind = true) (k : Level) (rest : List Token) :
    k.Stops (t :: rest) := by
  intro j _
  refine takes_kind ?_ rest
  revert closing
  cases t.kind <;> cases j <;> decide

theorem stops_binary {op : BinaryOp} {t : Token} (sign : t.kind = op.kind) (rest : List Token) :
    op.level.tighter.Stops (t :: rest) := by
  refine stops_kind (fun j => ?_) sign rest
  rcases op with op | _ | _
  · cases op <;> cases j <;> decide
  · cases j <;> decide
  · cases j <;> decide

theorem stops_logical {op : LogicalOp} {t : Token} (sign : t.kind = op.kind) (rest : List Token) :
    op.level.tighter.Stops (t :: rest) := by
  refine stops_kind (fun j => ?_) sign rest
  cases op <;> cases j <;> decide

end Treewalk.Level

namespace Treewalk.Grammar

open Treewalk.Grammar.Parser

/-- An expression of a level is read off its tokens, in front of tokens at which the level ends. -/
def Reads (n : Nat) (k : Level) (e : Expr) (tokens : List Token) : Prop :=
  ∀ rest, k.Stops rest → Takes (k.parser (rules n)) (tokens ++ rest) e rest

/-- To read the tokens of an expression is to go on from the expression, whatever comes of that. -/
def Feeds (n : Nat) (k : Level) (e : Expr) (tokens : List Token) : Prop :=
  ∀ middle a rest, k.tighter.Stops middle → (e.isSafeGet = true → NextIsnt .leftParen middle) →
    (∀ fuel, middle.length < fuel.length → Takes (k.loop (rules n) e fuel) middle a rest) →
    Takes (k.parser (rules n)) (tokens ++ middle) a rest

theorem leftAssociative_stop {select : TokenKind → Option α} {join : α → Line → Expr → Expr → Expr}
    {operand : Parser Expr} {e : Expr} {input : List Token} {fuel : Budget} (enough : 0 < fuel.length)
    (stop : (input.head?.any fun t => (select t.kind).isSome) = false) :
    Takes (leftAssociative select join operand e fuel) input e input := by
  cases fuel with
  | nil => simp at enough
  | cons mark fuel =>
    refine .bind (.acceptMap_none fun t first => ?_) .pure
    rw [Option.mem_def.mp first] at stop
    simpa using stop

theorem suffix?_none {r : Rules} {e : Expr} {input : List Token} (stop : suffixNext input = false) :
    Takes (suffix? r e) input none input := by
  refine .bind .peek ?_
  cases input with
  | nil => exact .pure
  | cons t rest =>
    simp only [suffixNext] at stop
    simp only [List.head?_cons]
    split
    · simp [*] at stop
    · rename_i colon
      refine .bind .peekTwo ?_
      simp only [colon, decide_eq_false_iff_not] at stop
      split
      · rename_i less
        exact absurd (congrArg Prod.snd less) stop
      · exact .pure
    all_goals first | simp [*] at stop; done | exact .pure

theorem loop_stop (r : Rules) {k : Level} {e : Expr} {input : List Token} {fuel : Budget}
    (enough : 0 < fuel.length) (stop : k.takes input = false) : Takes (k.loop r e fuel) input e input := by
  cases k with
  | call =>
    cases fuel with
    | nil => simp at enough
    | cons mark fuel => exact .bind (suffix?_none stop) .pure
  | cast =>
    cases fuel with
    | nil => simp at enough
    | cons mark fuel =>
      refine .bind (.accept_none fun t first => ?_) .pure
      simpa [Level.takes, Option.mem_def.mp first] using stop
  | assignment => exact .pure
  | ternary => exact .pure
  | unary => exact .pure
  | primary => exact .pure
  | _ => exact leftAssociative_stop enough stop

theorem Reads.feeds {n : Nat} {k : Level} {e : Expr} {tokens : List Token} (loops : k.loops = true)
    (reads : Reads n k.tighter e tokens) : Feeds n k e tokens := by
  intro middle a rest stops _ goesOn
  rw [k.parser_loops _ loops]
  exact .bind (reads middle stops) (.bind .budget (goesOn _ (by simp)))

theorem Feeds.reads {n : Nat} {k : Level} {e : Expr} {tokens : List Token} (loops : k.loops = true)
    (feeds : Feeds n k e tokens) : Reads n k e tokens := by
  intro rest stops
  have loose : k ≤ .call := by
    revert loops
    cases k <;> decide
  exact feeds rest e rest stops.tighter (fun _ => stops.nextIsnt_leftParen loose)
    fun fuel enough => loop_stop _ (by omega) (stops k (Nat.le_refl _))

def Unsigned (tokens : List Token) : Prop :=
  ∃ t rest, tokens = t :: rest ∧ unaryOp t.kind = none

theorem Reads.down {n : Nat} {k : Level} {e : Expr} {tokens : List Token} (loops : k.loops = false)
    (unsigned : k = .unary → Unsigned tokens) (reads : Reads n k.tighter e tokens) : Reads n k e tokens := by
  intro rest stops
  have read := reads rest stops.tighter
  have none := stops k (Nat.le_refl _)
  cases k with
  | assignment =>
    refine .bind read (.bind (.acceptMap_none fun t first => ?_) .pure)
    simpa [Level.takes, Option.mem_def.mp first] using none
  | ternary =>
    refine .bind read (.bind (.accept_none fun t first => ?_) .pure)
    simpa [Level.takes, Option.mem_def.mp first] using none
  | unary =>
    obtain ⟨t, more, rfl, plain⟩ := unsigned rfl
    exact .bind (.acceptMap_none (by simpa using plain)) read
  | primary => exact read
  | _ => cases loops

/-- An expression is read at its own level and at every looser one. -/
def ReadBack (n : Nat) (e : Expr) (tokens : List Token) : Prop :=
  ∀ k, k ≤ e.level → Reads n k e tokens ∧ (k.loops = true → Feeds n k e tokens)

theorem ReadBack.of_own {n : Nat} {e : Expr} {tokens : List Token}
    (unsigned : .call ≤ e.level → Unsigned tokens)
    (own : Reads n e.level e tokens ∧ (e.level.loops = true → Feeds n e.level e tokens)) : ReadBack n e tokens := by
  have down : ∀ distance k, k.rank + distance = e.level.rank →
      Reads n k e tokens ∧ (k.loops = true → Feeds n k e tokens) := by
    intro distance
    induction distance with
    | zero =>
      intro k same
      obtain rfl : k = e.level := Level.rank_injective same
      exact own
    | succ distance ih =>
      intro k same
      have bound : e.level.rank ≤ Level.primary.rank := by
        cases e.level <;> decide
      have next := ih k.tighter (by rw [Level.tighter_rank (by omega)]; omega)
      cases loops : k.loops with
      | true => exact ⟨(next.1.feeds loops).reads loops, fun _ => next.1.feeds loops⟩
      | false =>
        refine ⟨next.1.down loops fun sign => unsigned ?_, fun impossible => by cases impossible⟩
        subst sign
        show Level.call.rank ≤ _
        simp only [Level.rank] at same ⊢
        omega
  exact fun k looser => down (e.level.rank - k.rank) k (Nat.add_sub_of_le looser)

theorem ReadBack.expression {n : Nat} {e : Expr} {tokens rest : List Token} (read : ReadBack n e tokens)
    (stops : Level.assignment.Stops rest) : Takes (rules (n + 1)).expression (tokens ++ rest) e rest :=
  (read .assignment (Nat.zero_le _)).1 rest stops

theorem parenthesized_take {n : Nat} {keyword : String} {e : Expr} {tokens rest : List Token} {left right : Token}
    (opens : left.kind = .leftParen) (read : ReadBack n e tokens) (closes : right.kind = .rightParen) :
    Takes (parenthesized (rules (n + 1)) keyword) (left :: (tokens ++ right :: rest)) e rest :=
  .bind (.require opens) (.bind (read.expression (Level.stops_closing (by rw [closes]; rfl) _ _))
    (.bind (.require closes) .pure))

/-- Each expression of a list is read in front of a comma or of the token that closes the list. -/
theorem items_take {n : Nat} {parts : List (Expr × List Token)} (each : ∀ part ∈ parts, ReadBack n part.1 part.2)
    {right : Token} (closes : Level.closes right.kind = true) {rest : List Token} :
    ∀ part ∈ parts, ∀ after,
      (after = right :: rest ∨ ∃ comma more, comma.kind = .comma ∧ after = comma :: more) →
      Takes (rules (n + 1)).expression (part.2 ++ after) part.1 after := by
  rintro part member after (rfl | ⟨comma, more, kind, rfl⟩)
  · exact (each part member).expression (Level.stops_closing closes _ _)
  · exact (each part member).expression (Level.stops_closing (by rw [kind]; rfl) _ _)

theorem items_open {parts : List (Expr × List Token)} {tokens : List Token}
    (written : ∀ part ∈ parts, Written part.1 part.2) (joined : Commas (parts.map Prod.snd) tokens)
    (some : parts ≠ []) {kind : TokenKind} (closing : kind.startsExpr = false) (rest : List Token) :
    NextIsnt kind (tokens ++ rest) := by
  cases parts with
  | nil => exact absurd rfl some
  | cons part parts =>
    obtain ⟨t, more, first, starts⟩ := (written part (by simp)).starts
    obtain ⟨others, rfl⟩ := joined.starts
    rw [first]
    refine nextIsnt_cons fun same => ?_
    have contradiction := starts.starts
    rw [same, closing] at contradiction
    cases contradiction

theorem elements_take {n : Nat} {parts : List (Expr × List Token)} {tokens : List Token}
    (written : ∀ part ∈ parts, Written part.1 part.2) (each : ∀ part ∈ parts, ReadBack n part.1 part.2)
    (joined : Commas (parts.map Prod.snd) tokens) {right : Token} (closes : right.kind = .rightBracket)
    (rest : List Token) :
    Takes (arrayLiteral.elements (rules (n + 1))) (tokens ++ right :: rest) (parts.map Prod.fst) rest := by
  refine .bind (?_ : Takes _ _ (parts.map Prod.fst) (right :: rest)) (.bind (.require closes) .pure)
  by_cases some : parts = []
  · subst some
    cases joined
    exact .unlessNext_next closes
  · refine .unlessNext (items_open written joined some rfl _) (.bind .budget ?_)
    exact .commaSeparated joined some (items_take each (by rw [closes]; rfl))
      (nextIsnt_cons (by simp [closes])) (by simp only [List.length_cons, List.length_append]; omega)

theorem callRest_take {n : Nat} {parts : List (Expr × List Token)} {tokens : List Token}
    (written : ∀ part ∈ parts, Written part.1 part.2) (each : ∀ part ∈ parts, ReadBack n part.1 part.2)
    (joined : Commas (parts.map Prod.snd) tokens) (few : parts.length ≤ 255) {right : Token}
    (closes : right.kind = .rightParen) (callee : Expr) (generics : List Expr) (nullSafe : Bool)
    (rest : List Token) :
    Takes (callRest (rules (n + 1)) callee generics nullSafe) (tokens ++ right :: rest)
      (.call callee right.line (parts.map Prod.fst) generics nullSafe) rest := by
  refine .bind (?_ : Takes _ _ (parts.map Prod.fst) (right :: rest)) (.bind (.require closes) .pure)
  by_cases some : parts = []
  · subst some
    cases joined
    exact .unlessNext_next closes
  · refine .unlessNext (items_open written joined some rfl _) (.bind .budget ?_)
    exact .commaSeparatedLimited joined some (items_take each (by rw [closes]; rfl))
      (nextIsnt_cons (by simp [closes])) (by omega) (by simp only [List.length_cons, List.length_append]; omega)

theorem primary_type {r : Rules} {t : Token} {input rest : List Token} {desc : TypeDesc} {range : Modifiers}
    (type : t.kind.isTypeName = true) (read : Takes writtenType? (t :: input) (some (desc, range)) rest) :
    Takes (primary r) (t :: input) (.type t.line desc) rest := by
  refine .bind .peek ?_
  simp only [List.head?_cons]
  split
  all_goals first
    | exact .bind read .pure
    | rename_i kind
      rw [kind] at type
      cases type

/-- What a level reads and then goes on from feeds what it comes to. -/
theorem Feeds.step {n : Nat} {k : Level} {left e : Expr} {before suffix : List Token} (loops : k.loops = true)
    (first : ReadBack n left before) (loose : k ≤ left.level) (filled : suffix ≠ [])
    (stops : ∀ middle, k.tighter.Stops (suffix ++ middle))
    (safe : ∀ middle, left.isSafeGet = true → NextIsnt .leftParen (suffix ++ middle))
    (step : ∀ middle fuel mark a rest, k.tighter.Stops middle → (e.isSafeGet = true → NextIsnt .leftParen middle) →
      Takes (k.loop (rules n) e fuel) middle a rest →
      Takes (k.loop (rules n) left (mark :: fuel)) (suffix ++ middle) a rest) :
    Feeds n k e (before ++ suffix) := by
  intro middle a rest ends still goesOn
  rw [List.append_assoc]
  refine (first k loose).2 loops _ a rest (stops middle) (safe middle) fun fuel enough => ?_
  cases fuel with
  | nil => simp at enough
  | cons mark fuel =>
    refine step middle fuel mark a rest ends still (goesOn fuel ?_)
    have := List.length_pos_iff.mpr filled
    simp only [List.length_append, List.length_cons] at enough
    omega

theorem Feeds.suffix {n : Nat} {object e : Expr} {before suffix : List Token} (first : ReadBack n object before)
    (tight : .call ≤ object.level) (filled : suffix ≠ []) (stops : ∀ middle, Level.primary.Stops (suffix ++ middle))
    (safe : ∀ middle, object.isSafeGet = true → NextIsnt .leftParen (suffix ++ middle))
    (step : ∀ middle, Level.primary.Stops middle → (e.isSafeGet = true → NextIsnt .leftParen middle) →
      Takes (suffix? (rules n) object) (suffix ++ middle) (some e) middle) :
    Feeds n .call e (before ++ suffix) :=
  .step rfl first tight filled stops safe fun middle _ _ _ _ ends still goesOn =>
    .bind (step middle ends still) goesOn

def Own (n : Nat) (e : Expr) (tokens : List Token) : Prop :=
  Reads n e.level e tokens ∧ (e.level.loops = true → Feeds n e.level e tokens)

theorem Own.primary {n : Nat} {e : Expr} {tokens : List Token} (level : e.level = .primary)
    (reads : ∀ rest, bracketsNext rest = false → Takes (primary (rules n)) (tokens ++ rest) e rest) :
    Own n e tokens := by
  rw [Own, level]
  exact ⟨fun rest stops => reads rest (stops .primary (Nat.le_refl _)), fun impossible => by cases impossible⟩

theorem Own.of_feeds {n : Nat} {e : Expr} {tokens : List Token} {k : Level} (level : e.level = k)
    (loops : k.loops = true) (feeds : Feeds n k e tokens) : Own n e tokens := by
  subst level
  exact ⟨feeds.reads loops, fun _ => feeds⟩

theorem Own.readBack {n : Nat} {e : Expr} {tokens : List Token} (own : Own n e tokens) (written : Written e tokens)
    (levelled : WellLevelled e) : ReadBack n e tokens := by
  refine .of_own (fun tight => ?_) own
  obtain ⟨t, rest, rfl, starts⟩ := written.starts
  exact ⟨t, rest, rfl, starts.unsigned levelled tight⟩

theorem assignTo?_made {site : AssignSite} {value : Option Expr} {target e : Expr}
    (made : Assigns site value target e) : assignTo? site value target = some e := by
  cases made <;> rfl

theorem assignOp_kind (op : AssignOp) : assignOp op.kind = some op := by
  cases op <;> rfl

section

variable {n : Nat} {e object inner left right : Expr} {t opening closing : Token} {tokens before after : List Token}

theorem own_literal {value : Literal} (kind : t.kind = .number ∨ t.kind = .string) (reads : t.literal? = some value) :
    Own n (.literal value) [t] := by
  refine .primary rfl fun rest _ => .bind .peek ?_
  rcases kind with kind | kind <;>
  · simp only [List.cons_append, List.head?_cons, kind]
    refine .bind .skip ?_
    rw [reads]
    exact .pure

theorem own_group (opens : opening.kind = .leftParen) (read : ReadBack n inner tokens)
    (closes : closing.kind = .rightParen) : Own (n + 1) (.group inner) (opening :: (tokens ++ [closing])) := by
  refine .primary rfl fun rest _ => .bind .peek ?_
  simp only [List.cons_append, List.head?_cons, opens, List.append_assoc, List.nil_append]
  exact .bind .skip (.bind (read.expression (Level.stops_closing (by rw [closes]; rfl) _ _))
    (.bind (.require closes) .pure))

theorem own_typeOf (keyword : t.kind = .kwTypeof) (opens : opening.kind = .leftParen) (read : ReadBack n inner tokens)
    (closes : closing.kind = .rightParen) :
    Own (n + 1) (.typeOf t.line inner) (t :: opening :: (tokens ++ [closing])) := by
  refine .primary rfl fun rest _ => .bind .peek ?_
  simp only [List.cons_append, List.head?_cons, keyword, List.append_assoc, List.nil_append]
  exact .bind .skip (.bind (parenthesized_take opens read closes) .pure)

theorem own_length (keyword : t.kind = .kwLength) (opens : opening.kind = .leftParen) (read : ReadBack n inner tokens)
    (closes : closing.kind = .rightParen) :
    Own (n + 1) (.length t.line inner) (t :: opening :: (tokens ++ [closing])) := by
  refine .primary rfl fun rest _ => .bind .peek ?_
  simp only [List.cons_append, List.head?_cons, keyword, List.append_assoc, List.nil_append]
  exact .bind .skip (.bind (parenthesized_take opens read closes) .pure)

theorem own_type {desc : TypeDesc} {range : Modifiers} (spelled : TypeWritten (desc, range) (t :: tokens)) :
    Own n (.type t.line desc) (t :: tokens) := by
  refine .primary rfl fun rest stop => ?_
  obtain ⟨_, _, same, type⟩ := spelled.starts
  cases same
  exact primary_type type (writtenType?_take spelled stop)

theorem own_array {parts : List (Expr × List Token)} (opens : opening.kind = .leftBracket)
    (written : ∀ part ∈ parts, Written part.1 part.2) (each : ∀ part ∈ parts, ReadBack n part.1 part.2)
    (joined : Commas (parts.map Prod.snd) tokens) (closes : closing.kind = .rightBracket)
    (untyped : ∀ first ∈ (parts.map Prod.fst).head?, first.startsWithType = false) :
    Own (n + 1) (.array opening.line none (parts.map Prod.fst)) (opening :: (tokens ++ [closing])) := by
  refine .primary rfl fun rest _ => .bind .peek ?_
  simp only [List.cons_append, List.head?_cons, opens, List.append_assoc, List.nil_append]
  refine .bind .skip (.bind (writtenType?_none ?_) (.bind (elements_take written each joined closes rest) .pure))
  cases parts with
  | nil =>
    cases joined
    simp [closes, TokenKind.isTypeName]
  | cons part parts =>
    obtain ⟨u, more, first, starts⟩ := (written part (by simp)).starts
    obtain ⟨others, rfl⟩ := joined.starts
    rw [first]
    simpa [starts.type] using untyped

theorem own_typedArray {parts : List (Expr × List Token)} {desc : TypeDesc} {range : Modifiers} {colon : Token}
    {type : List Token} (opens : opening.kind = .leftBracket) (spelled : TypeWritten (desc, range) type)
    (between : colon.kind = .colon) (written : ∀ part ∈ parts, Written part.1 part.2)
    (each : ∀ part ∈ parts, ReadBack n part.1 part.2) (joined : Commas (parts.map Prod.snd) tokens)
    (closes : closing.kind = .rightBracket) :
    Own (n + 1) (.array opening.line (some desc) (parts.map Prod.fst))
      (opening :: (type ++ colon :: (tokens ++ [closing]))) := by
  refine .primary rfl fun rest _ => .bind .peek ?_
  simp only [List.cons_append, List.head?_cons, opens, List.append_assoc, List.nil_append]
  refine .bind .skip (.bind (writtenType?_take spelled (bracketsNext_kind (by simp [between]) _)) ?_)
  exact .bind (.accepts_none (nextIsnt_cons (by simp [between]))) (.bind (.require between)
    (.bind (elements_take written each joined closes rest) .pure))

theorem own_sizedArray {desc : TypeDesc} {range : Modifiers} {semicolon : Token} {type : List Token}
    (opens : opening.kind = .leftBracket) (spelled : TypeWritten (desc, range) type)
    (between : semicolon.kind = .semicolon) (read : ReadBack n inner tokens) (closes : closing.kind = .rightBracket) :
    Own (n + 1) (.sizedArray opening.line desc inner) (opening :: (type ++ semicolon :: (tokens ++ [closing]))) := by
  refine .primary rfl fun rest _ => .bind .peek ?_
  simp only [List.cons_append, List.head?_cons, opens, List.append_assoc, List.nil_append]
  refine .bind .skip (.bind (writtenType?_take spelled (bracketsNext_kind (by simp [between]) _)) ?_)
  exact .bind (.accepts between) (.bind (read.expression (Level.stops_closing (by rw [closes]; rfl) _ _))
    (.bind (.require closes) .pure))

theorem own_get {dot name : Token} (read : ReadBack n object tokens) (tight : .call ≤ object.level)
    (point : dot.kind = .dot) (named : name.kind = .identifier) :
    Own n (.get object name.name false) (tokens ++ [dot, name]) := by
  refine .of_feeds rfl rfl (.suffix read tight (by simp)
    (fun middle => Level.stops_kind (fun j => by cases j <;> decide) point _)
    (fun middle _ => nextIsnt_cons (by simp [point])) fun middle _ _ => .bind .peek ?_)
  simp only [List.cons_append, List.head?_cons, point]
  exact .bind .skip (.bind (.require named) .pure)

theorem own_safeGet {dot name : Token} (read : ReadBack n object tokens) (tight : .call ≤ object.level)
    (point : dot.kind = .questionDot) (named : name.kind = .identifier) :
    Own n (.get object name.name true) (tokens ++ [dot, name]) := by
  refine .of_feeds rfl rfl (.suffix read tight (by simp)
    (fun middle => Level.stops_kind (fun j => by cases j <;> decide) point _)
    (fun middle _ => nextIsnt_cons (by simp [point])) fun middle _ still => .bind .peek ?_)
  simp only [List.cons_append, List.head?_cons, point]
  exact .bind .skip (.bind (.bind (.require named) (.bind (.accepts_none (still rfl)) .pure)) .pure)

theorem own_staticGet {colons name : Token} (read : ReadBack n object tokens) (tight : .call ≤ object.level)
    (point : colons.kind = .colonColon) (named : name.kind = .identifier) :
    Own n (.staticGet object name.name) (tokens ++ [colons, name]) := by
  refine .of_feeds rfl rfl (.suffix read tight (by simp)
    (fun middle => Level.stops_kind (fun j => by cases j <;> decide) point _)
    (fun middle _ => nextIsnt_cons (by simp [point])) fun middle _ _ => .bind .peek ?_)
  simp only [List.cons_append, List.head?_cons, point]
  exact .bind .skip (.bind (.require named) .pure)

theorem own_index {position : Expr} (read : ReadBack (n + 1) object before) (tight : .call ≤ object.level)
    (opens : opening.kind = .leftBracket) (written : Written position tokens) (inside : ReadBack n position tokens)
    (closes : closing.kind = .rightBracket) :
    Own (n + 1) (.index object opening.line position) (before ++ opening :: (tokens ++ [closing])) := by
  have indexed : ∀ middle, Level.primary.Stops (opening :: (tokens ++ [closing]) ++ middle) := by
    intro middle j tightest
    obtain rfl : j = .primary := by
      revert tightest
      cases j <;> decide
    obtain ⟨u, more, rfl, starts⟩ := written.starts
    have filled : u.kind ≠ .rightBracket := fun same => by
      have contradiction := starts.starts
      rw [same] at contradiction
      cases contradiction
    simp [Level.takes, bracketsNext, filled]
  refine .of_feeds rfl rfl (.suffix read tight (by simp) indexed
    (fun middle _ => nextIsnt_cons (by simp [opens])) fun middle _ _ => .bind .peek ?_)
  simp only [List.cons_append, List.head?_cons, opens, List.append_assoc, List.nil_append]
  exact .bind .skip (.bind (inside.expression (Level.stops_closing (by rw [closes]; rfl) _ _))
    (.bind (.require closes) .pure))

theorem own_call {parts : List (Expr × List Token)} (read : ReadBack (n + 1) object before)
    (tight : .call ≤ object.level) (plain : object.isSafeGet = false) (opens : opening.kind = .leftParen)
    (written : ∀ part ∈ parts, Written part.1 part.2) (each : ∀ part ∈ parts, ReadBack n part.1 part.2)
    (joined : Commas (parts.map Prod.snd) tokens) (few : parts.length ≤ 255) (closes : closing.kind = .rightParen) :
    Own (n + 1) (.call object closing.line (parts.map Prod.fst) [] false)
      (before ++ opening :: (tokens ++ [closing])) := by
  refine .of_feeds rfl rfl (.suffix read tight (by simp)
    (fun middle => Level.stops_kind (fun j => by cases j <;> decide) opens _)
    (fun middle safe => by simp [plain] at safe) fun middle _ _ => .bind .peek ?_)
  simp only [List.cons_append, List.head?_cons, opens, List.append_assoc, List.nil_append]
  exact .bind .skip (.bind (callRest_take written each joined few closes object [] false middle) .pure)

/-- A call right after a null-safe member is taken together with the member. -/
theorem own_safeCall {parts : List (Expr × List Token)} {dot name : Token} (read : ReadBack (n + 1) object before)
    (tight : .call ≤ object.level) (point : dot.kind = .questionDot) (named : name.kind = .identifier)
    (opens : opening.kind = .leftParen) (written : ∀ part ∈ parts, Written part.1 part.2)
    (each : ∀ part ∈ parts, ReadBack n part.1 part.2) (joined : Commas (parts.map Prod.snd) tokens)
    (few : parts.length ≤ 255) (closes : closing.kind = .rightParen) :
    Own (n + 1) (.call (.get object name.name true) closing.line (parts.map Prod.fst) [] true)
      (before ++ dot :: name :: opening :: (tokens ++ [closing])) := by
  refine .of_feeds rfl rfl (.suffix read tight (by simp)
    (fun middle => Level.stops_kind (fun j => by cases j <;> decide) point _)
    (fun middle _ => nextIsnt_cons (by simp [point])) fun middle _ _ => .bind .peek ?_)
  simp only [List.cons_append, List.head?_cons, point, List.append_assoc, List.nil_append]
  exact .bind .skip (.bind (.bind (.require named) (.bind (.accepts opens)
    (callRest_take written each joined few closes _ [] true middle))) .pure)

theorem own_genericCall {generics parts : List (Expr × List Token)} {colon less greater : Token} {types : List Token}
    (read : ReadBack (n + 1) object before) (tight : .call ≤ object.level) (point : colon.kind = .colon)
    (angle : less.kind = .less) (some : generics ≠ []) (eachType : ∀ part ∈ generics, ReadBack (n + 1) part.1 part.2)
    (primaries : ∀ part ∈ generics, part.1.level = .primary) (joinedTypes : Commas (generics.map Prod.snd) types)
    (ends : greater.kind = .greater) (opens : opening.kind = .leftParen)
    (written : ∀ part ∈ parts, Written part.1 part.2) (each : ∀ part ∈ parts, ReadBack n part.1 part.2)
    (joined : Commas (parts.map Prod.snd) tokens) (few : parts.length ≤ 255) (closes : closing.kind = .rightParen) :
    Own (n + 1) (.call object closing.line (parts.map Prod.fst) (generics.map Prod.fst) false)
      (before ++ colon :: less :: (types ++ greater :: opening :: (tokens ++ [closing]))) := by
  have items : ∀ rest, ∀ part ∈ generics, ∀ after,
      (after = greater :: rest ∨ ∃ comma more, comma.kind = .comma ∧ after = comma :: more) →
      Takes (primary (rules (n + 1))) (part.2 ++ after) part.1 after := by
    intro rest part member after next
    refine (eachType part member .primary (Nat.le_of_eq (congrArg _ (primaries part member).symm))).1 after ?_
    rcases next with rfl | ⟨comma, more, kind, rfl⟩
    · exact Level.stops_kind (fun j => by cases j <;> decide) ends _
    · exact Level.stops_closing (by rw [kind]; rfl) _ _
  refine .of_feeds rfl rfl (.suffix read tight (by simp)
    (fun middle => Level.stops_kind (fun j => by cases j <;> decide) point _)
    (fun middle _ => nextIsnt_cons (by simp [point])) fun middle _ _ => .bind .peek ?_)
  simp only [List.cons_append, List.head?_cons, point, List.append_assoc, List.nil_append]
  refine .bind .peekTwo ?_
  simp only [List.drop_succ_cons, List.drop_zero, List.head?_cons, Option.map_some, angle]
  refine .bind .skip (.bind .skip (.bind ?_ .pure))
  refine .bind .budget (.bind (.commaSeparated joinedTypes some (items _) (nextIsnt_cons (by simp [ends]))
    (by simp only [List.length_cons, List.length_append]; omega)) ?_)
  exact .bind (.require ends) (.bind (.require opens)
    (callRest_take written each joined few closes object _ false middle))

theorem own_unary {op : UnaryOp} (sign : t.kind = op.kind) (read : ReadBack n inner tokens)
    (tight : .unary ≤ inner.level) : Own (n + 1) (.unary op t.line inner) (t :: tokens) := by
  have known : unaryOp t.kind = some op := by
    rw [sign]
    cases op <;> rfl
  refine ⟨fun rest stops => ?_, fun impossible => by cases impossible⟩
  exact .bind (.acceptMap known) (.bind ((read .unary tight).1 rest stops) .pure)

theorem own_binary {op : BinaryOp} (first : ReadBack n left before) (loose : op.level ≤ left.level)
    (sign : t.kind = op.kind) (last : ReadBack n right after) (tight : op.level < right.level) :
    Own n (.binary op t.line left right) (before ++ t :: after) := by
  have loops : op.level.loops = true := by
    rcases op with op | _ | _
    · cases op <;> rfl
    · rfl
    · rfl
  refine .of_feeds rfl loops (.step loops first loose (by simp) (fun middle => Level.stops_binary sign _)
    (fun middle _ => nextIsnt_cons ?_) fun middle fuel mark a rest ends _ goesOn => ?_)
  · rw [sign]
    rcases op with op | _ | _
    · cases op <;> decide
    · decide
    · decide
  · have operand := (last _ (Level.tighter_le tight)).1 middle ends
    rcases op with op | _ | _
    · cases op <;> exact .bind (.acceptMap (by rw [sign]; rfl)) (.bind operand goesOn)
    · exact .bind (.acceptMap (by rw [sign]; rfl)) (.bind operand goesOn)
    · exact .bind (.acceptMap (by rw [sign]; rfl)) (.bind operand goesOn)

theorem own_logical {op : LogicalOp} (first : ReadBack n left before) (loose : op.level ≤ left.level)
    (sign : t.kind = op.kind) (last : ReadBack n right after) (tight : op.level < right.level) :
    Own n (.logical op t.line left right) (before ++ t :: after) := by
  have loops : op.level.loops = true := by
    cases op <;> rfl
  refine .of_feeds rfl loops (.step loops first loose (by simp) (fun middle => Level.stops_logical sign _)
    (fun middle _ => nextIsnt_cons ?_) fun middle fuel mark a rest ends _ goesOn => ?_)
  · rw [sign]
    cases op <;> decide
  · have operand := (last _ (Level.tighter_le tight)).1 middle ends
    cases op <;> exact .bind (.acceptMap (by rw [sign]; rfl)) (.bind operand goesOn)

theorem own_ternary {question colon : Token} {condition yes no : Expr} {middle : List Token}
    (first : ReadBack (n + 1) condition before) (loose : .disjunction ≤ condition.level)
    (mark : question.kind = .question) (inside : ReadBack n yes middle) (between : colon.kind = .colon)
    (written : Written no after) (last : ReadBack n no after) (tight : .ternary ≤ no.level) :
    Own (n + 1) (.ternary question.line condition yes no) (before ++ question :: (middle ++ colon :: after)) := by
  refine ⟨fun rest stops => ?_, fun impossible => by cases impossible⟩
  have noAngle : NextIsnt .less (after ++ rest) := by
    obtain ⟨u, more, rfl, starts⟩ := written.starts
    refine nextIsnt_cons fun same => ?_
    have contradiction := starts.starts
    rw [same] at contradiction
    cases contradiction
  simp only [List.append_assoc, List.cons_append]
  refine .bind ((first .disjunction loose).1 _ (Level.stops_kind (fun j => by cases j <;> decide) mark _)) ?_
  refine .bind (.accept mark) (.bind (inside.expression (Level.stops_colon between noAngle _)) ?_)
  exact .bind (.require between) (.bind ((last .ternary tight).1 rest stops) .pure)

theorem own_cast {keyword : Token} {operand target : Expr} (first : ReadBack n operand before)
    (loose : .cast ≤ operand.level) (sign : keyword.kind = .kwAs) (last : ReadBack n target after)
    (tight : .call ≤ target.level) : Own n (.cast operand keyword.line target) (before ++ keyword :: after) := by
  refine .of_feeds (k := .cast) rfl rfl (.step rfl first loose (by simp)
    (fun middle => Level.stops_kind (fun j => by cases j <;> decide) sign _)
    (fun middle _ => nextIsnt_cons (by simp [sign])) fun middle fuel mark a rest ends _ goesOn => ?_)
  exact .bind (.accept sign) (.bind ((last .call tight).1 middle (ends.mono (by decide))) goesOn)

/-- A target is read before it is known to be one. -/
theorem own_assignment {op : AssignOp} {target : Expr} {value : Option Expr}
    (made : Assigns ⟨op, t.line⟩ value target e) (first : ReadBack n target before) (sign : t.kind = op.kind)
    (last : ∀ rest, Level.assignment.Stops rest → Takes (assignedValue (rules n) op) (after ++ rest) value rest) :
    Own n e (before ++ t :: after) := by
  have level : e.level = .assignment := by
    cases made <;> rfl
  have loose : .cast ≤ target.level := by
    cases made with
    | use => exact (by decide : Level.cast ≤ .primary)
    | _ => exact (by decide : Level.cast ≤ .call)
  rw [Own, level]
  refine ⟨fun rest stops => ?_, fun impossible => by cases impossible⟩
  simp only [List.append_assoc, List.cons_append]
  have sets : Level.cast.Stops (t :: (after ++ rest)) :=
    Level.stops_kind (fun j => by cases op <;> cases j <;> decide) sign _
  refine .bind ((first .cast loose).1 _ sets) (.bind (.acceptMap (by rw [sign, assignOp_kind])) ?_)
  refine .bind (last rest stops) ?_
  rw [assignTo?_made made]
  exact .pure

theorem assignedValue_take {op : AssignOp} {value : Expr} (takes : op.takesValue = true)
    (read : ReadBack n value tokens) (rest : List Token) (stops : Level.assignment.Stops rest) :
    Takes (assignedValue (rules (n + 1)) op) (tokens ++ rest) (some value) rest := by
  rw [assignedValue, if_pos takes]
  exact .bind (read.expression stops) .pure

theorem assignedValue_none {op : AssignOp} (alone : op.takesValue = false) (rest : List Token) :
    Takes (assignedValue (rules n) op) rest none rest := by
  rw [assignedValue, if_neg (by simp [alone])]
  exact .pure

end

theorem own_word {n : Nat} {t : Token} {e : Expr} (level : e.level = .primary)
    (reads : ∀ rest, Takes (primary (rules n)) (t :: rest) e rest) : Own n e [t] :=
  .primary level fun rest _ => reads rest

/-- A well-levelled tree is read back from its tokens at every level that may hold it. -/
theorem written_readBack {e : Expr} {tokens : List Token} (written : Written e tokens)
    (levelled : WellLevelled e) {n : Nat} (enough : tokens.length ≤ n) : ReadBack n e tokens := by
  have original := written
  induction written generalizing n with
  | nil kind | use kind | this kind | given kind =>
    refine (own_word rfl fun rest => .bind .peek ?_).readBack original levelled
    simp only [List.head?_cons, kind]
    exact .bind .skip .pure
  | @bool t b kind =>
    refine (own_word rfl fun rest => .bind .peek ?_).readBack original levelled
    cases b
    · simp only [List.head?_cons, kind, Bool.false_eq_true, if_false]
      exact .bind .skip .pure
    · simp only [List.head?_cons, kind, if_true]
      exact .bind .skip .pure
  | value kind reads => exact (own_literal kind reads).readBack original levelled
  | super keyword point named =>
    refine (Own.primary rfl fun rest _ => .bind .peek ?_).readBack original levelled
    simp only [List.cons_append, List.head?_cons, keyword]
    exact .bind .skip (.bind (.require point) (.bind (.require named) .pure))
  | type spelled => exact (own_type spelled).readBack original levelled
  | @group _ _ inner _ opens inside closes ih =>
    simp only [List.length_cons, List.length_append] at enough
    obtain ⟨n, rfl⟩ : ∃ m, n = m + 1 := ⟨n - 1, by omega⟩
    have part : WellLevelled inner := levelled.operand (by simp [Expr.operands])
    exact (own_group opens (ih part (by omega) inside) closes).readBack original levelled
  | @typeOf _ _ _ inner _ keyword opens inside closes ih =>
    simp only [List.length_cons, List.length_append] at enough
    obtain ⟨n, rfl⟩ : ∃ m, n = m + 1 := ⟨n - 1, by omega⟩
    have part : WellLevelled inner := levelled.operand (by simp [Expr.operands])
    exact (own_typeOf keyword opens (ih part (by omega) inside) closes).readBack original levelled
  | @length _ _ _ inner _ keyword opens inside closes ih =>
    simp only [List.length_cons, List.length_append] at enough
    obtain ⟨n, rfl⟩ : ∃ m, n = m + 1 := ⟨n - 1, by omega⟩
    have part : WellLevelled inner := levelled.operand (by simp [Expr.operands])
    exact (own_length keyword opens (ih part (by omega) inside) closes).readBack original levelled
  | @array _ _ parts tokens opens written joined closes ih =>
    simp only [List.length_cons, List.length_append] at enough
    obtain ⟨n, rfl⟩ : ∃ m, n = m + 1 := ⟨n - 1, by omega⟩
    have each : ∀ part ∈ parts, ReadBack n part.1 part.2 := fun part member => by
      have shorter := joined.length_le part.2 (List.mem_map_of_mem member)
      exact ih part member (levelled.operand (List.mem_map_of_mem member)) (by omega) (written part member)
    exact (own_array opens written each joined closes levelled.own).readBack original levelled
  | @typedArray _ _ _ _ _ parts type tokens opens spelled between written joined closes ih =>
    simp only [List.length_cons, List.length_append] at enough
    obtain ⟨n, rfl⟩ : ∃ m, n = m + 1 := ⟨n - 1, by omega⟩
    have each : ∀ part ∈ parts, ReadBack n part.1 part.2 := fun part member => by
      have shorter := joined.length_le part.2 (List.mem_map_of_mem member)
      exact ih part member (levelled.operand (List.mem_map_of_mem member)) (by omega) (written part member)
    exact (own_typedArray opens spelled between written each joined closes).readBack original levelled
  | @sizedArray _ _ _ _ _ size _ _ opens spelled between inside closes ih =>
    simp only [List.length_cons, List.length_append] at enough
    obtain ⟨n, rfl⟩ : ∃ m, n = m + 1 := ⟨n - 1, by omega⟩
    have part : WellLevelled size := levelled.operand (by simp [Expr.operands])
    exact (own_sizedArray opens spelled between (ih part (by omega) inside) closes).readBack original levelled
  | @get object _ _ _ first point named ih =>
    simp only [List.length_append] at enough
    have part : WellLevelled object := levelled.operand (by simp [Expr.operands])
    exact (own_get (ih part (by omega) first) levelled.own point named).readBack original levelled
  | @safeGet object _ _ _ first point named ih =>
    simp only [List.length_append] at enough
    have part : WellLevelled object := levelled.operand (by simp [Expr.operands])
    exact (own_safeGet (ih part (by omega) first) levelled.own point named).readBack original levelled
  | @staticGet object _ _ _ first point named ih =>
    simp only [List.length_append] at enough
    have part : WellLevelled object := levelled.operand (by simp [Expr.operands])
    exact (own_staticGet (ih part (by omega) first) levelled.own point named).readBack original levelled
  | @index object position _ _ _ _ first opens inside closes ih ihInside =>
    simp only [List.length_cons, List.length_append] at enough
    obtain ⟨n, rfl⟩ : ∃ m, n = m + 1 := ⟨n - 1, by omega⟩
    have part : WellLevelled object := levelled.operand (by simp [Expr.operands])
    have inner : WellLevelled position := levelled.operand (by simp [Expr.operands])
    exact (own_index (ih part (by omega) first) levelled.own opens inside (ihInside inner (by omega) inside)
      closes).readBack original levelled
  | @call callee _ _ _ _ parts first opens written joined closes ih ihParts =>
    simp only [List.length_cons, List.length_append] at enough
    obtain ⟨n, rfl⟩ : ∃ m, n = m + 1 := ⟨n - 1, by omega⟩
    obtain ⟨tight, few, -, safe⟩ := levelled.own
    have part : WellLevelled callee := levelled.operand (by simp [Expr.operands])
    have each : ∀ part ∈ parts, ReadBack n part.1 part.2 := fun part member => by
      have shorter := joined.length_le part.2 (List.mem_map_of_mem member)
      have inner : WellLevelled part.1 := levelled.operand (by
        simpa [Expr.operands] using .inr ⟨part.2, member⟩)
      exact ihParts part member inner (by omega) (written part member)
    exact (own_call (ih part (by omega) first) tight (by simpa using safe) opens written each joined
      (by simpa using few) closes).readBack original levelled
  | @safeCall object _ _ _ name _ _ parts first point named opens written joined closes ih ihParts =>
    simp only [List.length_cons, List.length_append] at enough
    obtain ⟨n, rfl⟩ : ∃ m, n = m + 1 := ⟨n - 1, by omega⟩
    obtain ⟨-, few, -⟩ := levelled.own
    have member : WellLevelled (.get object name.name true) := levelled.operand (by simp [Expr.operands])
    have part : WellLevelled object := member.operand (by simp [Expr.operands])
    have each : ∀ part ∈ parts, ReadBack n part.1 part.2 := fun part member => by
      have shorter := joined.length_le part.2 (List.mem_map_of_mem member)
      have inner : WellLevelled part.1 := levelled.operand (by
        simpa [Expr.operands] using .inr ⟨part.2, member⟩)
      exact ihParts part member inner (by omega) (written part member)
    exact (own_safeCall (ih part (by omega) first) member.own point named opens written each joined
      (by simpa using few) closes).readBack original levelled
  | @genericCall callee _ _ _ _ _ _ _ _ generics parts first point angle some writtenTypes joinedTypes ends opens
      written joined closes ih ihTypes ihParts =>
    simp only [List.length_cons, List.length_append] at enough
    obtain ⟨n, rfl⟩ : ∃ m, n = m + 1 := ⟨n - 1, by omega⟩
    obtain ⟨tight, few, primaries, -⟩ := levelled.own
    have part : WellLevelled callee := levelled.operand (by simp [Expr.operands])
    have eachType : ∀ part ∈ generics, ReadBack (n + 1) part.1 part.2 := fun part member => by
      have shorter := joinedTypes.length_le part.2 (List.mem_map_of_mem member)
      have inner : WellLevelled part.1 := levelled.operand (by
        simpa [Expr.operands] using .inr (.inr ⟨part.2, member⟩))
      exact ihTypes part member inner (by omega) (writtenTypes part member)
    have each : ∀ part ∈ parts, ReadBack n part.1 part.2 := fun part member => by
      have shorter := joined.length_le part.2 (List.mem_map_of_mem member)
      have inner : WellLevelled part.1 := levelled.operand (by
        simpa [Expr.operands] using .inr (.inl ⟨part.2, member⟩))
      exact ihParts part member inner (by omega) (written part member)
    exact (own_genericCall (ih part (by omega) first) tight point angle some eachType
      (fun part member => primaries _ (List.mem_map_of_mem member)) joinedTypes ends opens written each joined
      (by simpa using few) closes).readBack original levelled
  | @unary _ _ operand _ sign last ih =>
    simp only [List.length_cons] at enough
    obtain ⟨n, rfl⟩ : ∃ m, n = m + 1 := ⟨n - 1, by omega⟩
    have part : WellLevelled operand := levelled.operand (by simp [Expr.operands])
    exact (own_unary sign (ih part (by omega) last) levelled.own).readBack original levelled
  | @binary _ _ left right _ _ first sign last ihLeft ihRight =>
    simp only [List.length_cons, List.length_append] at enough
    obtain ⟨loose, tight⟩ := levelled.own
    have leftPart : WellLevelled left := levelled.operand (by simp [Expr.operands])
    have rightPart : WellLevelled right := levelled.operand (by simp [Expr.operands])
    exact (own_binary (ihLeft leftPart (by omega) first) loose sign (ihRight rightPart (by omega) last)
      tight).readBack original levelled
  | @logical _ _ left right _ _ first sign last ihLeft ihRight =>
    simp only [List.length_cons, List.length_append] at enough
    obtain ⟨loose, tight⟩ := levelled.own
    have leftPart : WellLevelled left := levelled.operand (by simp [Expr.operands])
    have rightPart : WellLevelled right := levelled.operand (by simp [Expr.operands])
    exact (own_logical (ihLeft leftPart (by omega) first) loose sign (ihRight rightPart (by omega) last)
      tight).readBack original levelled
  | @ternary _ _ condition yes no _ _ _ first mark inside between last ihFirst ihInside ihLast =>
    simp only [List.length_cons, List.length_append] at enough
    obtain ⟨n, rfl⟩ : ∃ m, n = m + 1 := ⟨n - 1, by omega⟩
    obtain ⟨loose, tight⟩ := levelled.own
    have firstPart : WellLevelled condition := levelled.operand (by simp [Expr.operands])
    have inner : WellLevelled yes := levelled.operand (by simp [Expr.operands])
    have lastPart : WellLevelled no := levelled.operand (by simp [Expr.operands])
    exact (own_ternary (ihFirst firstPart (by omega) first) loose mark (ihInside inner (by omega) inside) between last
      (ihLast lastPart (by omega) last) tight).readBack original levelled
  | @cast _ operand target _ _ first sign last ihFirst ihLast =>
    simp only [List.length_cons, List.length_append] at enough
    obtain ⟨loose, tight⟩ := levelled.own
    have firstPart : WellLevelled operand := levelled.operand (by simp [Expr.operands])
    have lastPart : WellLevelled target := levelled.operand (by simp [Expr.operands])
    exact (own_cast (ihFirst firstPart (by omega) first) loose sign (ihLast lastPart (by omega) last)
      tight).readBack original levelled
  | @assign _ _ _ value _ _ _ made first sign takes last ihFirst ihLast =>
    simp only [List.length_cons, List.length_append] at enough
    obtain ⟨n, rfl⟩ : ∃ m, n = m + 1 := ⟨n - 1, by omega⟩
    have part : WellLevelled value := levelled.operand (by cases made <;> simp [Expr.operands])
    exact (own_assignment made (ihFirst (made.target levelled) (by omega) first) sign
      (assignedValue_take takes (ihLast part (by omega) last))).readBack original levelled
  | step made first sign alone ih =>
    simp only [List.length_append] at enough
    exact (own_assignment made (ih (made.target levelled) (by omega) first) sign
      (fun rest _ => assignedValue_none alone rest)).readBack original levelled

end Treewalk.Grammar
