import Treewalk.Grammar.Declaration
import Treewalk.Proofs.TypeNames
import Treewalk.Proofs.Words

/-!
What parsers read. A parser only ever drops tokens, so on genuine tokens it leaves genuine tokens,
whether it succeeds or gives up; a parser of which no more than that is known is tame.
-/

namespace Treewalk.Grammar

def State.Genuine (s : State) : Prop :=
  ∀ t ∈ s.rest, t.Genuine

namespace Parser

/-- On genuine tokens, whatever the parser reads has a property, and the tokens it leaves are genuine. -/
def Yields (Q : α → Prop) (p : Parser α) : Prop :=
  ∀ s : State, s.Genuine → (p s).2.Genuine ∧ ∀ a ∈ (p s).1, Q a

class Tame (p : Parser α) : Prop where
  yields : Yields (fun _ => True) p

namespace Yields

variable {α β : Type} {P : β → Prop} {Q : α → Prop}

theorem tame {p : Parser α} (yields : Yields Q p) : Tame p :=
  ⟨fun s genuine => ⟨(yields s genuine).1, fun _ _ => trivial⟩⟩

theorem weaken {p : Parser α} {Q' : α → Prop} (yields : Yields Q p) (weaker : ∀ a, Q a → Q' a) :
    Yields Q' p :=
  fun s genuine => ⟨(yields s genuine).1, fun a found => weaker a ((yields s genuine).2 a found)⟩

theorem of_subset {p : Parser α} (rest : ∀ s, (p s).2.rest ⊆ s.rest)
    (holds : ∀ s : State, s.Genuine → ∀ a ∈ (p s).1, Q a) : Yields Q p :=
  fun s genuine => ⟨fun t member => genuine t (rest s member), holds s genuine⟩

theorem pure {a : α} (holds : Q a) : Yields Q (Pure.pure a) := by
  refine of_subset (fun _ => List.Subset.refl _) ?_
  intro s _ b found
  cases found
  exact holds

theorem bind {p : Parser β} {f : β → Parser α} (first : Yields P p)
    (next : ∀ b, P b → Yields Q (f b)) : Yields Q (p >>= f) := by
  intro s genuine
  obtain ⟨left, held⟩ := first s genuine
  rw [bind_apply]
  cases found : p s with
  | mk result middle =>
    rw [found] at left held
    cases result with
    | none => exact ⟨left, by simp⟩
    | some b => exact next b (held b rfl) middle left

theorem after {p : Parser β} [tame : Tame p] {f : β → Parser α} (next : ∀ b, Yields Q (f b)) :
    Yields Q (p >>= f) :=
  bind tame.yields fun b _ => next b

theorem giveUp : Yields Q Parser.giveUp :=
  of_subset (fun _ => List.Subset.refl _) fun _ _ _ found => by cases found

theorem fail (mistake : Mistake) : Yields Q (Parser.fail mistake) :=
  of_subset (fun _ => List.Subset.refl _) fun _ _ _ found => by cases found

theorem some {p : Parser α} (holds : Yields Q p) :
    Yields (fun found => ∀ a ∈ found, Q a) (Option.some <$> p) :=
  bind holds fun _ held => pure (by simpa using held)

theorem peek : Yields (fun found => ∀ t ∈ found, t.Genuine) Parser.peek := by
  refine of_subset (fun _ => List.Subset.refl _) ?_
  intro s genuine found read t head
  cases read
  exact genuine t (List.mem_of_mem_head? head)

end Yields

theorem tame_of_subset {p : Parser α} (rest : ∀ s, (p s).2.rest ⊆ s.rest) : Tame p :=
  ⟨.of_subset rest fun _ _ _ _ => trivial⟩

instance : Tame peek :=
  tame_of_subset fun _ => List.Subset.refl _

instance : Tame peekKind :=
  tame_of_subset fun _ => List.Subset.refl _

instance : Tame peekTwo :=
  tame_of_subset fun _ => List.Subset.refl _

instance : Tame budget :=
  tame_of_subset fun _ => List.Subset.refl _

instance : Tame skip :=
  tame_of_subset fun _ => List.drop_subset ..

instance (mistake : Mistake) : Tame (report mistake) :=
  tame_of_subset fun _ => List.Subset.refl _

instance (name : Name) (mistake : Mistake) : Tame (reportAt name mistake) :=
  tame_of_subset fun _ => List.Subset.refl _

instance (a : α) : Tame (Pure.pure a : Parser α) :=
  ⟨.pure trivial⟩

instance {p : Parser α} {f : α → Parser β} [first : Tame p] [next : ∀ a, Tame (f a)] :
    Tame (p >>= f) :=
  ⟨.bind first.yields fun a _ => (next a).yields⟩

instance {p : Parser α} {f : α → β} [tame : Tame p] : Tame (f <$> p) :=
  ⟨.bind tame.yields fun _ _ => .pure trivial⟩

instance {c : Prop} [Decidable c] {yes no : Parser α} [first : Tame yes] [second : Tame no] :
    Tame (if c then yes else no) := by
  split
  · exact first
  · exact second

instance (wrong : Bool) (mistake : Mistake) : Tame (reportIf wrong mistake) :=
  inferInstanceAs (Tame (if wrong then report mistake else pure ()))

instance (select : TokenKind → Option α) : Tame (acceptMap select) := by
  refine tame_of_subset fun s => ?_
  unfold acceptMap
  split
  · exact List.Subset.refl _
  · rename_i rest found
    split
    · rw [found]
      exact List.subset_cons_self ..
    · exact List.Subset.refl _

theorem accept_yields (kind : TokenKind) :
    Yields (fun found => ∀ t ∈ found, t.kind = kind ∧ t.Genuine) (accept kind) := by
  intro s genuine
  unfold accept
  split
  · exact ⟨genuine, by simp⟩
  · rename_i t rest found
    split
    · rename_i same
      refine ⟨fun other member => genuine other (by simp [found, member]), ?_⟩
      simpa using ⟨same, genuine t (by simp [found])⟩
    · exact ⟨genuine, by simp⟩

instance (kind : TokenKind) : Tame (accept kind) :=
  (accept_yields kind).tame

instance (kind : TokenKind) : Tame (accepts kind) :=
  inferInstanceAs (Tame (accept kind >>= fun found => pure found.isSome))

theorem require_yields (kind : TokenKind) (what : String) :
    Yields (fun t => t.kind = kind ∧ t.Genuine) (require kind what) := by
  refine .bind (accept_yields kind) fun found held => ?_
  cases found with
  | none => exact .fail _
  | some t => exact .pure (held t rfl)

instance (kind : TokenKind) (what : String) : Tame (require kind what) :=
  (require_yields kind what).tame

theorem identifier_yields (what : String) :
    Yields (fun t => t.name.Proper) (require .identifier what) :=
  (require_yields .identifier what).weaken fun _ read => read.2.proper read.1

namespace Yields

variable {α : Type} {Q : α → Prop}

theorem optional {p : Parser α} (holds : Yields Q p) (kind : TokenKind) :
    Yields (fun found => ∀ a ∈ found, Q a) (Parser.optional kind p) := by
  refine after fun there => ?_
  split
  · exact bind holds fun _ held => pure (by simpa using held)
  · exact pure (by simp)

theorem unlessNext {p : Parser α} {otherwise : α} (default : Q otherwise) (holds : Yields Q p)
    (kind : TokenKind) : Yields Q (Parser.unlessNext kind otherwise p) := by
  refine after fun next => ?_
  split
  · exact pure default
  · exact holds

theorem commaSeparated {item : Parser α} (each : Yields Q item) (fuel : Budget) :
    Yields (fun items => ∀ a ∈ items, Q a) (Parser.commaSeparated item fuel) := by
  induction fuel with
  | nil => exact giveUp
  | cons _ fuel ih =>
    refine bind each fun first held => after fun more => ?_
    split
    · exact bind ih fun rest others => pure (by simpa using ⟨held, others⟩)
    · exact pure (by simpa using held)

theorem untilBrace {item : Parser α} (each : Yields Q item) (fuel : Budget) :
    Yields (fun items => ∀ a ∈ items, Q a) (Parser.untilBrace item fuel) := by
  induction fuel with
  | nil => exact giveUp
  | cons _ fuel ih =>
    refine after fun kind => ?_
    split
    · exact pure (by simp)
    · exact pure (by simp)
    · exact bind each fun first held => bind ih fun rest others => pure (by simpa using ⟨held, others⟩)

theorem commaSeparatedLimited {item : Parser α} (each : Yields Q item) (what : String) (count : Nat)
    (fuel : Budget) :
    Yields (fun items => ∀ a ∈ items, Q a) (Parser.commaSeparatedLimited item what count fuel) := by
  induction fuel generalizing count with
  | nil => exact giveUp
  | cons _ fuel ih =>
    refine after fun _ => bind each fun first held => after fun more => ?_
    split
    · exact bind (ih (count + 1)) fun rest others => pure (by simpa using ⟨held, others⟩)
    · exact pure (by simpa using held)

end Yields

end Parser

open Treewalk.Grammar.Parser

theorem modifiersIn_subset (seen : Modifiers) (tokens : List Token) :
    (modifiersIn seen tokens).2 ⊆ tokens := by
  fun_induction modifiersIn seen tokens with
  | case1 => exact List.Subset.refl _
  | case2 seen t rest modifier found ih => exact List.subset_cons_of_subset t ih
  | case3 => exact List.Subset.refl _

instance : Tame modifiers :=
  tame_of_subset fun s => modifiersIn_subset .none s.rest

theorem dimensionsIn_subset (desc : TypeDesc) (tokens : List Token) :
    (dimensionsIn desc tokens).2 ⊆ tokens := by
  fun_induction dimensionsIn desc tokens with
  | case1 desc first second rest _ ih =>
    exact List.subset_cons_of_subset first (List.subset_cons_of_subset second ih)
  | case2 => exact List.Subset.refl _
  | case3 => exact List.Subset.refl _

theorem dimensionsIn_denotable {desc : TypeDesc} (denotable : desc.Denotable) (tokens : List Token) :
    (dimensionsIn desc tokens).1.Denotable := by
  fun_induction dimensionsIn desc tokens with
  | case1 desc first second rest _ ih => exact ih denotable.arrayOf
  | case2 => exact denotable
  | case3 => exact denotable

theorem dimensions_yields {desc : TypeDesc} (denotable : desc.Denotable) :
    Yields TypeDesc.Denotable (dimensions desc) := by
  refine .of_subset (fun s => dimensionsIn_subset desc s.rest) ?_
  intro s _ extended found
  cases found
  exact dimensionsIn_denotable denotable s.rest

theorem paramTypes_tame {inner : Name → Parser (TypeDesc × Modifiers)} (each : ∀ name, Tame (inner name))
    (before : Name) (fuel : Budget) : Tame (functionType.paramTypes inner before fuel) := by
  induction fuel generalizing before with
  | nil => exact ⟨.giveUp⟩
  | cons _ fuel ih =>
    refine ⟨.after fun first => .after fun comma => ?_⟩
    split
    · rename_i comma
      have := ih comma.name
      exact .after fun _ => .pure trivial
    · exact .pure trivial

theorem functionType_yields {inner : Name → Parser (TypeDesc × Modifiers)}
    (each : ∀ name, Tame (inner name)) : Yields TypeDesc.Denotable (functionType inner) := by
  have params (before : Name) (fuel : Budget) := paramTypes_tame each before fuel
  refine .after fun paren => .after fun next => ?_
  split
  · exact .after fun _ => .after fun _ => .after fun _ => .after fun _ => .pure (.function _ _)
  · exact .after fun _ => .after fun _ => .after fun _ => .after fun _ => .after fun _ => .pure (.function _ _)

theorem typeStart_yields {inner : Name → Parser (TypeDesc × Modifiers)} (each : ∀ name, Tame (inner name))
    (first : Token) : Yields (fun read => read.1.Denotable) (typeStart inner first) := by
  unfold typeStart
  split
  · exact .pure .number
  · exact .pure .string
  · exact .pure .boolean
  · exact .pure .void
  · exact .pure .any
  · exact .pure .typeValue
  · exact .pure .number
  · refine .after fun there => ?_
    split
    · exact .bind (functionType_yields each) fun _ denotable => .pure denotable
    · exact .after fun _ => .pure (.object _)
  · exact .after fun _ => .giveUp

theorem typeAfter_yields (fuel : Budget) (before : Name) :
    Yields (fun read => read.1.Denotable) (typeAfter fuel before) := by
  induction fuel generalizing before with
  | nil => exact .giveUp
  | cons _ fuel ih =>
    refine .after fun next => ?_
    split
    · exact .after fun _ => .giveUp
    · exact .after fun _ => .bind (typeStart_yields (fun name => (ih name).tame) _) fun _ denotable =>
        .bind (dimensions_yields denotable) fun _ extended => .pure extended

instance (before : Name) : Tame (writtenTypeAfter before) :=
  ⟨.after fun fuel => (typeAfter_yields fuel before).tame.yields⟩

theorem writtenType?_yields :
    Yields (fun written => ∀ read ∈ written, read.1.Denotable) writtenType? := by
  refine .after fun next => ?_
  split
  · split
    · exact .bind (.after fun fuel => typeAfter_yields fuel _) fun _ denotable => .pure (by simpa using denotable)
    · exact .pure (by simp)
  · exact .pure (by simp)

instance : Tame writtenType? :=
  writtenType?_yields.tame

theorem parameter_yields : Yields (fun param => param.name.Proper) parameter :=
  .after fun _ => .after fun _ => .bind (identifier_yields _) fun _ proper => .pure proper

theorem parameters_yields : Yields (fun params => ∀ param ∈ params, param.name.Proper) parameters :=
  .unlessNext (by simp) (.after fun fuel => .commaSeparatedLimited parameter_yields _ 0 fuel) _

instance : Tame resultType := by
  refine ⟨.after fun arrow => ?_⟩
  split
  · exact .after fun _ => .pure trivial
  · exact .pure trivial

theorem reference_yields (what : String) : Yields (fun ref => ref.name.Proper) (reference what) :=
  .bind (identifier_yields what) fun _ proper => .pure proper

instance (what : String) : Tame (reference what) :=
  (reference_yields what).tame

instance {p : Parser α} [tame : Tame p] (kind : TokenKind) : Tame (optional kind p) :=
  (Yields.optional tame.yields kind).tame

instance {item : Parser α} [each : Tame item] (fuel : Budget) : Tame (commaSeparated item fuel) :=
  (Yields.commaSeparated each.yields fuel).tame

theorem templates_yields : Yields (fun names => ∀ name ∈ names, name.Proper) templates := by
  refine .after fun there => ?_
  split
  · refine .after fun _ => .after fun fuel => .bind (.commaSeparated ?_ fuel) fun names proper => .after fun _ =>
      .pure proper
    exact .bind (identifier_yields _) fun _ proper => .pure proper
  · exact .pure (by simp)

instance (fuel : Budget) : Tame (enumElements fuel) := by
  induction fuel with
  | nil => exact ⟨.giveUp⟩
  | cons _ fuel ih =>
    refine ⟨.after fun next => ?_⟩
    split
    · exact .pure trivial
    · refine .after fun name => .after fun more => ?_
      split
      · exact .after fun _ => .pure trivial
      · exact .pure trivial

end Treewalk.Grammar
