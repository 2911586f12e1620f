import Treewalk.Proofs.Forward
import Treewalk.Proofs.LevelsRead

/-!
What is read is written: whatever an expression parser makes of a list of tokens without recording a
mistake is a well-levelled tree, unless there is a lambda in it, and the tokens taken are its own.
-/

namespace Treewalk.Grammar

open Treewalk.Grammar.Parser

/-- Between the states a mistake is recorded, or nothing is recorded and the tokens taken have the property. -/
def Took (Q : List Token → Prop) (s later : State) : Prop :=
  s.errors.length < later.errors.length ∨
    later.errors = s.errors ∧ ∃ tokens, s.rest = tokens ++ later.rest ∧ Q tokens

/-- Wherever the parser succeeds from the state, what it reads and the tokens it takes for it are related,
unless it records a mistake. -/
def KeepsAt (s : State) (p : Parser α) (Q : α → List Token → Prop) : Prop :=
  ∀ a later, p s = (some a, later) → Took (Q a) s later

def Keeps (p : Parser α) (Q : α → List Token → Prop) : Prop :=
  ∀ s, KeepsAt s p Q

def Leaves (p : Parser α) (Q : α → List Token → Prop) : Prop :=
  ∀ s a later, p s = (some a, later) → Q a later.rest

theorem bind_some {p : Parser α} {f : α → Parser β} {b : β} {s later : State} (done : (p >>= f) s = (some b, later)) :
    ∃ a middle, p s = (some a, middle) ∧ f a middle = (some b, later) := by
  rw [bind_apply] at done
  cases found : p s with
  | mk result middle =>
    rw [found] at done
    cases result with
    | none => cases done
    | some a => exact ⟨a, middle, rfl, done⟩

theorem accepts_some {kind : TokenKind} {s middle : State} {there : Bool}
    (done : accepts kind s = (some there, middle)) :
    there = false ∧ middle = s ∧ NextIsnt kind s.rest ∨
      there = true ∧ ∃ t, t.kind = kind ∧ s = { middle with rest := t :: middle.rest } := by
  obtain ⟨found, _, begun, rest⟩ := bind_some done
  cases rest
  obtain ⟨_ | ⟨t, rest⟩, line, errors⟩ := s
  · cases begun
    exact .inl ⟨rfl, rfl, by simp [NextIsnt]⟩
  · rw [accept] at begun
    by_cases same : t.kind = kind
    · simp only [same, if_true] at begun
      cases begun
      exact .inr ⟨rfl, t, same, rfl⟩
    · simp only [same, if_false] at begun
      cases begun
      exact .inl ⟨rfl, rfl, nextIsnt_cons same⟩

theorem Took.cons {Q : List Token → Prop} {t : Token} {rest : List Token} {line : Line} {errors : List ParseError}
    {later : State} (took : Took (fun tokens => Q (t :: tokens)) ⟨rest, line, errors⟩ later) :
    Took Q ⟨t :: rest, line, errors⟩ later := by
  rcases took with more | ⟨same, tokens, taken, held⟩
  · exact .inl more
  · exact .inr ⟨same, t :: tokens, congrArg (t :: ·) taken, held⟩

theorem Took.trans {P Q R : List Token → Prop} {s middle later : State} (first : Took P s middle)
    (second : Took R middle later) (joined : ∀ before after, P before → R after → Q (before ++ after)) :
    Took Q s later := by
  rcases first, second with ⟨more | ⟨same, before, taken, held⟩, more' | ⟨same', after, taken', holds⟩⟩
  · exact .inl (Nat.lt_trans more more')
  · exact .inl (same' ▸ more)
  · exact .inl (same ▸ more')
  · refine .inr ⟨same'.trans same, before ++ after, ?_, joined before after held holds⟩
    rw [taken, taken', List.append_assoc]

namespace KeepsAt

variable {α β : Type} {s : State} {Q : α → List Token → Prop} {P : β → List Token → Prop}

theorem pure {a : α} (holds : Q a []) : KeepsAt s (Pure.pure a) Q := by
  intro b later done
  cases done
  exact .inr ⟨rfl, [], rfl, holds⟩

theorem bind {p : Parser β} {f : β → Parser α} (first : KeepsAt s p P)
    (next : ∀ b middle, p s = (some b, middle) →
      KeepsAt middle (f b) fun a after => ∀ before, P b before → Q a (before ++ after)) :
    KeepsAt s (p >>= f) Q := by
  intro a later done
  obtain ⟨b, middle, begun, rest⟩ := bind_some done
  exact (first b middle begun).trans (next b middle begun a later rest) fun before after held holds => holds before held

theorem weaken {p : Parser α} {Q' : α → List Token → Prop} (kept : KeepsAt s p Q)
    (weaker : ∀ a tokens, tokens <+: s.rest → Q a tokens → Q' a tokens) : KeepsAt s p Q' := by
  intro a later done
  rcases kept a later done with more | ⟨same, tokens, taken, held⟩
  · exact .inl more
  · exact .inr ⟨same, tokens, taken, weaker a tokens (taken ▸ List.prefix_append ..) held⟩

theorem peek {f : Option Token → Parser α} (next : KeepsAt s (f s.rest.head?) Q) : KeepsAt s (Parser.peek >>= f) Q :=
  next

theorem peekTwo {f : Option TokenKind × Option TokenKind → Parser α}
    (next : KeepsAt s (f (s.rest.head?.map Token.kind, (s.rest.drop 1).head?.map Token.kind)) Q) :
    KeepsAt s (Parser.peekTwo >>= f) Q :=
  next

end KeepsAt

namespace Keeps

variable {α β : Type} {Q : α → List Token → Prop} {P : β → List Token → Prop} {kind : TokenKind}

theorem pure {a : α} (holds : Q a []) : Keeps (Pure.pure a) Q :=
  fun _ => .pure holds

theorem bind {p : Parser β} {f : β → Parser α} (first : Keeps p P)
    (next : ∀ b, Keeps (f b) fun a after => ∀ before, P b before → Q a (before ++ after)) : Keeps (p >>= f) Q :=
  fun s => .bind (first s) fun b middle _ => next b middle

theorem weaken {p : Parser α} {Q' : α → List Token → Prop} (kept : Keeps p Q)
    (weaker : ∀ a tokens, Q a tokens → Q' a tokens) : Keeps p Q' :=
  fun s => (kept s).weaken fun a tokens _ => weaker a tokens

theorem giveUp : Keeps Parser.giveUp Q :=
  fun _ _ _ done => by cases done

theorem fail {mistake : Mistake} : Keeps (Parser.fail mistake) Q :=
  fun _ _ _ done => by cases done

theorem of_forward (p : Parser α) [forward : Forward p] : Keeps p fun _ _ => True := by
  intro s a later done
  have ahead := forward.ahead s
  rw [done] at ahead
  obtain ⟨tokens, taken⟩ := ahead.rest
  rcases Nat.lt_or_eq_of_le ahead.errors.length_le with more | same
  · exact .inl more
  · exact .inr ⟨(ahead.errors.eq_of_length same).symm, tokens, taken.symm, trivial⟩

theorem reportAt {name : Name} {mistake : Mistake} {f : Unit → Parser α} (next : Forward (f ())) :
    Keeps (Parser.reportAt name mistake >>= f) Q := by
  intro s a later done
  have ahead := (next.ahead (s.record (.at name) mistake)).errors.length_le
  rw [show f () (s.record (.at name) mistake) = _ from done] at ahead
  refine .inl (Nat.lt_of_lt_of_le ?_ ahead)
  simp [State.record]

theorem budget {f : Budget → Parser α} (next : ∀ fuel, Keeps (f fuel) Q) : Keeps (Parser.budget >>= f) Q :=
  fun s => next (default :: s.rest) s

theorem acceptMap {select : TokenKind → Option β} {f : Option (β × Token) → Parser α}
    (taken : ∀ b t, select t.kind = some b → Keeps (f (some (b, t))) fun a after => Q a (t :: after))
    (left : Keeps (f none) Q) : Keeps (Parser.acceptMap select >>= f) Q := by
  rintro ⟨_ | ⟨t, rest⟩, line, errors⟩ a later done
  · exact left _ a later done
  · rw [bind_apply, Parser.acceptMap] at done
    cases selected : select t.kind with
    | none =>
      simp only [selected] at done
      exact left _ a later done
    | some b =>
      simp only [selected] at done
      exact (taken b t selected _ a later done).cons

theorem accept {f : Option Token → Parser α}
    (taken : ∀ t, t.kind = kind → Keeps (f (some t)) fun a after => Q a (t :: after))
    (left : Keeps (f none) Q) : Keeps (Parser.accept kind >>= f) Q := by
  rintro ⟨_ | ⟨t, rest⟩, line, errors⟩ a later done
  · exact left _ a later done
  · rw [bind_apply, Parser.accept] at done
    by_cases same : t.kind = kind
    · simp only [same, if_true] at done
      exact (taken t same _ a later done).cons
    · simp only [same, if_false] at done
      exact left _ a later done

theorem accepts {f : Bool → Parser α} (taken : ∀ t, t.kind = kind → Keeps (f true) fun a after => Q a (t :: after))
    (left : Keeps (f false) Q) : Keeps (Parser.accepts kind >>= f) Q := by
  intro s a later done
  obtain ⟨there, middle, begun, rest⟩ := bind_some done
  obtain ⟨found, again, begun, same⟩ := bind_some begun
  cases same
  refine accept (f := fun found => f found.isSome) taken left s a later ?_
  rw [bind_apply, begun]
  exact rest

theorem require {what : String} {f : Token → Parser α}
    (next : ∀ t, t.kind = kind → Keeps (f t) fun a after => Q a (t :: after)) :
    Keeps (Parser.require kind what >>= f) Q := by
  intro s a later done
  obtain ⟨t, middle, begun, rest⟩ := bind_some done
  obtain ⟨found, again, begun, same⟩ := bind_some begun
  cases found with
  | none => cases same
  | some t =>
    cases same
    refine accept (f := fun found => found.elim Parser.giveUp f) next giveUp s a later ?_
    rw [bind_apply, begun]
    exact rest

theorem unlessNext {p : Parser α} {otherwise : α} (default : Q otherwise []) (kept : Keeps p Q) :
    Keeps (Parser.unlessNext kind otherwise p) Q := by
  intro s
  show KeepsAt s (if s.rest.head?.map Token.kind = some kind then Pure.pure otherwise else p) Q
  split
  · exact .pure default
  · exact kept s

theorem peekKind {f : Option TokenKind → Parser α} (next : ∀ kind, Keeps (f kind) Q) :
    Keeps (Parser.peekKind >>= f) Q :=
  fun s => next (s.rest.head?.map Token.kind) s

end Keeps

namespace KeepsAt

variable {α : Type} {Q : α → List Token → Prop} {s : State} {t : Token} {rest : List Token} {f : Unit → Parser α}

theorem skipAt (first : s.rest = t :: rest)
    (next : KeepsAt { s with rest := rest } (f ()) fun a after => Q a (t :: after)) :
    KeepsAt s (Parser.skip >>= f) Q := by
  intro a later done
  obtain ⟨_, line, errors⟩ := s
  cases first
  exact (next a later done).cons

theorem skip (first : s.rest = t :: rest) (next : Keeps (f ()) fun a after => Q a (t :: after)) :
    KeepsAt s (Parser.skip >>= f) Q :=
  skipAt first (next _)

end KeepsAt

def Listed (P : α → List Token → Prop) (items : List α) (tokens : List Token) : Prop :=
  ∃ parts : List (α × List Token), parts.map Prod.fst = items ∧ Commas (parts.map Prod.snd) tokens ∧
    ∀ part ∈ parts, P part.1 part.2

namespace Listed

variable {α : Type} {P : α → List Token → Prop}

theorem nil : Listed P [] [] :=
  ⟨[], rfl, .none, by simp⟩

theorem one {item : α} {tokens : List Token} (held : P item tokens) : Listed P [item] tokens :=
  ⟨[(item, tokens)], rfl, .one, by simpa using held⟩

theorem cons {first : α} {items : List α} {before after : List Token} {comma : Token} (held : P first before)
    (kind : comma.kind = .comma) (some : items ≠ []) (listed : Listed P items after) :
    Listed P (first :: items) (before ++ comma :: after) := by
  obtain ⟨parts, rfl, joined, each⟩ := listed
  cases parts with
  | nil => exact absurd rfl some
  | cons part parts =>
    refine ⟨(first, before) :: part :: parts, rfl, .more kind joined, ?_⟩
    simpa [held] using each

end Listed

namespace Keeps

variable {α : Type} {P : α → List Token → Prop} {item : Parser α}

theorem commaSeparated (kept : Keeps item P) (fuel : Budget) :
    Keeps (Parser.commaSeparated item fuel) fun items tokens => items ≠ [] ∧ Listed P items tokens := by
  induction fuel with
  | nil => exact giveUp
  | cons mark fuel ih =>
    refine bind kept fun first => accepts (fun comma kind => bind ih fun others => pure ?_) (pure ?_)
    · rintro after ⟨some, listed⟩ before held
      rw [List.append_nil]
      exact ⟨by simp, listed.cons held kind some⟩
    · intro tokens held
      rw [List.append_nil]
      exact ⟨by simp, .one held⟩

/-- Where more than 255 items are read, that is recorded. -/
theorem commaSeparatedLimited (kept : Keeps item P) (what : String) (count : Nat) (fuel : Budget) :
    Keeps (Parser.commaSeparatedLimited item what count fuel) fun items tokens =>
      items ≠ [] ∧ count + items.length ≤ 255 ∧ Listed P items tokens := by
  induction fuel generalizing count with
  | nil => exact giveUp
  | cons mark fuel ih =>
    have report : Keeps (reportIf (255 ≤ count) (.tooMany what)) fun _ tokens => count < 255 ∧ tokens = [] := by
      intro s a later done
      by_cases many : 255 ≤ count
      · rw [reportIf, if_pos (by simpa using many)] at done
        cases done
        exact .inl (by simp [State.record])
      · rw [reportIf, if_neg (by simpa using many)] at done
        cases done
        exact .inr ⟨rfl, [], rfl, by omega, rfl⟩
    refine bind report fun _ => bind kept fun first =>
      accepts (fun comma kind => bind (ih (count + 1)) fun others => pure ?_) (pure ?_)
    · rintro after ⟨some, few, listed⟩ before held _ ⟨-, rfl⟩
      rw [List.append_nil]
      refine ⟨by simp, ?_, listed.cons held kind some⟩
      rw [List.length_cons]
      omega
    · rintro tokens held _ ⟨few, rfl⟩
      rw [List.append_nil]
      exact ⟨by simp, by rw [List.length_singleton]; omega, .one held⟩

end Keeps

namespace Leaves

variable {α β : Type} {Q : α → List Token → Prop}

theorem pure {a : α} (holds : ∀ rest, Q a rest) : Leaves (Pure.pure a) Q := by
  intro s b later done
  cases done
  exact holds s.rest

theorem bind {p : Parser β} {f : β → Parser α} (next : ∀ b, Leaves (f b) Q) : Leaves (p >>= f) Q := by
  intro s a later done
  obtain ⟨b, middle, -, rest⟩ := bind_some done
  exact next b middle a later rest

theorem map {p : Parser β} {P : β → List Token → Prop} {f : β → α} (first : Leaves p P)
    (weaker : ∀ b rest, P b rest → Q (f b) rest) : Leaves (p >>= fun b => Pure.pure (f b)) Q := by
  intro s a later done
  obtain ⟨b, middle, begun, rest⟩ := bind_some done
  cases rest
  exact weaker b later.rest (first s b later begun)

end Leaves

theorem dimensionsIn_pairs (desc : TypeDesc) (tokens : List Token) :
    ∃ count pairs, tokens = pairs ++ (dimensionsIn desc tokens).2 ∧
      (dimensionsIn desc tokens).1 = desc.arrayOfAt count ∧ BracketPairs count pairs ∧
      (bracketsNext tokens = false → pairs = []) ∧ bracketsNext (dimensionsIn desc tokens).2 = false := by
  fun_induction dimensionsIn desc tokens with
  | case1 desc first second rest brackets ih =>
    obtain ⟨count, pairs, taken, found, spelled, -, stop⟩ := ih
    refine ⟨count + 1, first :: second :: pairs, ?_, found, .succ brackets.1 brackets.2 spelled, ?_, stop⟩
    · rw [List.cons_append, List.cons_append, ← taken]
    · simp [bracketsNext, brackets]
  | case2 desc first second rest brackets =>
    exact ⟨0, [], rfl, rfl, .zero, fun _ => rfl, by simpa [bracketsNext] using brackets⟩
  | case3 desc rest short =>
    refine ⟨0, [], rfl, rfl, .zero, fun _ => rfl, ?_⟩
    rcases rest with _ | ⟨first, _ | ⟨second, rest⟩⟩
    · rfl
    · rfl
    · exact absurd rfl (short first second rest)

theorem dimensions_keeps (s : State) (desc : TypeDesc) :
    KeepsAt s (dimensions desc) fun extended pairs => ∃ count, extended = desc.arrayOfAt count ∧
      BracketPairs count pairs ∧ (bracketsNext s.rest = false → pairs = []) := by
  intro extended later done
  cases done
  obtain ⟨count, pairs, taken, found, spelled, none, -⟩ := dimensionsIn_pairs desc s.rest
  exact .inr ⟨rfl, pairs, taken, count, found, spelled, none⟩

theorem dimensions_leaves (desc : TypeDesc) : Leaves (dimensions desc) fun _ rest => bracketsNext rest = false := by
  intro s extended later done
  cases done
  obtain ⟨_, _, -, -, -, -, stop⟩ := dimensionsIn_pairs desc s.rest
  exact stop

theorem typeAfter_leaves (fuel : Budget) (before : Name) :
    Leaves (typeAfter fuel before) fun _ rest => bracketsNext rest = false := by
  cases fuel with
  | nil =>
    intro s written later done
    cases done
  | cons mark fuel =>
    refine .bind fun next => ?_
    cases next with
    | none =>
      intro s written later done
      cases done
    | some first => exact .bind fun _ => .bind fun start => .map (dimensions_leaves start.1) fun _ _ stop => stop

section Types

variable {inner : Name → Parser (TypeDesc × Modifiers)} (kept : ∀ name, Keeps (inner name) TypeWritten)

include kept

theorem paramTypes_keeps (fuel : Budget) (before : Name) :
    Keeps (functionType.paramTypes inner before fuel) fun descs tokens =>
      ∃ written, written.map Prod.fst = descs ∧ written ≠ [] ∧ Listed TypeWritten written tokens := by
  induction fuel generalizing before with
  | nil => exact .giveUp
  | cons mark fuel ih =>
    refine .bind (kept before) fun first => .accept (fun comma kind => .bind (ih comma.name) fun others => .pure ?_)
      (.pure ?_)
    · rintro after ⟨written, rfl, some, listed⟩ before held
      rw [List.append_nil]
      exact ⟨first :: written, rfl, by simp, listed.cons held kind some⟩
    · intro tokens held
      rw [List.append_nil]
      exact ⟨[first], rfl, by simp, .one held⟩

theorem functionType_keeps {t keyword : Token} (object : t.kind = .typeObj) (function : keyword.kind = .kwFun) :
    Keeps (functionType inner) fun desc tokens => TypeWritten (desc, .none) (t :: keyword :: tokens) := by
  have tail {left : Token} (opens : left.kind = .leftParen) (descs : List TypeDesc) :
      Keeps (do
        let _ ← require .rightParen "')' after parameter types"
        let colon ← require .colon "':' before return type"
        let returns ← inner colon.name
        return TypeDesc.function descs returns.1) fun desc tokens =>
        ∀ params, (∃ written, written.map Prod.fst = descs ∧ Listed TypeWritten written params) →
          TypeWritten (desc, .none) (t :: keyword :: left :: (params ++ tokens)) := by
    refine .require fun right closes => .require fun colon before => .bind (kept _) fun returns => .pure ?_
    rintro result last params ⟨_, rfl, parts, rfl, joined, each⟩
    rw [List.append_nil, List.map_map]
    exact .function object function opens each joined closes before last
  refine .require fun left opens => .peekKind fun next => ?_
  split
  · exact .bind (.pure ⟨[], rfl, .nil⟩) fun descs => tail opens descs
  · refine .budget fun fuel => .bind ((paramTypes_keeps kept fuel _).weaken ?_) fun descs => tail opens descs
    rintro descs params ⟨written, same, -, listed⟩
    exact ⟨written, same, listed⟩

omit kept in
theorem functionType_leaves (leaves : ∀ name, Leaves (inner name) fun _ rest => bracketsNext rest = false) :
    Leaves (functionType inner) fun _ rest => bracketsNext rest = false := by
  have tail (descs : List TypeDesc) : Leaves (do
      let _ ← require .rightParen "')' after parameter types"
      let colon ← require .colon "':' before return type"
      let returns ← inner colon.name
      return TypeDesc.function descs returns.1) fun _ rest => bracketsNext rest = false :=
    .bind fun _ => .bind fun colon => .map (leaves colon.name) fun _ _ stop => stop
  refine .bind fun _ => .bind fun next => ?_
  split
  · exact .bind tail
  · exact .bind fun _ => .bind tail

/-- After the start of a type brackets may follow, except after a function type, whose result has taken
them. -/
theorem typeStart_keeps (leaves : ∀ name, Leaves (inner name) fun _ rest => bracketsNext rest = false) {t : Token}
    {s later : State} {written : TypeDesc × Modifiers} (done : typeStart inner t s = (some written, later)) :
    Took (fun tokens => ∀ count pairs, BracketPairs count pairs →
        TypeWritten (written.1.arrayOfAt count, written.2) (t :: (tokens ++ pairs))) s later ∨
      bracketsNext later.rest = false ∧ Took (fun tokens => TypeWritten written (t :: tokens)) s later := by
  cases keyword : t.kind.plainType? with
  | some plain =>
    obtain ⟨input, line, errors⟩ := s
    rw [plainType?_start keyword input line errors] at done
    cases done
    exact .inl (.inr ⟨rfl, [], rfl, fun count pairs brackets => .plain keyword brackets⟩)
  | none =>
    by_cases object : t.kind = .typeObj
    · simp only [typeStart, object] at done
      obtain ⟨there, middle, begun, rest⟩ := bind_some done
      obtain ⟨rfl, rfl, -⟩ | ⟨rfl, keyword, function, rfl⟩ := accepts_some begun
      · have named : Keeps (do
            let name ← require .identifier "class name after 'obj'"
            return (TypeDesc.object name.lexeme, Modifiers.none)) fun written tokens =>
            ∀ count pairs, BracketPairs count pairs →
              TypeWritten (written.1.arrayOfAt count, written.2) (t :: (tokens ++ pairs)) :=
          .require fun name named => .pure fun count pairs brackets => .object object named brackets
        exact .inl (named _ written later rest)
      · obtain ⟨desc, _, read, same⟩ := bind_some rest
        cases same
        exact .inr ⟨functionType_leaves leaves _ _ _ read, (functionType_keeps kept object function _ _ _ read).cons⟩
    · have fails : typeStart inner t = (do reportAt t.name (.expected "type"); giveUp) := by
        unfold typeStart
        revert keyword object
        cases t.kind <;> intro keyword object <;> first | exact absurd rfl object | rfl | cases keyword
      rw [fails] at done
      cases done

end Types

theorem typeAfter_keeps (fuel : Budget) (before : Name) : Keeps (typeAfter fuel before) TypeWritten := by
  induction fuel generalizing before with
  | nil => exact .giveUp
  | cons mark fuel ih =>
    rintro ⟨_ | ⟨t, rest⟩, line, errors⟩ written later done
    · cases done
    · refine Took.cons ?_
      obtain ⟨start, middle, begun, rest⟩ := bind_some (p := typeStart (typeAfter fuel) t) done
      obtain ⟨desc, _, read, same⟩ := bind_some rest
      cases same
      obtain took | ⟨stop, took⟩ := typeStart_keeps ih (typeAfter_leaves fuel) begun
      · refine took.trans (dimensions_keeps middle start.1 _ _ read) ?_
        rintro tokens pairs spelled ⟨count, rfl, brackets, -⟩
        exact spelled count pairs brackets
      · refine took.trans (dimensions_keeps middle start.1 _ _ read) ?_
        rintro tokens pairs spelled ⟨count, rfl, brackets, none⟩
        cases none stop
        cases brackets
        rw [List.append_nil]
        exact spelled

theorem KeepsAt.writtenType {α : Type} {s : State} {Q : α → List Token → Prop}
    {f : Option (TypeDesc × Modifiers) → Parser α}
    (found : ∀ written, Keeps (f (some written)) fun a after =>
      ∀ tokens, tokens <+: s.rest → TypeWritten written tokens → Q a (tokens ++ after))
    (none : (∀ t ∈ s.rest.head?, t.kind.isTypeName = false) → KeepsAt s (f none) Q) :
    KeepsAt s (writtenType? >>= f) Q := by
  intro a later done
  obtain ⟨_ | ⟨t, input⟩, line, errors⟩ := s
  · exact none (by simp) a later done
  · obtain ⟨found?, middle, begun, rest⟩ := bind_some done
    have looked : (if t.kind.isTypeName then some <$> writtenTypeAfter t.name else Pure.pure Option.none : Parser _)
        ⟨t :: input, line, errors⟩ = (some found?, middle) := begun
    by_cases type : t.kind.isTypeName = true
    · rw [if_pos type] at looked
      obtain ⟨written, _, read, same⟩ := bind_some looked
      cases same
      have type := (typeAfter_keeps _ t.name _).weaken (fun _ _ front held => And.intro front held) _ _ read
      exact type.trans (found written middle a later rest) fun before after spelled held =>
        held before spelled.1 spelled.2
    · rw [if_neg type] at looked
      cases looked
      exact none (by simpa using type) a later rest

theorem unaryOp_some {kind : TokenKind} {op : UnaryOp} (selected : unaryOp kind = some op) : kind = op.kind := by
  revert selected
  fun_cases unaryOp kind <;> rintro ⟨⟩ <;> rfl

theorem factorOp_some {kind : TokenKind} {op : BinaryOp} (selected : factorOp kind = some op) :
    kind = op.kind ∧ op.level = .factor := by
  revert selected
  fun_cases factorOp kind <;> rintro ⟨⟩ <;> exact ⟨rfl, rfl⟩

theorem termOp_some {kind : TokenKind} {op : BinaryOp} (selected : termOp kind = some op) :
    kind = op.kind ∧ op.level = .term := by
  revert selected
  fun_cases termOp kind <;> rintro ⟨⟩ <;> exact ⟨rfl, rfl⟩

theorem comparisonOp_some {kind : TokenKind} {op : BinaryOp} (selected : comparisonOp kind = some op) :
    kind = op.kind ∧ op.level = .comparison := by
  revert selected
  fun_cases comparisonOp kind <;> rintro ⟨⟩ <;> exact ⟨rfl, rfl⟩

theorem equalityOp_some {kind : TokenKind} {op : BinaryOp} (selected : equalityOp kind = some op) :
    kind = op.kind ∧ op.level = .equality := by
  revert selected
  fun_cases equalityOp kind <;> rintro ⟨⟩ <;> exact ⟨rfl, rfl⟩

theorem andOp_some {kind : TokenKind} {op : LogicalOp} (selected : andOp kind = some op) :
    kind = op.kind ∧ op.level = .conjunction := by
  revert selected
  fun_cases andOp kind <;> rintro ⟨⟩ <;> exact ⟨rfl, rfl⟩

theorem orOp_some {kind : TokenKind} {op : LogicalOp} (selected : orOp kind = some op) :
    kind = op.kind ∧ op.level = .disjunction := by
  revert selected
  fun_cases orOp kind <;> rintro ⟨⟩ <;> exact ⟨rfl, rfl⟩

theorem assignOp_some {kind : TokenKind} {op : AssignOp} (selected : assignOp kind = some op) : kind = op.kind := by
  revert selected
  fun_cases assignOp kind <;> rintro ⟨⟩ <;> rfl

theorem assignTo?_some {site : AssignSite} {value : Option Expr} {target e : Expr}
    (made : assignTo? site value target = some e) : Assigns site value target e := by
  revert made
  fun_cases assignTo? site value target <;> rintro ⟨⟩ <;> constructor

/-- A tree without a lambda is well levelled, written with the tokens and fit for the level. -/
def Fits (k : Level) (e : Expr) (tokens : List Token) : Prop :=
  LambdaFree e → WellLevelled e ∧ Written e tokens ∧ k ≤ e.level

namespace Fits

variable {j k : Level} {e : Expr} {tokens : List Token}

theorem mono (fits : Fits k e tokens) (looser : j ≤ k) : Fits j e tokens := fun free =>
  let ⟨levelled, written, level⟩ := fits free
  ⟨levelled, written, Nat.le_trans looser level⟩

theorem atom (own : e.Levelled) (alone : e.operands = []) (written : Written e tokens) (level : k ≤ e.level) :
    Fits k e tokens :=
  fun _ => ⟨.intro own (by simp [alone]), written, level⟩

theorem binary {op : BinaryOp} {t : Token} {left right : Expr} {before after : List Token}
    (sign : t.kind = op.kind ∧ op.level = k) (first : Fits k left before) (second : Fits k.tighter right after) :
    Fits k (.binary op t.line left right) (before ++ t :: after) := by
  intro free
  obtain ⟨sign, rfl⟩ := sign
  obtain ⟨levelled, first, loose⟩ := first (free.operand (by simp [Expr.operands]))
  obtain ⟨levelled', last, tight⟩ := second (free.operand (by simp [Expr.operands]))
  refine ⟨.intro ⟨loose, Level.lt_of_tighter op.level_loose tight⟩ ?_, .binary first sign last, Nat.le_refl _⟩
  simpa [Expr.operands] using ⟨levelled, levelled'⟩

theorem logical {op : LogicalOp} {t : Token} {left right : Expr} {before after : List Token}
    (sign : t.kind = op.kind ∧ op.level = k) (first : Fits k left before) (second : Fits k.tighter right after) :
    Fits k (.logical op t.line left right) (before ++ t :: after) := by
  intro free
  obtain ⟨sign, rfl⟩ := sign
  obtain ⟨levelled, first, loose⟩ := first (free.operand (by simp [Expr.operands]))
  obtain ⟨levelled', last, tight⟩ := second (free.operand (by simp [Expr.operands]))
  refine ⟨.intro ⟨loose, Level.lt_of_tighter op.level_loose tight⟩ ?_, .logical first sign last, Nat.le_refl _⟩
  simpa [Expr.operands] using ⟨levelled, levelled'⟩

end Fits

theorem Listed.levelled {k : Level} {items : List Expr} {tokens : List Token} (listed : Listed (Fits k) items tokens)
    (free : ∀ e ∈ items, LambdaFree e) :
    ∃ parts : List (Expr × List Token), parts.map Prod.fst = items ∧ Commas (parts.map Prod.snd) tokens ∧
      (∀ part ∈ parts, Written part.1 part.2) ∧ ∀ e ∈ items, WellLevelled e ∧ k ≤ e.level := by
  obtain ⟨parts, rfl, joined, each⟩ := listed
  have held (part : Expr × List Token) (member : part ∈ parts) :=
    each part member (free _ (List.mem_map_of_mem member))
  refine ⟨parts, rfl, joined, fun part member => (held part member).2.1, ?_⟩
  simp only [List.mem_map]
  rintro _ ⟨part, member, rfl⟩
  exact ⟨(held part member).1, (held part member).2.2⟩

structure Kept (r : Rules) : Prop where
  forward : r.Forward
  expression : Keeps r.expression (Fits .assignment)
  ternary : Keeps r.ternary (Fits .ternary)
  unary : Keeps r.unary (Fits .unary)

section Rules

variable {r : Rules} (kept : Kept r)

include kept

theorem parenthesized_keeps (keyword : String) : Keeps (parenthesized r keyword) fun e tokens =>
    ∃ left inner right, tokens = left :: (inner ++ [right]) ∧ left.kind = .leftParen ∧ right.kind = .rightParen ∧
      Fits .assignment e inner := by
  refine .require fun left opens => .bind kept.expression fun e => .require fun right closes => .pure ?_
  intro inner fits
  exact ⟨left, inner, right, rfl, opens, closes, fits⟩

theorem elements_keeps : Keeps (arrayLiteral.elements r) fun items tokens =>
    ∃ inner right, tokens = inner ++ [right] ∧ right.kind = .rightBracket ∧
      Listed (Fits .assignment) items inner := by
  refine .bind (P := Listed (Fits .assignment)) (.unlessNext .nil (.budget fun fuel => ?_)) fun items =>
    .require fun right closes => .pure ?_
  · exact (Keeps.commaSeparated kept.expression fuel).weaken fun items tokens listed => listed.2
  · intro inner listed
    exact ⟨inner, right, rfl, closes, listed⟩

theorem arrayLiteral_keeps {left : Token} (opens : left.kind = .leftBracket) :
    Keeps (arrayLiteral r left.line) fun e tokens => Fits .primary e (left :: tokens) := by
  refine fun s => .writtenType (fun written =>
    .accepts (fun semicolon between => ?_) (.require fun colon between => ?_)) fun untyped => ?_
  · refine .bind kept.expression fun size => .require fun right closes => .pure ?_
    intro tokens fits type _ spelled free
    obtain ⟨levelled, inside, -⟩ := fits (free.operand (by simp [Expr.operands]))
    refine ⟨.intro ⟨_, _, spelled⟩ (by simpa [Expr.operands] using levelled), ?_, Nat.le_refl _⟩
    exact .sizedArray opens spelled between inside closes
  · refine .bind (elements_keeps kept) fun items => .pure ?_
    rintro _ ⟨inner, right, rfl, closes, listed⟩ type - spelled free
    obtain ⟨parts, rfl, joined, each, levelled⟩ := listed.levelled fun e member => free.operand member
    rw [List.append_nil]
    refine ⟨.intro ⟨_, _, spelled⟩ fun e member => (levelled e member).1, ?_, Nat.le_refl _⟩
    exact .typedArray opens spelled between each joined closes
  · refine .bind ((elements_keeps kept s).weaken fun _ _ front held => And.intro front held) fun items _ _ => .pure ?_
    rintro _ ⟨front, inner, right, rfl, closes, listed⟩ free
    obtain ⟨parts, rfl, joined, each, levelled⟩ := listed.levelled fun e member => free.operand member
    rw [List.append_nil]
    refine ⟨.intro ?_ fun e member => (levelled e member).1, .array opens each joined closes, Nat.le_refl _⟩
    cases parts with
    | nil => simp [Expr.Levelled]
    | cons part parts =>
      obtain ⟨t, more, first, starts⟩ := (each part (by simp)).starts
      obtain ⟨others, rfl⟩ := joined.starts
      obtain ⟨after, input⟩ := front
      rw [first] at input
      simpa [Expr.Levelled, ← starts.type] using untyped t (by rw [← input]; rfl)

theorem callRest_keeps (callee : Expr) (generics : List Expr) (nullSafe : Bool) :
    Keeps (callRest r callee generics nullSafe) fun e tokens =>
      ∃ args inner right, e = .call callee right.line args generics nullSafe ∧ tokens = inner ++ [right] ∧
        right.kind = .rightParen ∧ args.length ≤ 255 ∧ Listed (Fits .assignment) args inner := by
  refine .bind (P := fun args inner => args.length ≤ 255 ∧ Listed (Fits .assignment) args inner)
    (.unlessNext ⟨by simp, .nil⟩ (.budget fun fuel => ?_)) fun args => .require fun right closes => .pure ?_
  · refine (Keeps.commaSeparatedLimited kept.expression _ 0 fuel).weaken ?_
    rintro args inner ⟨-, few, listed⟩
    exact ⟨by simpa using few, listed⟩
  · rintro inner ⟨few, listed⟩
    exact ⟨args, inner, right, rfl, rfl, closes, few, listed⟩

omit kept in
theorem literal_keeps {t : Token} (kind : t.kind = .number ∨ t.kind = .string) :
    Keeps (match t.literal? with
      | some value => pure (.literal value)
      | none => do
        reportAt t.name (.expected "literal value")
        giveUp) fun e tokens => Fits .primary e (t :: tokens) := by
  cases reads : t.literal? with
  | none => exact .reportAt inferInstance
  | some value =>
    refine .pure (.atom ?_ rfl (.value kind reads) (Nat.le_refl _))
    cases value with
    | num x =>
      rcases kind with kind | kind
      · exact ⟨t.lexeme, by simpa [Token.literal?, kind] using reads⟩
      · simp [Token.literal?, kind] at reads
    | _ => trivial

theorem primary_keeps : Keeps (primary r) (Fits .primary) := by
  have := kept.forward
  intro s
  refine .peek ?_
  cases first : s.rest with
  | nil => exact Keeps.fail s
  | cons t rest =>
    simp only [List.head?_cons]
    split
    · rename_i kind
      exact .skip first (.pure (.atom trivial rfl (.bool kind) (Nat.le_refl _)))
    · rename_i kind
      exact .skip first (.pure (.atom trivial rfl (.bool kind) (Nat.le_refl _)))
    · rename_i kind
      exact .skip first (.pure (.atom trivial rfl (.nil kind) (Nat.le_refl _)))
    · rename_i kind
      exact .skip first (literal_keeps (.inl kind))
    · rename_i kind
      exact .skip first (literal_keeps (.inr kind))
    · rename_i kind
      exact .skip first (.pure (.atom ⟨rfl, rfl⟩ rfl (.this kind) (Nat.le_refl _)))
    · rename_i kind
      exact .skip first (.pure (.atom ⟨rfl, rfl⟩ rfl (.given kind) (Nat.le_refl _)))
    · rename_i kind
      refine .skip first (.require fun dot point => .require fun name named => .pure ?_)
      exact .atom ⟨rfl, rfl⟩ rfl (.super kind point named) (Nat.le_refl _)
    · rename_i kind
      exact .skip first (.pure (.atom ⟨rfl, rfl⟩ rfl (.use kind) (Nat.le_refl _)))
    · rename_i kind
      refine .skip first (.bind kept.expression fun inner => .require fun right closes => .pure ?_)
      intro tokens fits free
      obtain ⟨levelled, inside, -⟩ := fits (free.operand (by simp [Expr.operands]))
      exact ⟨.intro trivial (by simpa [Expr.operands] using levelled), .group kind inside closes, Nat.le_refl _⟩
    · rename_i kind
      exact .skip first (arrayLiteral_keeps kept kind)
    · refine .skip first (.require fun left opens => .bind (.of_forward _) fun decl => .pure ?_)
      rintro tokens - ⟨other, -⟩
      exact absurd rfl (other decl)
    · rename_i kind
      refine .skip first (.bind (parenthesized_keeps kept _) fun inner => .pure ?_)
      rintro _ ⟨left, tokens, right, rfl, opens, closes, fits⟩ free
      obtain ⟨levelled, inside, -⟩ := fits (free.operand (by simp [Expr.operands]))
      rw [List.append_nil]
      exact ⟨.intro trivial (by simpa [Expr.operands] using levelled), .typeOf kind opens inside closes, Nat.le_refl _⟩
    · rename_i kind
      refine .skip first (.bind (parenthesized_keeps kept _) fun inner => .pure ?_)
      rintro _ ⟨left, tokens, right, rfl, opens, closes, fits⟩ free
      obtain ⟨levelled, inside, -⟩ := fits (free.operand (by simp [Expr.operands]))
      rw [List.append_nil]
      exact ⟨.intro trivial (by simpa [Expr.operands] using levelled), .length kind opens inside closes, Nat.le_refl _⟩
    · refine .writtenType (fun written => .pure ?_) fun _ => Keeps.fail s
      intro tokens front spelled
      obtain ⟨_, more, rfl, type⟩ := spelled.starts
      rw [first, List.cons_prefix_cons] at front
      obtain ⟨rfl, -⟩ := front
      rw [List.append_nil]
      exact .atom ⟨_, _, spelled⟩ rfl (.type spelled) (Nat.le_refl _)

/-- A null-safe member without lambdas is not followed by a parenthesis. -/
def Open (e : Expr) (input : List Token) : Prop :=
  LambdaFree e → e.isSafeGet = true → NextIsnt .leftParen input

/-- What an expression that is followed by the tokens `input` becomes by a suffix, of which some tokens have
been taken before the others. -/
def Extends (e : Expr) (input taken : List Token) (longer : Expr) (after : List Token) : Prop :=
  ∀ before, Open e input → Fits .call e before → Fits .call longer (before ++ (taken ++ after))

theorem plainCall_keeps {e : Expr} {left : Token} (opens : left.kind = .leftParen) (rest : List Token) :
    Keeps (callRest r e [] false) (Extends e (left :: rest) [left]) := by
  refine (callRest_keeps kept e [] false).weaken ?_
  rintro _ _ ⟨args, inner, right, rfl, rfl, closes, few, listed⟩ before still fits free
  have plain : e.isSafeGet = false := by
    cases known : e.isSafeGet with
    | false => rfl
    | true => exact absurd opens (still (free.operand (by simp [Expr.operands])) known left rfl)
  obtain ⟨callee, first, tight⟩ := fits (free.operand (by simp [Expr.operands]))
  obtain ⟨parts, rfl, joined, each, levelled⟩ :=
    listed.levelled fun e member => free.operand (by simp [Expr.operands, member])
  refine ⟨.intro ⟨tight, few, by simp, by simp [plain]⟩ ?_, .call first opens each joined closes, Nat.le_refl _⟩
  intro part member
  simp only [Expr.operands, List.append_nil, List.mem_cons] at member
  rcases member with rfl | member
  · exact callee
  · exact (levelled part member).1

theorem genericCall_keeps {e : Expr} {colon less : Token} (point : colon.kind = .colon) (angle : less.kind = .less)
    (input : List Token) : Keeps (genericCall r e) (Extends e input [colon, less]) := by
  refine .budget fun fuel => .bind (.commaSeparated (primary_keeps kept) fuel) fun generics =>
    .require fun greater closing => .require fun left opens => (callRest_keeps kept e generics false).weaken ?_
  rintro _ _ ⟨args, inner, right, rfl, rfl, closes, few, listed⟩ types ⟨some, listedTypes⟩ before - fits free
  obtain ⟨callee, first, tight⟩ := fits (free.operand (by simp [Expr.operands]))
  obtain ⟨parts, rfl, joined, each, levelled⟩ :=
    listed.levelled fun e member => free.operand (by simp [Expr.operands, member])
  obtain ⟨typeParts, rfl, joinedTypes, eachType, primaries⟩ :=
    listedTypes.levelled fun e member => free.operand (by simp [Expr.operands, member])
  have filled : typeParts ≠ [] := by simpa using some
  refine ⟨.intro ⟨tight, few, fun e member => ?_, by simp [filled]⟩ ?_, ?_, Nat.le_refl _⟩
  · have tightest := (primaries e member).2
    revert tightest
    cases e.level <;> decide
  · intro part member
    simp only [Expr.operands, List.mem_cons, List.mem_append] at member
    rcases member with rfl | member | member
    · exact callee
    · exact (levelled part member).1
    · exact (primaries part member).1
  · exact .genericCall first point angle filled eachType joinedTypes closing opens each joined closes

theorem nullSafeMember_keeps {e : Expr} {dot : Token} (point : dot.kind = .questionDot) (input : List Token) :
    Keeps (nullSafeMember r e) (Extends e input [dot]) := by
  refine .require fun name named => .accepts (fun left opens => ?_) (.pure ?_)
  · refine (callRest_keeps kept _ [] true).weaken ?_
    rintro _ _ ⟨args, inner, right, rfl, rfl, closes, few, listed⟩ before - fits free
    have get : LambdaFree (.get e name.name true) := free.operand (by simp [Expr.operands])
    obtain ⟨object, first, tight⟩ := fits (get.operand (by simp [Expr.operands]))
    obtain ⟨parts, rfl, joined, each, levelled⟩ :=
      listed.levelled fun e member => free.operand (by simp [Expr.operands, member])
    have member : WellLevelled (.get e name.name true) := .intro tight (by simpa [Expr.operands] using object)
    refine ⟨.intro ⟨Nat.le_refl _, few, by simp, by simp [Expr.isSafeGet]⟩ ?_, ?_, Nat.le_refl _⟩
    · intro part among
      simp only [Expr.operands, List.append_nil, List.mem_cons] at among
      rcases among with rfl | among
      · exact member
      · exact (levelled part among).1
    · exact .safeCall first point named opens each joined closes
  · intro before _ fits free
    obtain ⟨object, first, tight⟩ := fits (free.operand (by simp [Expr.operands]))
    exact ⟨.intro tight (by simpa [Expr.operands] using object), .safeGet first point named, Nat.le_refl _⟩

/-- A suffix goes with what stands before it. A parenthesis right after a null-safe member would have been
taken with the member. -/
theorem suffix?_keeps (e : Expr) (s : State) : KeepsAt s (suffix? r e) fun longer? after =>
    Extends e s.rest [] (longer?.getD e) after := by
  have stay {input : List Token} : KeepsAt s (pure none) fun (longer? : Option Expr) after =>
      Extends e input [] (longer?.getD e) after :=
    .pure fun before _ fits => by simpa using fits
  have grown {input : List Token} {p : Parser Expr} {taken : List Token} (held : Keeps p (Extends e input taken)) :
      Keeps (do return some (← p)) fun longer? after => Extends e input taken (longer?.getD e) after :=
    .bind held fun longer => .pure fun after held before still fits => by simpa using held before still fits
  refine .peek ?_
  cases first : s.rest with
  | nil => exact stay
  | cons t rest =>
    simp only [List.head?_cons]
    split
    · rename_i kind
      exact .skip first (grown (plainCall_keeps kept kind rest))
    · rename_i kind
      refine .peekTwo ?_
      split
      · rename_i angle
        obtain ⟨_, angle⟩ := Prod.mk.inj angle
        rw [first] at angle
        cases rest with
        | nil => cases angle
        | cons less rest =>
          refine .skipAt first (.skip rfl (grown (genericCall_keeps kept kind ?_ _)))
          simpa using angle
      · exact stay
    · rename_i kind
      refine .skip first (.require fun name named => .pure fun before _ fits free => ?_)
      obtain ⟨object, first, tight⟩ := fits (free.operand (by simp [Expr.operands]))
      exact ⟨.intro tight (by simpa [Expr.operands] using object), .get first kind named, Nat.le_refl _⟩
    · rename_i kind
      exact .skip first (grown (nullSafeMember_keeps kept kind _))
    · rename_i kind
      refine .skip first (.require fun name named => .pure fun before _ fits free => ?_)
      obtain ⟨object, first, tight⟩ := fits (free.operand (by simp [Expr.operands]))
      exact ⟨.intro tight (by simpa [Expr.operands] using object), .staticGet first kind named, Nat.le_refl _⟩
    · rename_i kind
      refine .skip first (.bind kept.expression fun position => .require fun right closes => .pure ?_)
      intro inner held before _ fits free
      obtain ⟨object, first, tight⟩ := fits (free.operand (by simp [Expr.operands]))
      obtain ⟨index, inside, -⟩ := held (free.operand (by simp [Expr.operands]))
      exact ⟨.intro tight (by simpa [Expr.operands] using ⟨object, index⟩), .index first kind inside closes,
        Nat.le_refl _⟩
    · exact stay

omit kept in
theorem callRest_leaves (callee : Expr) (generics : List Expr) (nullSafe : Bool) :
    Leaves (callRest r callee generics nullSafe) fun e _ => e.isSafeGet = false :=
  .bind fun _ => .bind fun _ => .pure fun _ => rfl

omit kept in
theorem suffix?_leaves (e : Expr) : Leaves (suffix? r e) fun longer? rest =>
    ∀ longer ∈ longer?, longer.isSafeGet = true → NextIsnt .leftParen rest := by
  have called {p : Parser Expr} (plain : Leaves p fun e _ => e.isSafeGet = false) :
      Leaves (do return some (← p)) fun longer? rest =>
        ∀ longer ∈ longer?, longer.isSafeGet = true → NextIsnt .leftParen rest :=
    .map plain fun longer _ known => by simp [known]
  have member : Leaves (nullSafeMember r e) fun longer rest => longer.isSafeGet = true → NextIsnt .leftParen rest := by
    refine .bind fun name s longer later done => ?_
    obtain ⟨there, middle, begun, rest⟩ := bind_some done
    obtain ⟨rfl, rfl, other⟩ | ⟨rfl, -⟩ := accepts_some begun
    · cases rest
      exact fun _ => other
    · intro safe
      rw [callRest_leaves _ _ _ _ _ _ rest] at safe
      cases safe
  refine .bind fun next => ?_
  split
  · exact .pure fun _ => by simp
  · split
    · exact .bind fun _ => called (callRest_leaves _ _ _)
    · refine .bind fun _ => ?_
      split
      · exact .bind fun _ => .bind fun _ => called (.bind fun _ => .bind fun _ => .bind fun _ => .bind fun _ =>
          callRest_leaves _ _ _)
      · exact .pure fun _ => by simp
    · exact .bind fun _ => .bind fun _ => .pure fun _ => by simp [Expr.isSafeGet]
    · exact .bind fun _ => .map member fun longer rest held => by simpa using held
    · exact .bind fun _ => .bind fun _ => .pure fun _ => by simp [Expr.isSafeGet]
    · exact .bind fun _ => .bind fun _ => .bind fun _ => .pure fun _ => by simp [Expr.isSafeGet]
    · exact .pure fun _ => by simp

theorem suffixes_keeps (e : Expr) (s : State) (fuel : Budget) :
    KeepsAt s (suffixes r e fuel) (Extends e s.rest []) := by
  induction fuel generalizing e s with
  | nil => exact Keeps.giveUp s
  | cons mark fuel ih =>
    refine .bind (suffix?_keeps kept e s) fun longer? middle done => ?_
    cases longer? with
    | none =>
      refine .pure fun after held before still fits => ?_
      rw [List.append_nil]
      exact held before still fits
    | some longer =>
      refine (ih longer middle).weaken fun longest after _ goesOn taken held before still fits => ?_
      rw [List.nil_append, ← List.append_assoc]
      exact goesOn (before ++ taken) (fun _ => suffix?_leaves e s _ middle done longer rfl) (held before still fits)

theorem call_keeps : Keeps (call r) (Fits .call) := by
  intro s
  refine .bind (primary_keeps kept s) fun e middle _ => ?_
  refine (suffixes_keeps kept e middle _).weaken fun longer after _ goesOn before fits => ?_
  have still : Open e middle.rest := fun free safe => by
    have tightest := (fits free).2.2
    cases e with
    | get => exact absurd tightest (by decide : ¬Level.primary ≤ .call)
    | _ => cases safe
  exact goesOn before still (fits.mono (by decide))

theorem unary_keeps : Keeps (unary r) (Fits .unary) := by
  refine .acceptMap (fun op t selected => .bind kept.unary fun operand => .pure ?_)
    ((call_keeps kept).weaken fun e tokens fits => fits.mono (by decide))
  intro tokens fits free
  obtain ⟨levelled, last, tight⟩ := fits (free.operand (by simp [Expr.operands]))
  rw [List.append_nil]
  exact ⟨.intro tight (by simpa [Expr.operands] using levelled), .unary (unaryOp_some selected) last, Nat.le_refl _⟩

omit kept in
theorem level_keeps {k : Level} {select : TokenKind → Option α} {join : α → Line → Expr → Expr → Expr}
    {operand : Parser Expr} (each : Keeps operand (Fits k.tighter)) (looser : k ≤ k.tighter)
    (joins : ∀ op t left right before after, select t.kind = some op → Fits k left before →
      Fits k.tighter right after → Fits k (join op t.line left right) (before ++ t :: after)) :
    Keeps (level select join operand) (Fits k) := by
  have loop (left : Expr) (fuel : Budget) : Keeps (leftAssociative select join operand left fuel) fun e after =>
      ∀ before, Fits k left before → Fits k e (before ++ after) := by
    induction fuel generalizing left with
    | nil => exact .giveUp
    | cons mark fuel ih =>
      refine .acceptMap (fun op t selected => .bind each fun right => (ih (join op t.line left right)).weaken ?_)
        (.pure fun before fits => by simpa using fits)
      intro e after goesOn tokens last before first
      simpa using goesOn _ (joins op t left right before tokens selected first last)
  refine .bind each fun left => .budget fun fuel => (loop left fuel).weaken ?_
  intro e after goesOn before fits
  exact goesOn before (fits.mono looser)

theorem factor_keeps : Keeps (factor r) (Fits .factor) :=
  level_keeps (k := .factor) (unary_keeps kept) (by decide) fun _ _ _ _ _ _ selected =>
    .binary (factorOp_some selected)

theorem term_keeps : Keeps (term r) (Fits .term) :=
  level_keeps (k := .term) (factor_keeps kept) (by decide) fun _ _ _ _ _ _ selected => .binary (termOp_some selected)

theorem comparison_keeps : Keeps (comparison r) (Fits .comparison) :=
  level_keeps (k := .comparison) (term_keeps kept) (by decide) fun _ _ _ _ _ _ selected =>
    .binary (comparisonOp_some selected)

theorem equality_keeps : Keeps (equality r) (Fits .equality) :=
  level_keeps (k := .equality) (comparison_keeps kept) (by decide) fun _ _ _ _ _ _ selected =>
    .binary (equalityOp_some selected)

theorem conjunction_keeps : Keeps (conjunction r) (Fits .conjunction) :=
  level_keeps (k := .conjunction) (equality_keeps kept) (by decide) fun _ _ _ _ _ _ selected =>
    .logical (andOp_some selected)

theorem disjunction_keeps : Keeps (disjunction r) (Fits .disjunction) :=
  level_keeps (k := .disjunction) (conjunction_keeps kept) (by decide) fun _ _ _ _ _ _ selected =>
    .logical (orOp_some selected)

theorem ternary_keeps : Keeps (ternary r) (Fits .ternary) := by
  refine .bind (disjunction_keeps kept) fun condition => .accept (fun question mark => ?_) (.pure ?_)
  · refine .bind kept.expression fun yes => .require fun colon between => .bind kept.ternary fun no => .pure ?_
    intro after third middle second before first free
    obtain ⟨levelled, first, loose⟩ := first (free.operand (by simp [Expr.operands]))
    obtain ⟨levelled', inside, -⟩ := second (free.operand (by simp [Expr.operands]))
    obtain ⟨levelled'', last, tight⟩ := third (free.operand (by simp [Expr.operands]))
    rw [List.append_nil]
    refine ⟨.intro ⟨loose, tight⟩ ?_, .ternary first mark inside between last, Nat.le_refl _⟩
    simpa [Expr.operands] using ⟨levelled, levelled', levelled''⟩
  · intro tokens fits
    rw [List.append_nil]
    exact fits.mono (by decide)

theorem casts_keeps : Keeps (casts r) (Fits .cast) := by
  have loop (e : Expr) (fuel : Budget) : Keeps (castsFrom r e fuel) fun longer after =>
      ∀ before, Fits .cast e before → Fits .cast longer (before ++ after) := by
    induction fuel generalizing e with
    | nil => exact .giveUp
    | cons mark fuel ih =>
      refine .accept (fun keyword sign => .bind (call_keeps kept) fun target => (ih _).weaken ?_)
        (.pure fun before fits => by simpa using fits)
      intro longer after goesOn tokens second before first
      simpa using goesOn (before ++ keyword :: tokens) fun free => by
        obtain ⟨levelled, first, loose⟩ := first (free.operand (by simp [Expr.operands]))
        obtain ⟨levelled', last, tight⟩ := second (free.operand (by simp [Expr.operands]))
        exact ⟨.intro ⟨loose, tight⟩ (by simpa [Expr.operands] using ⟨levelled, levelled'⟩), .cast first sign last,
          Nat.le_refl _⟩
  refine .bind (ternary_keeps kept) fun e => .budget fun fuel => (loop e fuel).weaken ?_
  intro longer after goesOn before fits
  exact goesOn before (fits.mono (by decide))

theorem assignedValue_keeps (op : AssignOp) : Keeps (assignedValue r op) fun value tokens =>
    match value with
    | some e => op.takesValue = true ∧ Fits .assignment e tokens
    | none => op.takesValue = false ∧ tokens = [] := by
  unfold assignedValue
  split
  · rename_i takes
    exact .bind kept.expression fun e => .pure fun tokens fits => ⟨takes, by simpa using fits⟩
  · rename_i alone
    exact .pure ⟨by simpa using alone, rfl⟩

theorem assignment_keeps : Keeps (assignment r) (Fits .assignment) := by
  refine .bind (casts_keeps kept) fun target => .acceptMap (fun op t selected => ?_) (.pure ?_)
  · refine .bind (assignedValue_keeps kept op) fun value => ?_
    split
    · rename_i e made
      refine .pure fun after second before first free => ?_
      replace made := assignTo?_some made
      obtain ⟨levelled, first, -⟩ := first (made.lambdaFree free)
      have sign := assignOp_some selected
      have level : .assignment ≤ e.level := Nat.zero_le _
      rw [List.append_nil]
      cases value with
      | none =>
        obtain ⟨alone, rfl⟩ := second
        exact ⟨made.levelled levelled (by simp) alone.symm, .step made first sign alone, level⟩
      | some value =>
        obtain ⟨takes, second⟩ := second
        obtain ⟨levelled', last, -⟩ := second (free.operand (by cases made <;> simp [Expr.operands]))
        exact ⟨made.levelled levelled (by simpa using levelled') takes.symm, .assign made first sign takes last, level⟩
    · exact .reportAt inferInstance
  · intro tokens fits
    rw [List.append_nil]
    exact fits.mono (by decide)

end Rules

theorem rules_kept (n : Nat) : Kept (rules n) := by
  induction n with
  | zero => exact ⟨rules_forward 0, .giveUp, .giveUp, .giveUp⟩
  | succ n ih => exact ⟨rules_forward (n + 1), assignment_keeps ih, ternary_keeps ih, unary_keeps ih⟩

end Treewalk.Grammar
