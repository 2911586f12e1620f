import Treewalk.Proofs.Forward

/-!
Parsers that make progress. A rule that comes back to the grammar has taken a token before, and a loop takes one each
time round. So where few tokens are left, a parser does not see how often the grammar has been unrolled: it does the
same for any two unrollings that are long enough. It never gives up because one of them has come to its end, but only
where it has recorded a mistake.
-/

namespace Treewalk.Grammar

def State.Below (n : Nat) (s : State) : Prop :=
  s.rest.length < n

def State.Begun (n : Nat) (s : State) : Prop :=
  s.rest ≠ [] ∧ s.rest.length < n

namespace Parser

variable {α β : Type} {S : State → Prop} {p q : Parser α} {f g : α → Parser β} {n m k : Nat}

/-- Two parsers that do the same in some states, and record a mistake there when they give up. -/
class Steady (S : State → Prop) (p q : Parser α) : Prop where
  same : ∀ s : State, S s → q s = p s
  records : ∀ s : State, S s → (p s).1 = none → s.errors.length < (p s).2.errors.length

/-- Two loops that do the same as long as their budgets last. -/
class Looping (n : Nat) (p q : Budget → Parser α) : Prop where
  steady : ∀ fuel fuel' : Budget,
    Steady (State.Below (min n (min fuel.length fuel'.length))) (p fuel) (q fuel')

/-- A parser that has taken a token when it succeeds with a result of some kind. -/
def AdvancesFor (φ : α → Bool) (p : Parser α) : Prop :=
  ∀ s a, (p s).1 = some a → φ a = true → (p s).2.rest.length < s.rest.length

/-- This is so at least where there is a token. -/
def AdvancesOnce (φ : α → Bool) (p : Parser α) : Prop :=
  ∀ s a, s.rest ≠ [] → (p s).1 = some a → φ a = true → (p s).2.rest.length < s.rest.length

class Advances (p : Parser α) : Prop where
  shorter : ∀ s a, (p s).1 = some a → (p s).2.rest.length < s.rest.length

theorem Forward.length_le [forward : Forward p] (s : State) : (p s).2.rest.length ≤ s.rest.length :=
  (forward.ahead s).rest.length_le

namespace Steady

theorem mono (steady : Steady (State.Below n) p q) (fewer : m ≤ n) : Steady (State.Below m) p q where
  same s few := steady.same s (Nat.lt_of_lt_of_le few fewer)
  records s few := steady.records s (Nat.lt_of_lt_of_le few fewer)

theorem into [forward : Forward p] {T : α → State → Prop} (first : Steady S p q)
    (leads : ∀ s a, S s → (p s).1 = some a → T a (p s).2) (next : ∀ a, Steady (T a) (f a) (g a)) :
    Steady S (p >>= f) (q >>= g) := by
  constructor
  · intro s here
    rw [bind_apply, bind_apply, first.same s here]
    have leads := leads s
    cases done : p s with
    | mk result middle =>
      rw [done] at leads
      cases result with
      | none => rfl
      | some a => exact (next a).same middle (leads a here rfl)
  · intro s here
    have records := first.records s here
    have grown := (forward.ahead s).errors.length_le
    have leads := leads s
    rw [bind_apply]
    cases done : p s with
    | mk result middle =>
      rw [done] at records grown leads
      cases result with
      | none => exact fun _ => records rfl
      | some a => exact fun stopped => Nat.lt_of_le_of_lt grown ((next a).records middle (leads a here rfl) stopped)

theorem bind [Forward p] (first : Steady (State.Below n) p q) (next : ∀ a, Steady (State.Below n) (f a) (g a)) :
    Steady (State.Below n) (p >>= f) (q >>= g) :=
  first.into (fun s _ few _ => Nat.lt_of_le_of_lt (Forward.length_le s) few) next

/-- The second may count on a token that the first has taken. -/
theorem take [Forward p] [advances : Advances p] (first : Steady (State.Below m) p q) (less : m ≤ k + 1)
    (next : ∀ a, Steady (State.Below k) (f a) (g a)) : Steady (State.Below m) (p >>= f) (q >>= g) := by
  refine first.into (fun s a few done => ?_) next
  have shorter := advances.shorter s a done
  have few : s.rest.length < m := few
  change (p s).2.rest.length < k
  omega

/-- The second may count on a token only after some of the results. -/
theorem branch {φ : α → Bool} [Forward p] (first : Steady (State.Below m) p q) (advances : AdvancesFor φ p)
    (less : m ≤ k + 1) (taken : ∀ a, φ a = true → Steady (State.Below k) (f a) (g a))
    (other : ∀ a, φ a = false → Steady (State.Below m) (f a) (g a)) : Steady (State.Below m) (p >>= f) (q >>= g) := by
  refine first.into (T := fun a => State.Below (if φ a then k else m)) (fun s a few done => ?_) fun a => ?_
  · have few : s.rest.length < m := few
    change (p s).2.rest.length < _
    split
    · rename_i found
      have shorter := advances s a done found
      omega
    · exact Nat.lt_of_le_of_lt (Forward.length_le s) few
  · cases found : φ a with
    | true => exact taken a found
    | false => exact other a found

theorem zero : Steady (State.Below 0) p q :=
  ⟨fun _ few => absurd few (Nat.not_lt_zero _), fun _ few => absurd few (Nat.not_lt_zero _)⟩

theorem of_succeeds (succeeds : ∀ s, (p s).1 ≠ none) : Steady S p p :=
  ⟨fun _ _ => rfl, fun s _ stopped => absurd stopped (succeeds s)⟩

theorem begun (steady : Steady (State.Below n) p q) : Steady (State.Begun n) p q :=
  ⟨fun s few => steady.same s few.2, fun s few => steady.records s few.2⟩

end Steady

/-! Where a parser looks at what comes next. -/

instance (a : α) : Steady S (Pure.pure a : Parser α) (Pure.pure a) :=
  .of_succeeds fun _ => nofun

instance [Forward p] [first : Steady (State.Below n) p q] [next : ∀ a, Steady (State.Below n) (f a) (g a)] :
    Steady (State.Below n) (p >>= f) (q >>= g) :=
  first.bind next

instance {f : α → β} [Forward p] [Steady (State.Below n) p q] : Steady (State.Below n) (f <$> p) (f <$> q) :=
  inferInstanceAs (Steady (State.Below n) (p >>= fun a => pure (f a)) (q >>= fun a => pure (f a)))

instance {c : Prop} [Decidable c] {yes yes' no no' : Parser α} [holds : Steady S yes yes'] [fails : Steady S no no'] :
    Steady S (if c then yes else no) (if c then yes' else no') := by
  split
  · exact holds
  · exact fails

instance : Steady S peek peek :=
  .of_succeeds fun _ => nofun

instance : Steady S peekKind peekKind :=
  .of_succeeds fun _ => nofun

instance : Steady S peekTwo peekTwo :=
  .of_succeeds fun _ => nofun

instance : Steady S skip skip :=
  .of_succeeds fun _ => nofun

instance (mistake : Mistake) : Steady S (report mistake) (report mistake) :=
  .of_succeeds fun _ => nofun

instance (name : Name) (mistake : Mistake) : Steady S (reportAt name mistake) (reportAt name mistake) :=
  .of_succeeds fun _ => nofun

instance (wrong : Bool) (mistake : Mistake) : Steady S (reportIf wrong mistake) (reportIf wrong mistake) :=
  inferInstanceAs (Steady S (if wrong then report mistake else pure ()) (if wrong then report mistake else pure ()))

theorem length_lt_record (s : State) (place : Place) (mistake : Mistake) :
    s.errors.length < (s.record place mistake).errors.length := by
  rw [State.record, List.length_append]
  exact Nat.lt_succ_self _

instance (mistake : Mistake) : Steady S (fail mistake : Parser α) (fail mistake) :=
  ⟨fun _ _ => rfl, fun s _ _ => length_lt_record s s.place mistake⟩

instance (name : Name) (mistake : Mistake) :
    Steady S (reportAt name mistake >>= fun _ => (giveUp : Parser α)) (reportAt name mistake >>= fun _ => giveUp) :=
  ⟨fun _ _ => rfl, fun s _ _ => length_lt_record s (.at name) mistake⟩

instance (select : TokenKind → Option α) : Steady S (acceptMap select) (acceptMap select) := by
  refine .of_succeeds fun s => ?_
  unfold acceptMap
  split
  · exact nofun
  · split <;> exact nofun

instance (kind : TokenKind) : Steady S (accept kind) (accept kind) := by
  refine .of_succeeds fun s => ?_
  unfold accept
  split
  · exact nofun
  · split <;> exact nofun

instance (kind : TokenKind) : Steady (State.Below n) (accepts kind) (accepts kind) :=
  .bind (inferInstanceAs (Steady _ (accept kind) (accept kind))) fun found =>
    inferInstanceAs (Steady _ (pure found.isSome) (pure found.isSome))

instance (kind : TokenKind) (what : String) : Steady (State.Below n) (require kind what) (require kind what) := by
  refine .bind inferInstance fun found => ?_
  cases found <;> infer_instance

instance (kind : TokenKind) [Forward p] [Steady (State.Below n) p q] :
    Steady (State.Below n) (optional kind p) (optional kind q) := by
  unfold optional
  infer_instance

instance (kind : TokenKind) (otherwise : α) [Forward p] [Steady (State.Below n) p q] :
    Steady (State.Below n) (unlessNext kind otherwise p) (unlessNext kind otherwise q) := by
  unfold unlessNext
  infer_instance

/-- Looking at the next token shows whether there is one. -/
theorem Steady.peek_bind {f g : Option Token → Parser β} (atEnd : Steady (State.Below n) (f none) (g none))
    (next : ∀ t, Steady (State.Begun n) (f (some t)) (g (some t))) :
    Steady (State.Below n) (peek >>= f) (peek >>= g) := by
  refine into (T := fun x => if x.isSome then State.Begun n else State.Below n) inferInstance ?_ fun x => ?_
  · intro s x few found
    cases found
    cases rest : s.rest with
    | nil => exact few
    | cons t rest' => exact ⟨rest ▸ List.cons_ne_nil t rest', few⟩
  · cases x with
    | none => exact atEnd
    | some t => exact next t

theorem Steady.peekTwo_bind {f g : Option TokenKind × Option TokenKind → Parser β}
    (atEnd : ∀ second, Steady (State.Below n) (f (none, second)) (g (none, second)))
    (next : ∀ first second, Steady (State.Begun n) (f (some first, second)) (g (some first, second))) :
    Steady (State.Below n) (peekTwo >>= f) (peekTwo >>= g) := by
  refine into (T := fun x => if x.1.isSome then State.Begun n else State.Below n) inferInstance ?_ fun x => ?_
  · intro s x few found
    cases found
    cases rest : s.rest with
    | nil => exact few
    | cons t rest' => exact ⟨rest ▸ List.cons_ne_nil t rest', few⟩
  · obtain ⟨first, second⟩ := x
    cases first with
    | none => exact atEnd second
    | some first => exact next first second

theorem Steady.peekTwo_bind_begun {f g : Option TokenKind × Option TokenKind → Parser β}
    (next : ∀ x, Steady (State.Begun n) (f x) (g x)) :
    Steady (State.Begun n) (peekTwo >>= f) (peekTwo >>= g) :=
  .into inferInstance (fun s x here found => by cases found; exact here) next

theorem Steady.skip_bind {f g : Unit → Parser β} (less : n ≤ k + 1) (next : Steady (State.Below k) (f ()) (g ())) :
    Steady (State.Begun n) (skip >>= f) (skip >>= g) := by
  refine into (T := fun _ => State.Below k) inferInstance (fun s _ here _ => ?_) fun _ => next
  obtain ⟨begun, few⟩ := here
  have some := List.length_pos_iff.mpr begun
  change (s.rest.drop 1).length < k
  rw [List.length_drop]
  omega

/-! Tokens that are taken. -/

theorem Advances.before {f : α → Parser β} [first : Advances p] (next : ∀ a, Forward (f a)) : Advances (p >>= f) := by
  refine ⟨fun s b => ?_⟩
  have shorter := first.shorter s
  rw [bind_apply]
  cases done : p s with
  | mk result middle =>
    rw [done] at shorter
    cases result with
    | none => exact nofun
    | some a => exact fun _ => Nat.lt_of_le_of_lt ((next a).length_le middle) (shorter a rfl)

theorem Advances.bind {f : α → Parser β} [first : Forward p] (next : ∀ a, Advances (f a)) : Advances (p >>= f) := by
  refine ⟨fun s b => ?_⟩
  have least := first.length_le s
  rw [bind_apply]
  cases done : p s with
  | mk result middle =>
    rw [done] at least
    cases result with
    | none => exact nofun
    | some a => exact fun found => Nat.lt_of_lt_of_le ((next a).shorter middle b found) least

instance {f : α → Parser β} [Advances p] [next : ∀ a, Forward (f a)] : Advances (p >>= f) :=
  .before next

instance {f : α → Parser β} [Forward p] [next : ∀ a, Advances (f a)] : Advances (p >>= f) :=
  .bind next

instance {f : α → β} [Advances p] : Advances (f <$> p) :=
  inferInstanceAs (Advances (p >>= fun a => pure (f a)))

instance {c : Prop} [Decidable c] {yes no : Parser α} [holds : Advances yes] [fails : Advances no] :
    Advances (if c then yes else no) := by
  split
  · exact holds
  · exact fails

instance : Advances (giveUp : Parser α) :=
  ⟨fun _ _ => nofun⟩

instance (mistake : Mistake) : Advances (fail mistake : Parser α) :=
  ⟨fun _ _ => nofun⟩

theorem acceptMap_advances (select : TokenKind → Option α) : AdvancesFor Option.isSome (acceptMap select) := by
  intro s x
  unfold acceptMap
  split
  · rintro ⟨⟩ ⟨⟩
  · rename_i t rest found
    split
    · exact fun _ _ => by rw [found]; exact Nat.lt_succ_self _
    · rintro ⟨⟩ ⟨⟩

theorem accept_advances (kind : TokenKind) : AdvancesFor Option.isSome (accept kind) := by
  intro s x
  unfold accept
  split
  · rintro ⟨⟩ ⟨⟩
  · rename_i t rest found
    split
    · exact fun _ _ => by rw [found]; exact Nat.lt_succ_self _
    · rintro ⟨⟩ ⟨⟩

/-- What has been taken for one result is taken when others are ruled out. -/
theorem AdvancesFor.bind {φ : α → Bool} {ψ : β → Bool} (advances : AdvancesFor φ p) (next : ∀ a, Forward (f a))
    (others : ∀ a, φ a = false → ∀ s b, (f a s).1 = some b → ψ b = false) : AdvancesFor ψ (p >>= f) := by
  intro s b
  have shorter := advances s
  rw [bind_apply]
  cases done : p s with
  | mk result middle =>
    rw [done] at shorter
    cases result with
    | none => exact nofun
    | some a =>
      intro found kept
      cases taken : φ a with
      | true => exact Nat.lt_of_le_of_lt ((next a).length_le middle) (shorter a rfl taken)
      | false => cases (others a taken middle b found).symm.trans kept

theorem accepts_advances (kind : TokenKind) : AdvancesFor id (accepts kind) :=
  (accept_advances kind).bind (fun _ => inferInstance) fun a none s b found => by
    cases found
    exact none

theorem AdvancesFor.peek_bind {φ : β → Bool} {f : Option Token → Parser β} (atEnd : AdvancesFor φ (f none))
    (next : ∀ t, AdvancesOnce φ (f (some t))) : AdvancesFor φ (peek >>= f) := by
  intro s b
  cases s with
  | mk rest endLine errors =>
    cases rest with
    | nil => exact atEnd _ b
    | cons t rest => exact next t _ b (List.cons_ne_nil t rest)

theorem AdvancesOnce.skip_bind {φ : β → Bool} {f : Unit → Parser β} [next : Forward (f ())] :
    AdvancesOnce φ (skip >>= f) := by
  intro s b begun _ _
  have some := List.length_pos_iff.mpr begun
  have least : ((skip >>= f) s).2.rest.length ≤ (s.rest.drop 1).length := next.length_le _
  rw [List.length_drop] at least
  omega

theorem AdvancesOnce.peekTwo_bind {φ : β → Bool} {f : Option TokenKind × Option TokenKind → Parser β}
    (next : ∀ x, AdvancesOnce φ (f x)) : AdvancesOnce φ (peekTwo >>= f) :=
  fun s b => next _ s b

theorem AdvancesFor.pure {φ : α → Bool} {a : α} (not : φ a = false) : AdvancesFor φ (Pure.pure a : Parser α) := by
  intro s b found held
  cases found
  cases not.symm.trans held

theorem AdvancesFor.once {φ : α → Bool} (advances : AdvancesFor φ p) : AdvancesOnce φ p :=
  fun s a _ => advances s a

instance (kind : TokenKind) (what : String) : Advances (require kind what) := by
  have advances : AdvancesFor (fun _ => true) (require kind what) := by
    refine (accept_advances kind).bind (fun found => ?_) fun found none s t done => ?_
    · cases found <;> infer_instance
    · cases found with
      | none => cases done
      | some t => cases none
  exact ⟨fun s t done => advances s t done rfl⟩

/-! Loops. -/

/-- The budget of a loop is enough for all tokens, with one to spare. -/
theorem Steady.budget_into {f g : Budget → Parser β}
    (next : ∀ fuel : Budget, Steady (State.Below (min n fuel.length)) (f fuel) (g fuel)) :
    Steady (State.Below n) (budget >>= f) (budget >>= g) := by
  refine into (T := fun fuel => State.Below (min n fuel.length)) (.of_succeeds fun _ => nofun) ?_ next
  intro s fuel few found
  cases found
  have few : s.rest.length < n := few
  change s.rest.length < min n (s.rest.length + 1)
  omega

theorem Looping.mono {p q : Budget → Parser α} (loop : Looping n p q) (fewer : m ≤ n) : Looping m p q :=
  ⟨fun fuel fuel' => (loop.steady fuel fuel').mono (by omega)⟩

theorem Looping.same_budget {p q : Budget → Parser α} [loop : Looping n p q] (fuel : Budget) :
    Steady (State.Below (min n fuel.length)) (p fuel) (q fuel) :=
  (loop.steady fuel fuel).mono (by omega)

instance {p q : Budget → Parser α} [Looping n p q] :
    Steady (State.Below n) (budget >>= fun fuel => p fuel) (budget >>= fun fuel => q fuel) :=
  .budget_into Looping.same_budget

theorem Steady.loop_bind {p q : Budget → Parser α} [Looping n p q] [∀ fuel, Forward (p fuel)]
    (next : ∀ a, Steady (State.Below n) (f a) (g a)) :
    Steady (State.Below n) (budget >>= fun fuel => p fuel >>= f) (budget >>= fun fuel => q fuel >>= g) :=
  .budget_into fun fuel => (Looping.same_budget fuel).bind fun a => (next a).mono (Nat.min_le_left ..)

instance {p q : Budget → Parser α} [Looping n p q] [∀ fuel, Forward (p fuel)]
    [next : ∀ a, Steady (State.Below n) (f a) (g a)] :
    Steady (State.Below n) (budget >>= fun fuel => p fuel >>= f) (budget >>= fun fuel => q fuel >>= g) :=
  .loop_bind next

theorem Looping.of_rounds {γ : Type} {p q : γ → Budget → Parser α}
    (round : ∀ c t t' fuel fuel' k, (∀ c', Steady (State.Below (min n k)) (p c' fuel) (q c' fuel')) →
      Steady (State.Below (min n (k + 1))) (p c (t :: fuel)) (q c (t' :: fuel'))) (c : γ) : Looping n (p c) (q c) := by
  refine ⟨fun fuel fuel' => ?_⟩
  induction fuel generalizing fuel' c with
  | nil => exact Steady.zero.mono (by simp)
  | cons t fuel ih =>
    cases fuel' with
    | nil => exact Steady.zero.mono (by simp)
    | cons t' fuel' =>
      have again := round c t t' fuel fuel' (min fuel.length fuel'.length) fun c' => ih c' fuel'
      exact again.mono (by simp only [List.length_cons]; omega)

theorem min_succ_le (n k : Nat) : min n (k + 1) ≤ min n k + 1 := by
  omega

section Items

variable {item item' : Parser α} [Forward item] [each : Steady (State.Below n) item item']

instance : Looping n (commaSeparated item) (commaSeparated item') := by
  refine .of_rounds (p := fun _ => commaSeparated item) (q := fun _ => commaSeparated item')
    (fun _ t t' fuel fuel' k again => ?_) ()
  refine .bind (each.mono (Nat.min_le_left ..)) fun first => ?_
  refine .branch inferInstance (accepts_advances .comma) (min_succ_le n k) ?_ ?_
  · rintro _ ⟨⟩
    exact (again ()).bind fun _ => inferInstance
  · rintro _ ⟨⟩
    exact inferInstanceAs (Steady _ (pure _) (pure _))

instance (what : String) (count : Nat) :
    Looping n (commaSeparatedLimited item what count) (commaSeparatedLimited item' what count) := by
  refine .of_rounds (fun count t t' fuel fuel' k again => ?_) count
  refine .bind inferInstance fun _ => .bind (each.mono (Nat.min_le_left ..)) fun first => ?_
  refine .branch inferInstance (accepts_advances .comma) (min_succ_le n k) ?_ ?_
  · rintro _ ⟨⟩
    exact (again (count + 1)).bind fun _ => inferInstance
  · rintro _ ⟨⟩
    exact inferInstanceAs (Steady _ (pure _) (pure _))

instance [Advances item] : Looping n (untilBrace item) (untilBrace item') := by
  refine .of_rounds (p := fun _ => untilBrace item) (q := fun _ => untilBrace item')
    (fun _ t t' fuel fuel' k again => ?_) ()
  refine .bind inferInstance fun next => ?_
  have one := each.mono (m := min n (k + 1)) (Nat.min_le_left ..)
  split
  · infer_instance
  · infer_instance
  · exact one.take (min_succ_le n k) fun first => (again ()).bind fun _ => inferInstance

end Items

end Parser

end Treewalk.Grammar
