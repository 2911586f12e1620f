import Treewalk.Proofs.ForLoop
import Treewalk.Proofs.Settled

/-!
Times round a loop, on two machines of which the first copies the variable of the loop and the second does not.
While a round is on, the variable is in focus: what the first machine has in the copy the second one has at home.
When it is over the copy has been written back, nothing reaches its scope any more, and the variable is the same
on both machines again.
-/

namespace Treewalk

open Tie

variable {home : Ref .scope} {name : String} {past : Ref .scope → Prop} {pace : Pace} {m n : Machine}
  {S : Array Scope} {err : String}

/-- Two machines between two rounds. The variable lives at home, and the scopes of past rounds are dead. -/
def Tie.between (home : Ref .scope) (past : Ref .scope → Prop) (pace : Pace) : Tie where
  own r := r = home ∨ past r
  dead r := past r ∧ r ≠ home
  focus := none
  before := ("", "")
  pace := pace
  dead_own _ old := .inr old.1
  focus_own _ impossible := by cases impossible
  focus_alive _ impossible := by cases impossible

/-- Two machines during a round, which has a scope for the copy. -/
def Tie.during (home copy : Ref .scope) (name : String) (apart : copy ≠ home) (past : Ref .scope → Prop)
    (pace : Pace) : Tie where
  own r := r = home ∨ r = copy ∨ past r
  dead r := past r ∧ r ≠ home ∧ r ≠ copy
  focus := some ⟨home, copy, name, apart⟩
  before := ("", "")
  pace := pace
  dead_own _ old := .inr (.inr old.1)
  focus_own f found := by
    cases found
    exact ⟨.inl rfl, .inr (.inl rfl)⟩
  focus_alive f found := by
    cases found
    exact ⟨fun old => old.2.1 rfl, fun old => old.2.2 rfl⟩

/-! What the two machines have in common. -/

/-- Two machines that differ in a loop at most: in what is bound in its own scope, and in those of its rounds,
which are right inside it. -/
structure Machine.SameOutside (home : Ref .scope) (m n : Machine) : Prop where
  others : n = m.beside n.heap.scopes m.err
  size : n.heap.scopes.size = m.heap.scopes.size
  enclosing : ∀ r, (n.heap.scope r).enclosing = (m.heap.scope r).enclosing
  scopes : ∀ r, r ≠ home → (m.heap.scope r).enclosing ≠ some home → n.heap.scope r = m.heap.scope r

theorem Machine.SameOutside.inScope (same : m.SameOutside home n) (r : Ref .scope) :
    Machine.SameOutside home { m with scope := r } { n with scope := r } where
  others := by
    rw [same.others]
    rfl
  size := same.size
  enclosing := same.enclosing
  scopes := same.scopes

theorem Tie.Holds.sameOutside {T : Tie} (held : T.Holds m S err) (texts : T.before = ("", ""))
    (within : ∀ r, T.own r → r = home ∨ (m.heap.scope r).enclosing = some home) :
    m.SameOutside home (m.beside S err) where
  others := by
    obtain ⟨text, first, second⟩ := held.err
    have same : err = m.err := by rw [first, second, texts]
    rw [same]
    rfl
  size := held.alike.size
  enclosing := held.alike.enclosing
  scopes r notHome notRound := by
    apply held.alike.same
    intro mine
    exact (within r mine).elim notHome notRound

/-! One round. -/

/-- What holds between two rounds, when both machines are at home. -/
structure Between (home : Ref .scope) (name : String) (past : Ref .scope → Prop) (pace : Pace) (m : Machine)
    (S : Array Scope) (err : String) : Prop where
  held : (Tie.between home past pace).Holds m S err
  scope : m.scope = home
  seated : (Tie.between home past pace).Seated m.heap (.inside none) home
  bound : (m.heap.here? home name).isSome = true
  rounds : ∀ r, past r → (m.heap.scope r).enclosing = some home

def roundScope (home : Ref .scope) (name : String) (cell : Cell) : Scope :=
  ⟨some home, NameMap.empty.insert name cell⟩

/-- The copy is written back on the first machine, and the second one has had the variable at home all along. -/
theorem Tie.Alike.writtenBack {h h' : Heap} {copy : Ref .scope} {apart : copy ≠ home} {cell : Cell}
    (alike : (Tie.during home copy name apart past pace).Alike h h') (inside : home.index < h.scopes.size)
    (found : h.here? copy name = some cell) :
    (Tie.between home (fun r => r = copy ∨ past r) pace).Alike (h.define home name cell) h' := by
  refine ⟨?_, fun r => ?_, fun r away => ?_, fun r other alive _ => ?_, fun f focus => by cases focus⟩
  · rw [alike.size]
    simp [Heap.define]
  · rw [Heap.scope_define, alike.enclosing]
    split <;> rfl
  · have elsewhere : home.index ≠ r.index := fun same => away (.inl (Ref.ext_index same.symm))
    rw [Heap.scope_define, if_neg fun hit => elsewhere hit.1]
    exact alike.same r away
  · rw [Heap.here?_define]
    by_cases here : r = home
    · subst here
      by_cases same : other = name
      · subst same
        rw [if_pos ⟨rfl, rfl, inside⟩, ← found]
        exact (alike.moved _ rfl).1
      · rw [if_neg fun hit => same hit.2.1]
        refine alike.here r other (fun dead => dead.2.1 rfl) fun f focus named => ?_
        cases focus
        exact absurd named same
    · have living : r ≠ copy ∧ ¬past r :=
        ⟨fun round => alive ⟨.inl round, here⟩, fun old => alive ⟨.inr old, here⟩⟩
      rw [if_neg fun hit => here hit.1.symm]
      refine alike.here r other (fun dead => living.2 dead.1) fun f focus _ => ?_
      cases focus
      exact ⟨here, living.1⟩

namespace Between

variable (between : Between home name past pace m S err)

include between

theorem inside : home.index < m.heap.scopes.size :=
  between.seated.inside

theorem sameOutside : m.SameOutside home (m.beside S err) :=
  between.held.sameOutside rfl fun r mine => mine.imp_right (between.rounds r)

theorem outer : ∃ p, (m.heap.scope home).enclosing = some p ∧ (Tie.between home past pace).Clear m.heap p := by
  cases between.seated with
  | home _ _ _ around clear => exact ⟨_, around, clear⟩
  | nested _ _ away => exact absurd (.inl rfl) away

theorem later {m' : Machine} {S' : Array Scope} {err' : String}
    (held : (Tie.between home past pace).Holds m' S' err') (later : m.heap.Extends m'.heap)
    (scope : m'.scope = home) : Between home name past pace m' S' err' where
  held := held
  scope := scope
  seated := between.seated.mono later
  bound := later.bound _ _ between.bound
  rounds r old := by rw [later.enclosing r (between.held.guarded.own r (.inr old)), between.rounds r old]

theorem fresh : (⟨m.heap.scopes.size⟩ : Ref .scope) ≠ home := by
  intro same
  have inside := between.inside
  rw [← same] at inside
  exact Nat.lt_irrefl _ inside

/-- A round begins. The first machine gets a scope with the copy, and the second one an empty scope. -/
theorem opens_alike {cell : Cell} (found : m.heap.here? home name = some cell) :
    (Tie.during home ⟨m.heap.scopes.size⟩ name between.fresh past pace).Alike
      (m.heap.addScope (roundScope home name cell)).2 ((m.heap.rescoped S).addScope ⟨some home, .empty⟩).2 := by
  have alike := between.held.alike
  have size : S.size = m.heap.scopes.size := alike.size
  have old {r : Ref .scope} (notCopy : r ≠ ⟨m.heap.scopes.size⟩) : r.index ≠ m.heap.scopes.size :=
    fun same => notCopy (Ref.ext_index same)
  refine ⟨by simp [Heap.addScope, Heap.rescoped, size], fun r => ?_, fun r away => ?_,
    fun r other alive apart => ?_, fun f focus => ?_⟩
  · rw [Heap.scope_addScope, Heap.scope_addScope, alike.size]
    split
    · rfl
    · exact alike.enclosing r
  · have notCopy : r ≠ ⟨m.heap.scopes.size⟩ := fun same => away (.inr (.inl same))
    rw [Heap.scope_addScope, Heap.scope_addScope, alike.size, if_neg (old notCopy), if_neg (old notCopy)]
    exact alike.same r fun mine => away (mine.imp_right .inr)
  · rw [Heap.here?_addScope, Heap.here?_addScope, alike.size]
    by_cases copy : r = ⟨m.heap.scopes.size⟩
    · have different : other ≠ name := fun same => (apart _ rfl same).2 copy
      rw [if_pos (congrArg Ref.index copy), if_pos (congrArg Ref.index copy), roundScope,
        NameMap.find?_insert_of_ne _ different]
    · rw [if_neg (old copy), if_neg (old copy)]
      exact alike.here r other (fun dead => alive ⟨dead.1, dead.2, copy⟩) (by simp [Tie.between])
  · cases focus
    have same := alike.here home name (fun dead => dead.2 rfl) (by simp [Tie.between])
    simp only [Heap.here?_addScope, alike.size, if_neg (old between.fresh.symm), if_true, same, found, roundScope,
      NameMap.find?_insert_self, NameMap.find?_empty, Option.isSome_some, and_self]

/-- Of the scopes that were there before a round only those of the loop are set apart during it. -/
theorem own_before {r : Ref .scope} (inside : r.index < m.heap.scopes.size)
    (mine : (Tie.during home ⟨m.heap.scopes.size⟩ name between.fresh past pace).own r) :
    (Tie.between home past pace).own r := by
  rcases mine with mine | rfl | old
  · exact .inl mine
  · exact absurd inside (Nat.lt_irrefl _)
  · exact .inr old

theorem opens_guarded (cell : Cell) : (Tie.during home ⟨m.heap.scopes.size⟩ name between.fresh past pace).Guarded
    (m.heap.addScope (roundScope home name cell)).2 := by
  have around : ∀ p ∈ (roundScope home name cell).enclosing, p.index < m.heap.scopes.size := by
    intro p member
    cases member
    exact between.inside
  have size : (m.heap.addScope (roundScope home name cell)).2.scopes.size = m.heap.scopes.size + 1 := by
    simp [Heap.addScope]
  apply between.held.guarded.transfer (.addScope _ _) (between.held.guarded.addScope around).older ?_
    (fun r => between.own_before) rfl
  intro r mine
  rw [size]
  by_cases copy : r.index = m.heap.scopes.size
  · exact copy ▸ Nat.lt_succ_self _
  · have old : (Tie.between home past pace).own r :=
      mine.imp_right fun round => round.resolve_left fun same => copy (congrArg Ref.index same)
    exact Nat.lt_succ_of_lt (between.held.guarded.own r old)

theorem opens_seated (cell : Cell) :
    (Tie.during home ⟨m.heap.scopes.size⟩ name between.fresh past pace).Seated
      (m.heap.addScope (roundScope home name cell)).2 (.inside (some (name, 0))) ⟨m.heap.scopes.size⟩ := by
  obtain ⟨p, around, clear⟩ := between.outer
  have later := Heap.Extends.addScope m.heap (roundScope home name cell)
  have inside : m.heap.scopes.size < (m.heap.addScope (roundScope home name cell)).2.scopes.size := by
    simp [Heap.addScope]
  refine .copy rfl inside ?_ ((later.enclosing home between.inside).trans around)
    (clear.transfer later fun _ => between.own_before)
  rw [Heap.scope_addScope, if_pos rfl]
  rfl

theorem closes {m' : Machine} {S' : Array Scope} {err' : String} {cell : Cell}
    (held : (Tie.during home ⟨m.heap.scopes.size⟩ name between.fresh past pace).Holds m' S' err')
    (later : m.heap.Extends m'.heap) (scope : m'.scope = home)
    (around : (m'.heap.scope ⟨m.heap.scopes.size⟩).enclosing = some home)
    (found : m'.heap.here? ⟨m.heap.scopes.size⟩ name = some cell) :
    Between home name (fun r => r = ⟨m.heap.scopes.size⟩ ∨ past r) pace
      { m' with heap := m'.heap.define home name cell } S' err' := by
  have inside : home.index < m'.heap.scopes.size := Nat.lt_of_lt_of_le between.inside later.scopes
  have defined := Heap.Extends.define m'.heap home name cell
  have further := later.trans defined
  obtain ⟨p, outside, clear⟩ := between.outer
  have guarded := held.guarded.define home name cell
  refine ⟨⟨held.err, held.alike.writtenBack inside found, ?_, ?_⟩, scope, ?_, ?_, ?_⟩
  · exact guarded.transfer (.refl _) guarded.older (fun r mine => guarded.own r mine) (fun r _ mine => mine) rfl
  · exact Nat.lt_of_lt_of_le held.scope defined.scopes
  · refine .home rfl (Nat.lt_of_lt_of_le inside defined.scopes) (fun dead => dead.2 rfl)
      ((further.enclosing home between.inside).trans outside) ?_
    exact clear.transfer further fun r old mine => between.own_before old mine
  · rw [Heap.here?_define, if_pos ⟨rfl, rfl, inside⟩]
    rfl
  · rintro r (rfl | old)
    · rw [defined.enclosing _ (Heap.lt_of_enclosing (by rw [around]; rfl)), around]
    · rw [further.enclosing r (between.held.guarded.own r (.inr old)), between.rounds r old]

/-- A round is broken off, and the copy is not written back. -/
theorem breaks {m' : Machine} {S' : Array Scope} {err' : String}
    (held : (Tie.during home ⟨m.heap.scopes.size⟩ name between.fresh past pace).Holds m' S' err')
    (later : m.heap.Extends m'.heap)
    (around : (m'.heap.scope ⟨m.heap.scopes.size⟩).enclosing = some home) :
    m'.SameOutside home (m'.beside S' err') := by
  apply held.sameOutside rfl
  rintro r (mine | rfl | old)
  · exact .inl mine
  · exact .inr around
  · exact .inr ((later.enclosing r (between.held.guarded.own r (.inr old))).trans (between.rounds r old))

end Between

/-! What parts of the loop come to. -/

theorem Evaluator.copyNames_one {source target : Ref .scope} {x : Name} {cell : Cell}
    (found : m.heap.here? source x.text = some cell) :
    copyNames source target [x] m = .done (.ok () { m with heap := m.heap.define target x.text cell }) := by
  have read : (Run.reading (·.here? source x.text) : Run (Option Cell)) m = .done (.ok (some cell) m) := by
    rw [← found]
    rfl
  unfold copyNames
  change Run.bind _ _ m = _
  rw [Run.bind, read]
  rfl

/-- How a part of the loop ends on the two machines: both are between two rounds, or both have stopped for the
same reason, or one of them is out of fuel before the other. -/
inductive Ends (home : Ref .scope) (name : String) (pace : Pace) : Outcome α → Outcome α → Prop where
  | ok {past : Ref .scope → Prop} {m : Machine} {S : Array Scope} {err : String} (a : α)
      (between : Between home name past pace m S err) : Ends home name pace (.ok a m) (.ok a (m.beside S err))
  | error {m n : Machine} (reason : Stop) (same : m.SameOutside home n) :
      Ends home name pace (.error reason m) (.error reason n)
  | first {m : Machine} {outcome : Outcome α} (ahead : pace = .first) :
      Ends home name pace (.error .outOfFuel m) outcome
  | second {m : Machine} {outcome : Outcome α} (ahead : pace = .second) :
      Ends home name pace outcome (.error .outOfFuel m)

variable {act act' : (a : Activity) → Machine → Outcome a.Result} {fuel fuel' : Nat}

theorem Ends.bind {c c' : Run α} {f f' : α → Run β}
    (first : Ends home name pace ((c m).outcome act) ((c' n).outcome act'))
    (next : ∀ past m S err a, Between home name past pace m S err →
      Ends home name pace ((f a m).outcome act) ((f' a (m.beside S err)).outcome act')) :
    Ends home name pace (((c >>= f) m).outcome act) (((c' >>= f') n).outcome act') := by
  rw [Run.outcome_bind, Run.outcome_bind]
  generalize (c m).outcome act = left at first
  generalize (c' n).outcome act' = right at first
  cases first with
  | ok a between => exact next _ _ _ _ a between
  | error reason same => exact .error reason same
  | first ahead => exact .first ahead
  | second ahead => exact .second ahead

namespace Between

theorem ends {c c' : Run α} (between : Between home name past pace m S err)
    (matched : (Tie.between home past pace).Matches m.heap home Same c c')
    (synchronous : (Tie.between home past pace).Synchronous act act') :
    Ends home name pace ((c m).outcome act) ((c' (m.beside S err)).outcome act') := by
  have agree := (matched m S err between.held (.refl _) between.scope).outcome synchronous
  generalize (c m).outcome act = left at agree
  generalize (c' (m.beside S err)).outcome act' = right at agree
  cases agree with
  | ok held later scope same =>
    cases same
    exact .ok _ (between.later held later scope)
  | error reason held later scope => exact .error reason (between.later held later scope).sameOutside
  | first ahead => exact .first ahead
  | second ahead => exact .second ahead

theorem round {body body' : Stmt} {x : Name} (between : Between home x.text past pace m S err)
    (paired : Paired (.inside (some (x.text, 0))) (.stmt body) (.stmt body')) (fuels : pace.Fuels fuel fuel') :
    Ends home x.text pace ((Evaluator.iteration body [x] m).outcome (perform fuel))
      (perform (fuel' + 1) (.stmt (.block [body'])) (m.beside S err)) := by
  obtain ⟨cell, found⟩ := Option.isSome_iff_exists.mp between.bound
  obtain rfl := between.scope
  have size : S.size = m.heap.scopes.size := between.held.alike.size
  have copies : m.heap.copies m.scope [x] = NameMap.empty.insert x.text cell := by
    simp [Heap.copies, found]
  let start : Machine := { m with heap := (m.heap.addScope (roundScope m.scope x.text cell)).2 }
  have held : (Tie.during m.scope ⟨m.heap.scopes.size⟩ x.text between.fresh past pace).Holds start
      (S.push ⟨some m.scope, .empty⟩) err :=
    ⟨between.held.err, between.opens_alike found, between.opens_guarded cell,
      Nat.lt_of_lt_of_le between.inside (Heap.Extends.addScope _ _).scopes⟩
  have agree := (Evaluator.block_matches (between.opens_seated cell) (.moreStmts paired .noStmts) start _ _ held
    (.refl _) rfl).outcome (perform_synchronous fuels)
  have right : perform (fuel' + 1) (.stmt (.block [body'])) (m.beside S err) =
      (Evaluator.block ⟨m.heap.scopes.size⟩ [body'] (start.beside (S.push ⟨some m.scope, .empty⟩) err)).outcome
        (perform fuel') := by
    rw [← size]
    rfl
  have left : Evaluator.iteration body [x] m =
      (Evaluator.block ⟨m.heap.scopes.size⟩ [body] >>= fun signal =>
        Evaluator.copyNames ⟨m.heap.scopes.size⟩ m.scope [x] >>= fun _ => pure signal) start := by
    simp only [start, roundScope, ← copies]
    rfl
  rw [left, right, Run.outcome_bind]
  generalize (Evaluator.block ⟨m.heap.scopes.size⟩ [body] start).outcome (perform fuel) = first at agree
  generalize (Evaluator.block ⟨m.heap.scopes.size⟩ [body'] _).outcome (perform fuel') = second at agree
  have around {h : Heap} (later : start.heap.Extends h) :
      (h.scope ⟨m.heap.scopes.size⟩).enclosing = some m.scope := by
    rw [later.enclosing _ (between.opens_seated cell).inside, Heap.scope_addScope, if_pos rfl]
    rfl
  have begun := Heap.Extends.addScope m.heap (roundScope m.scope x.text cell)
  cases agree with
  | @ok m' S' err' signal _ held' later scope same =>
    cases same
    obtain ⟨written, copied⟩ := Option.isSome_iff_exists.mp (held'.alike.moved _ rfl).2.1
    have back : (Evaluator.copyNames ⟨m.heap.scopes.size⟩ m.scope [x] >>= fun _ => pure signal) m' =
        .done (.ok signal { m' with heap := m'.heap.define m.scope x.text written }) := by
      change Run.bind _ _ m' = _
      rw [Run.bind, Evaluator.copyNames_one copied]
      rfl
    simp only [back]
    exact .ok signal (between.closes held' (begun.trans later) scope (around later) copied)
  | error reason held' later =>
    exact .error reason (between.breaks held' (begun.trans later) (around later))
  | first ahead => exact .first ahead
  | second ahead => exact .second ahead

/-- All rounds, by induction on how many of them the fuel allows. The condition and the increment are evaluated
between rounds, where the variable is at home on both machines. -/
theorem loop {f : ForLoop} {body : Stmt} {turns turns' : Nat}
    (between : Between home f.decl.name.text past pace m S err) (paired : f.PairedWith body)
    (often : pace.Fuels turns turns') (inside : pace.Fuels fuel fuel') (outside : pace.Fuels fuel (fuel' + 1)) :
    Ends home f.decl.name.text pace
      ((Evaluator.whileLoop f.condition (Evaluator.iteration f.body [f.decl.name]) f.increment turns m).outcome
        (perform fuel))
      ((Evaluator.whileLoop f.condition (Run.exec (.block [body])) f.increment turns' (m.beside S err)).outcome
        (perform (fuel' + 1))) := by
  induction often generalizing past m S err with
  | first ahead => exact .first ahead
  | second ahead => exact .second ahead
  | out => exact .error _ between.sameOutside
  | more _ ih =>
    refine .bind (between.ends (.eval between.seated paired.condition) (perform_synchronous outside)) ?_
    intro past₁ m₁ S₁ err₁ decided between₁
    cases decided.isTruthy with
    | false => exact .ok _ between₁
    | true =>
      refine .bind (between₁.round paired.body inside) fun past₂ m₂ S₂ err₂ signal between₂ => ?_
      have again := Ends.bind (between₂.ends (Evaluator.option_matches between₂.seated paired.increment)
        (perform_synchronous outside)) fun _ _ _ _ _ between₃ => ih between₃
      cases signal with
      | normal | continuing => exact again
      | breaking | returning value | expecting value => exact .ok _ between₂

end Between

end Treewalk
