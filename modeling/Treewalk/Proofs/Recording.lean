import Treewalk.Proofs.Placement
import Treewalk.Proofs.Relabel
import Treewalk.Scoping.Numbering
import Treewalk.Scoping.Resolve
import Treewalk.Scoping.Resolver

/-!
The resolver and resolution by what surrounds a place. Both find the same mistakes. Where there is none, the
resolver comes back to the account that it had before, and the distances that it has written down are those of the
resolved tree.
-/

namespace Treewalk.Scoping

/-- Two tables have the same to say about the ids from one number to another. -/
def Locals.Agree (n n' : Nat) (T E : Locals) : Prop :=
  ∀ id, n ≤ id → id < n' → T.lookup id = E.lookup id

def Locals.Between (n n' : Nat) (E : Locals) : Prop :=
  ∀ entry ∈ E, n ≤ entry.1 ∧ entry.1 < n'

namespace Locals

variable {n n₁ n₂ : Nat} {T E E' : Locals}

theorem lookup_append (id : Nat) : (E' ++ E : Locals).lookup id = (E'.lookup id).or (E.lookup id) :=
  List.lookup_append

theorem Between.lookup (between : E.Between n n₁) {id : Nat} (outside : id < n ∨ n₁ ≤ id) : E.lookup id = none := by
  refine List.lookup_eq_none_iff.mpr fun entry member => ?_
  have := between entry member
  simp only [bne_iff_ne, ne_eq]
  omega

theorem Between.mono {m m' : Nat} (between : E.Between n n₁) (below : m ≤ n) (above : n₁ ≤ m') : E.Between m m' :=
  fun entry member => by
    have := between entry member
    omega

theorem Between.append (later : E'.Between n₁ n₂) (first : E.Between n n₁) (le : n ≤ n₁) (le' : n₁ ≤ n₂) :
    (E' ++ E : Locals).Between n n₂ := by
  intro entry member
  rcases List.mem_append.mp member with member | member
  · exact later.mono le (Nat.le_refl _) entry member
  · exact first.mono (Nat.le_refl _) le' entry member

theorem Agree.first (agree : T.Agree n n₂ (E' ++ E)) (later : E'.Between n₁ n₂) (le : n₁ ≤ n₂) : T.Agree n n₁ E := by
  intro id above below
  rw [agree id above (by omega), lookup_append, later.lookup (.inl below), Option.none_or]

theorem Agree.later (agree : T.Agree n n₂ (E' ++ E)) (first : E.Between n n₁) (le : n ≤ n₁) :
    T.Agree n₁ n₂ E' := by
  intro id above below
  rw [agree id (by omega) below, lookup_append, first.lookup (.inr above), Option.or_none]

/-- A table with entries for ids that are new has the same to say about the old ones. -/
theorem Between.agree_old (later : E'.Between n₁ n₂) : (E' ++ E : Locals).Agree n n₁ E := by
  intro id _ below
  rw [lookup_append, later.lookup (.inl below), Option.none_or]

theorem Between.agree_new (first : E.Between n n₁) : (E' ++ E : Locals).Agree n₁ n₂ E' := by
  intro id above _
  rw [lookup_append, first.lookup (.inr above), Option.or_none]

end Locals

/-- The account of the resolver at a place with these surroundings. -/
structure Resolver.At (c : Context) (r : Resolver) : Prop where
  function : r.function = c.function
  owner : r.owner = c.owner
  loops : c.inLoop = decide (r.around.loops ≠ 0)
  switches : c.inSwitch = decide (r.around.switches ≠ 0)
  tests : c.inTest = decide (r.around.tests ≠ 0)

/-- What the resolver does where resolution by surroundings has the given result. Its table may hold anything
before. -/
inductive Recorded (owner : ClassRole) (n n' : Nat) (given : Locals → Prop) (linked : Locals → α) (bare : α → α)
    (r : Resolver) (record : Record Unit) : EStateM.Result ScopeError Scopes α → Prop where
  | ok {a : α} {scopes : Scopes} (entries : Locals) (t : α) (between : entries.Between n n')
      (runs : ∀ L, record { r with locals := L } =
        .ok () { r with scopes := scopes, owner := owner, locals := entries ++ L })
      (alike : bare t = bare a) (links : ∀ T, given T → T.Agree n n' entries → linked T = t) :
      Recorded owner n n' given linked bare r record (.ok a scopes)
  | error {e : ScopeError} {scopes : Scopes} (entries : Locals) (last : Resolver) (between : entries.Between n n')
      (runs : ∀ L, record { r with locals := L } = .error e { last with locals := entries ++ L })
      (module : last.scopes.moduleName = scopes.moduleName) :
      Recorded owner n n' given linked bare r record (.error e scopes)

/-- The resolver keeps up with resolution by surroundings. It gives distances to ids from `n` on and below `n'`; the
tree that is `linked` to these distances is the resolved one, but for its ids. Where a class begins, the resolver
may come to have another owner than before. -/
structure InStep (c : Context) (owner : ClassRole) (n n' : Nat) (given : Locals → Prop) (linked : Locals → α)
    (bare : α → α) (record : Record Unit) (resolve : Resolve α) : Prop where
  le : n ≤ n'
  recorded : ∀ r : Resolver, r.At c → Recorded owner n n' given linked bare r record (resolve r.scopes)

/-- The resolver keeps up on a tree whose references are numbered from `n` on. -/
abbrev Follows (c : Context) (given : Locals → Prop) (n : Nat) (number : Numbering α)
    (relabel : (Reference → Reference) → α → α) (record : α → Record Unit) (resolve : Resolve α) : Prop :=
  InStep c c.owner n (number n).2 given (fun T => relabel (.link T) (number n).1) (relabel .unnumbered)
    (record (number n).1) resolve

theorem Recorded.weaken {owner : ClassRole} {n n' : Nat} {given given' : Locals → Prop} {linked : Locals → α}
    {bare : α → α} {r : Resolver} {record : Record Unit} {result : EStateM.Result ScopeError Scopes α}
    (held : Recorded owner n n' given linked bare r record result) (known : ∀ T, given' T → given T) :
    Recorded owner n n' given' linked bare r record result := by
  cases held with
  | ok entries t between runs alike links =>
    exact .ok entries t between runs alike fun T holds agree => links T (known T holds) agree
  | error entries last between runs module => exact .error entries last between runs module

theorem Recorded.congr {owner : ClassRole} {n n' : Nat} {given : Locals → Prop} {linked : Locals → α} {bare : α → α}
    {r : Resolver} {record record' : Record Unit} {result : EStateM.Result ScopeError Scopes α}
    (held : Recorded owner n n' given linked bare r record result)
    (same : ∀ L, record' { r with locals := L } = record { r with locals := L }) :
    Recorded owner n n' given linked bare r record' result := by
  cases held with
  | ok entries t between runs alike links =>
    exact .ok entries t between (fun L => (same L).trans (runs L)) alike links
  | error entries last between runs module =>
    exact .error entries last between (fun L => (same L).trans (runs L)) module

theorem Locals.between_nil {n n' : Nat} : Locals.Between n n' [] :=
  fun _ absent => by cases absent

namespace InStep

variable {α β γ δ : Type} {c : Context} {o o' owner : ClassRole} {n n₁ n₂ : Nat} {given : Locals → Prop}
  {linked : Locals → α} {linked' : Locals → β} {bare : α → α} {bare' : β → β}
  {record record' : Record Unit} {resolve : Resolve α} {resolve' : α → Resolve β}

theorem pure {a t : α} (links : ∀ T, given T → linked T = t) (alike : bare t = bare a) :
    InStep c c.owner n n given linked bare (Pure.pure ()) (Pure.pure a) := by
  refine ⟨Nat.le_refl n, fun r here => .ok [] t Locals.between_nil (fun L => ?_) alike fun T held _ => links T held⟩
  rw [← here.owner]
  rfl

theorem weaken {given' : Locals → Prop} (step : InStep c o n n₁ given linked bare record resolve)
    (known : ∀ T, given' T → given T) : InStep c o n n₁ given' linked bare record resolve :=
  ⟨step.le, fun r here => (step.recorded r here).weaken known⟩

theorem congr (step : InStep c o n n₁ given linked bare record resolve)
    (same : ∀ r : Resolver, r.At c → ∀ L, record' { r with locals := L } = record { r with locals := L }) :
    InStep c o n n₁ given linked bare record' resolve :=
  ⟨step.le, fun r here => (step.recorded r here).congr (same r here)⟩

theorem refuse (le : n ≤ n₁) (m : Mistake) (place : Name) :
    InStep c owner n n₁ given linked bare (Scoping.refuse m place) (mistake m place) :=
  ⟨le, fun r _ => .error [] r Locals.between_nil (fun _ => rfl) rfl⟩

theorem scopes {d : Resolve Unit} :
    InStep c c.owner n n given (fun _ => ()) id (onScopes d) d := by
  refine ⟨Nat.le_refl n, fun r here => ?_⟩
  cases done : d r.scopes with
  | ok a scopes =>
    refine .ok [] () Locals.between_nil (fun L => ?_) rfl fun _ _ _ => rfl
    rw [← here.owner]
    simp [onScopes, done]
  | error e scopes =>
    refine .error [] { r with scopes := scopes } Locals.between_nil (fun L => ?_) rfl
    simp [onScopes, done]

theorem scopesOf {d d' : Resolve Unit} (same : d' = d) :
    InStep c c.owner n n given (fun _ => ()) id (onScopes d') d :=
  same ▸ scopes

/-- One step after another. What is asked of the result of the first is also true of some tree if there is none. -/
theorem bindWhere {fits : α → Prop} (first : InStep c o n n₁ given linked bare record resolve)
    (results : ∀ s a s', resolve s = .ok a s' → fits a) (some : fits (linked []))
    (next : ∀ t a, bare t = bare a → fits a → InStep { c with owner := o } o' n₁ n₂
      (fun T => given T ∧ linked T = t) linked' bare' record' (resolve' a)) :
    InStep c o' n n₂ given linked' bare' (record >>= fun _ => record') (resolve >>= resolve') := by
  have le := (next (linked []) (linked []) rfl some).le
  refine ⟨Nat.le_trans first.le le, fun r here => ?_⟩
  have held := first.recorded r here
  cases done : resolve r.scopes with
  | ok a scopes =>
    rw [done] at held
    cases held with
    | ok entries t between runs alike links =>
      have there : Resolver.At { c with owner := o } { r with scopes := scopes, owner := o } :=
        ⟨here.function, rfl, here.loops, here.switches, here.tests⟩
      have rest := (next t a alike (results _ _ _ done)).recorded _ there
      rw [bind_ok done]
      cases done' : resolve' a scopes with
      | ok b scopes' =>
        rw [done'] at rest
        cases rest with
        | ok entries' t' between' runs' alike' links' =>
          refine .ok (entries' ++ entries) t' (between'.append between first.le le) (fun L => ?_) alike' ?_
          · rw [bind_ok (runs L), List.append_assoc]
            exact runs' (entries ++ L)
          · intro T holds agree
            exact links' T ⟨holds, links T holds (agree.first between' le)⟩ (agree.later between first.le)
      | error e scopes' =>
        rw [done'] at rest
        cases rest with
        | error entries' last between' runs' module =>
          refine .error (entries' ++ entries) last (between'.append between first.le le) (fun L => ?_) module
          rw [bind_ok (runs L), List.append_assoc]
          exact runs' (entries ++ L)
  | error e scopes =>
    rw [done] at held
    rw [bind_error done]
    cases held with
    | error entries last between runs module =>
      exact .error entries last (between.mono (Nat.le_refl _) le) (fun L => bind_error (runs L)) module

theorem bind (first : InStep c o n n₁ given linked bare record resolve)
    (next : ∀ t a, bare t = bare a → InStep { c with owner := o } o' n₁ n₂
      (fun T => given T ∧ linked T = t) linked' bare' record' (resolve' a)) :
    InStep c o' n n₂ given linked' bare' (record >>= fun _ => record') (resolve >>= resolve') :=
  first.bindWhere (fun _ _ _ _ => trivial) trivial fun t a alike _ => next t a alike

theorem andThen {resolve : Resolve Unit} {next : Resolve β}
    (first : InStep c o n n given (fun _ => ()) id record resolve)
    (rest : InStep { c with owner := o } o' n n₂ given linked' bare' record' next) :
    InStep c o' n n₂ given linked' bare' (record >>= fun _ => record') (resolve >>= fun _ => next) :=
  bind first fun _ _ _ => rest.weaken fun _ held => held.1

/-- The last step, of which resolution by surroundings makes the tree. -/
theorem last (first : InStep c o n n₁ given linked bare record resolve) (k g : α → β)
    (whole : ∀ T t, given T → linked T = t → linked' T = k t)
    (alike : ∀ t a, bare t = bare a → bare' (k t) = bare' (g a)) :
    InStep c o n n₁ given linked' bare' record (resolve >>= fun a => Pure.pure (g a)) := by
  refine ⟨first.le, fun r here => ?_⟩
  have held := first.recorded r here
  cases done : resolve r.scopes with
  | ok a scopes =>
    rw [done] at held
    rw [bind_ok done]
    cases held with
    | ok entries t between runs same links =>
      exact .ok entries (k t) between runs (alike t a same) fun T holds agree => whole T t holds (links T holds agree)
  | error e scopes =>
    rw [done] at held
    rw [bind_error done]
    cases held with
    | error entries last between runs module => exact .error entries last between runs module

/-- A tree with one part. Its references are those of the part. -/
theorem one (first : InStep c o n n₁ given linked bare record resolve) (k : α → β)
    (links : ∀ T, linked' T = k (linked T) := by exact fun _ => rfl)
    (bares : ∀ a, bare' (k a) = k (bare a) := by exact fun _ => rfl) :
    InStep c o n n₁ given linked' bare' record (resolve >>= fun a => Pure.pure (k a)) := by
  refine first.last k k (fun T t _ same => ?_) fun t a same => ?_
  · rw [links, same]
  · rw [bares, bares, same]

/-- A tree with two parts, of which the second does not depend on what the first has come to. -/
theorem two {linked₂ : Locals → β} {bare₂ : β → β} {resolve₂ : Resolve β} {whole : Locals → γ} {bare₃ : γ → γ}
    (first : InStep c o n n₁ given linked bare record resolve)
    (second : ∀ t, InStep { c with owner := o } o' n₁ n₂ (fun T => given T ∧ linked T = t) linked₂ bare₂ record'
      resolve₂)
    (k : α → β → γ) (links : ∀ T, whole T = k (linked T) (linked₂ T) := by exact fun _ => rfl)
    (bares : ∀ a b, bare₃ (k a b) = k (bare a) (bare₂ b) := by exact fun _ _ => rfl) :
    InStep c o' n n₂ given whole bare₃ (record >>= fun _ => record')
      (do let a ← resolve; let b ← resolve₂; return k a b) := by
  refine first.bind fun t a alike => (second t).last (k t) (k a) (fun T b held same => ?_) fun b b' same => ?_
  · rw [links, held.2, same]
  · rw [bares, bares, alike, same]

theorem three {n₃ : Nat} {last : ClassRole} {linked₂ : Locals → β} {bare₂ : β → β} {record₂ record₃ : Record Unit}
    {resolve₂ : Resolve β} {linked₃ : Locals → γ} {bare₃ : γ → γ} {resolve₃ : Resolve γ} {whole : Locals → δ}
    {bareWhole : δ → δ} (first : InStep c o n n₁ given linked bare record resolve)
    (second : ∀ t, InStep { c with owner := o } o' n₁ n₂ (fun T => given T ∧ linked T = t) linked₂ bare₂ record₂
      resolve₂)
    (third : ∀ t t', InStep { c with owner := o' } last n₂ n₃ (fun T => (given T ∧ linked T = t) ∧ linked₂ T = t')
      linked₃ bare₃ record₃ resolve₃)
    (k : α → β → γ → δ) (links : ∀ T, whole T = k (linked T) (linked₂ T) (linked₃ T) := by exact fun _ => rfl)
    (bares : ∀ a b d, bareWhole (k a b d) = k (bare a) (bare₂ b) (bare₃ d) := by exact fun _ _ _ => rfl) :
    InStep c last n n₃ given whole bareWhole (record >>= fun _ => record₂ >>= fun _ => record₃)
      (do let a ← resolve; let b ← resolve₂; let d ← resolve₃; return k a b d) := by
  refine first.bind fun t a alike => (second t).bind fun t' a' alike' => (third t t').last (k t t') (k a a')
    (fun T b held same => ?_) fun b b' same => ?_
  · rw [links, held.1.2, held.2, same]
  · rw [bares, bares, alike, alike', same]

theorem pair {resolve' : Resolve β} (first : InStep c o n n₁ given linked bare record resolve)
    (second : ∀ t, InStep { c with owner := o } o' n₁ n₂ (fun T => given T ∧ linked T = t) linked' bare' record'
      resolve') :
    InStep c o' n n₂ given (fun T => (linked T, linked' T)) (Prod.map bare bare') (record >>= fun _ => record')
      (do let a ← resolve; let b ← resolve'; return (a, b)) :=
  first.two second Prod.mk

/-- A step with something done before and after it. The resolver then is what it was, but for the scopes and the
table. -/
theorem between {inside : Context} {record' : Record Unit} (enter : Resolver → Resolver)
    (inner : InStep inside o n n₁ given linked bare record resolve)
    (enters : ∀ r, r.At c → (enter r).At inside ∧ (enter r).scopes = r.scopes)
    (leaves : ∀ r L scopes L', r.At c →
      record { enter r with locals := L } = .ok () { enter r with scopes := scopes, owner := o, locals := L' } →
      record' { r with locals := L } = .ok () { r with scopes := scopes, owner := o', locals := L' })
    (fails : ∀ r L e last, record { enter r with locals := L } = .error e last →
      record' { r with locals := L } = .error e last) :
    InStep c o' n n₁ given linked bare record' resolve := by
  refine ⟨inner.le, fun r here => ?_⟩
  obtain ⟨there, same⟩ := enters r here
  have held := inner.recorded (enter r) there
  rw [same] at held
  cases done : resolve r.scopes with
  | ok a scopes =>
    rw [done] at held
    cases held with
    | ok entries t between runs alike links =>
      exact .ok entries t between (fun L => leaves r L scopes _ here (runs L)) alike links
  | error e scopes =>
    rw [done] at held
    cases held with
    | error entries last between runs module =>
      exact .error entries last between (fun L => fails r L e _ (runs L)) module

end InStep

section

variable {α : Type} {c : Context} {o : ClassRole} {n n₁ : Nat} {given : Locals → Prop} {linked : Locals → α}
  {bare : α → α} {body : Record Unit} {resolve : Resolve α}

theorem withLoop_inStep
    (inner : InStep { c with inLoop := true } c.owner n n₁ given linked bare body resolve) :
    InStep c c.owner n n₁ given linked bare (withLoop body) resolve := by
  refine inner.between (fun r => { r with around := { r.around with loops := r.around.loops + 1 } })
    (fun r here => ⟨⟨here.function, here.owner, by simp, here.switches, here.tests⟩, rfl⟩) ?_ ?_
  · intro r L scopes L' _ runs
    exact (bind_ok rfl).trans (bind_ok runs)
  · intro r L e last runs
    exact (bind_ok rfl).trans (bind_error runs)

theorem withSwitch_inStep
    (inner : InStep { c with inSwitch := true } c.owner n n₁ given linked bare body resolve) :
    InStep c c.owner n n₁ given linked bare (withSwitch body) resolve := by
  refine inner.between (fun r => { r with around := { r.around with switches := r.around.switches + 1 } })
    (fun r here => ⟨⟨here.function, here.owner, here.loops, by simp, here.tests⟩, rfl⟩) ?_ ?_
  · intro r L scopes L' _ runs
    exact (bind_ok rfl).trans (bind_ok runs)
  · intro r L e last runs
    exact (bind_ok rfl).trans (bind_error runs)

theorem withTest_inStep
    (inner : InStep { c with inTest := true } c.owner n n₁ given linked bare body resolve) :
    InStep c c.owner n n₁ given linked bare (withTest body) resolve := by
  refine inner.between (fun r => { r with around := { r.around with tests := r.around.tests + 1 } })
    (fun r here => ⟨⟨here.function, here.owner, here.loops, here.switches, by simp⟩, rfl⟩) ?_ ?_
  · intro r L scopes L' _ runs
    exact (bind_ok rfl).trans (bind_ok runs)
  · intro r L e last runs
    exact (bind_ok rfl).trans (bind_error runs)

theorem asFunction_inStep (role : FunctionRole)
    (inner : InStep (c.inFunction role) c.owner n n₁ given linked bare body resolve) :
    InStep c c.owner n n₁ given linked bare (asFunction role body) resolve := by
  refine inner.between (fun r => { r with function := role, around := {} })
    (fun r here => ⟨⟨rfl, here.owner, rfl, rfl, rfl⟩, rfl⟩) ?_ ?_
  · intro r L scopes L' _ runs
    exact (bind_ok rfl).trans ((bind_ok rfl).trans (bind_ok runs))
  · intro r L e last runs
    exact (bind_ok rfl).trans ((bind_ok rfl).trans (bind_error runs))

theorem asOwner_inStep (owner : ClassRole)
    (inner : InStep { c with owner := owner } o n n₁ given linked bare body resolve) :
    InStep c c.owner n n₁ given linked bare (asOwner owner body) resolve := by
  refine inner.between (fun r => { r with owner := owner })
    (fun r here => ⟨⟨here.function, rfl, here.loops, here.switches, here.tests⟩, rfl⟩) ?_ ?_
  · intro r L scopes L' here runs
    rw [← here.owner]
    exact (bind_ok rfl).trans ((bind_ok rfl).trans (bind_ok runs))
  · intro r L e last runs
    exact (bind_ok rfl).trans ((bind_ok rfl).trans (bind_error runs))

theorem withScope_inStep (names : List String) (inner : InStep c o n n₁ given linked bare body resolve) :
    InStep c o n n₁ given linked bare (withScope names body) (inScope names resolve) := by
  refine ⟨inner.le, fun r here => ?_⟩
  let frame := names.foldl (fun frame name => frame.insert name true) NameMap.empty
  let opened : Resolver := { r with scopes := { r.scopes with frames := frame :: r.scopes.frames } }
  have held := inner.recorded opened ⟨here.function, here.owner, here.loops, here.switches, here.tests⟩
  cases done : resolve opened.scopes with
  | ok a scopes =>
    rw [done] at held
    have closed : inScope names resolve r.scopes = .ok a { scopes with frames := scopes.frames.tail } :=
      (bind_ok rfl).trans (bind_ok done)
    rw [closed]
    cases held with
    | ok entries t between runs alike links =>
      exact .ok entries t between (fun L => (bind_ok rfl).trans (bind_ok (runs L))) alike links
  | error e scopes =>
    rw [done] at held
    have failed : inScope names resolve r.scopes = .error e scopes := (bind_ok rfl).trans (bind_error done)
    rw [failed]
    cases held with
    | error entries last between runs module =>
      exact .error entries last between (fun L => (bind_ok rfl).trans (bind_error (runs L))) module

end

/-! References. -/

section

variable {c : Context} {given : Locals → Prop} (n : Nat) (ref : Reference) (otherwise : Mistake)

/-- The distance that a table has for a reference is that of the scope that binds its name. -/
inductive Located (n : Nat) (ref : Reference) (r : Resolver) : Prop where
  | bound (depth : Nat) (found : depthOf r.scopes.frames ref.name.text = some depth)
      (runs : ∀ L, recordLocal { ref with id := n } { r with locals := L } =
        .ok true { r with locals := [(n, depth)] ++ L })
      (links : ∀ T : Locals, T.Agree n (n + 1) [(n, depth)] →
        Reference.link T { ref with id := n } = ⟨ref.name, some depth, n⟩)
  | global (found : depthOf r.scopes.frames ref.name.text = none)
      (runs : ∀ L, recordLocal { ref with id := n } { r with locals := L } = .ok false { r with locals := L })
      (links : ∀ T : Locals, T.Agree n (n + 1) [] → Reference.link T { ref with id := n } = ⟨ref.name, none, n⟩)

theorem located (r : Resolver) : Located n ref r := by
  have linked {T E : Locals} (agree : T.Agree n (n + 1) E) :
      Reference.link T { ref with id := n } = ⟨ref.name, E.lookup n, n⟩ := by
    rw [← agree n (Nat.le_refl n) (Nat.lt_succ_self n)]
    rfl
  cases found : depthOf r.scopes.frames ref.name.text with
  | some depth =>
    refine .bound depth found (fun L => (bind_ok rfl).trans ?_) fun T agree => ?_
    · simp only [found]
      rfl
    · rw [linked agree, List.lookup_cons_self]
  | none =>
    refine .global found (fun L => (bind_ok rfl).trans ?_) fun T agree => linked agree
    simp only [found]
    rfl

theorem recordLocal_inStep :
    InStep c c.owner n (n + 1) given (fun T => Reference.link T { ref with id := n }) Reference.unnumbered
      (do let _ ← recordLocal { ref with id := n }) (locate ref) := by
  refine ⟨Nat.le_succ n, fun r here => ?_⟩
  have resolved : locate ref r.scopes = .ok { ref with depth := depthOf r.scopes.frames ref.name.text } r.scopes := rfl
  rw [resolved, ← here.owner]
  cases located n ref r with
  | bound depth found runs links =>
    rw [found]
    refine .ok [(n, depth)] ⟨ref.name, some depth, n⟩ ?_ (fun L => bind_ok (runs L)) rfl fun T _ agree => links T agree
    intro entry member
    cases List.mem_singleton.mp member
    exact ⟨Nat.le_refl n, Nat.lt_succ_self n⟩
  | global found runs links =>
    rw [found]
    exact .ok [] ⟨ref.name, none, n⟩ Locals.between_nil (fun L => bind_ok (runs L)) rfl fun T _ agree => links T agree

theorem recordBound_inStep :
    InStep c c.owner n (n + 1) given (fun T => Reference.link T { ref with id := n }) Reference.unnumbered
      (recordBound { ref with id := n } otherwise) (locateBound ref otherwise) := by
  refine ⟨Nat.le_succ n, fun r here => ?_⟩
  cases located n ref r with
  | bound depth found runs links =>
    have resolved : locateBound ref otherwise r.scopes = .ok { ref with depth := some depth } r.scopes := by
      refine (bind_ok rfl).trans ?_
      simp only [found]
      rfl
    rw [resolved, ← here.owner]
    refine .ok [(n, depth)] ⟨ref.name, some depth, n⟩ ?_ (fun L => bind_ok (runs L)) rfl fun T _ agree => links T agree
    intro entry member
    cases List.mem_singleton.mp member
    exact ⟨Nat.le_refl n, Nat.lt_succ_self n⟩
  | global found runs links =>
    have resolved : locateBound ref otherwise r.scopes = .error ⟨otherwise, ref.name⟩ r.scopes := by
      refine (bind_ok rfl).trans ?_
      simp only [found]
      rfl
    rw [resolved]
    exact .error [] r Locals.between_nil (fun L => bind_ok (runs L)) rfl

theorem recordUse_inStep :
    InStep c c.owner n (n + 1) given (fun T => Reference.link T { ref with id := n }) Reference.unnumbered
      (recordUse { ref with id := n }) (resolveUse ref) := by
  refine ⟨Nat.le_succ n, fun r here => ?_⟩
  by_cases unready : r.scopes.frames.head?.bind (·.find? ref.name.text) = some false
  · have resolved : resolveUse ref r.scopes = .error ⟨.readInOwnInitializer, ref.name⟩ r.scopes := by
      rw [resolveUse, get_bind, if_pos unready]
      rfl
    rw [resolved]
    exact .error [] r Locals.between_nil (fun L => by rw [recordUse, get_bind, if_pos unready]; rfl) rfl
  · have resolved : resolveUse ref r.scopes = locate ref r.scopes := by
      rw [resolveUse, get_bind, if_neg unready]
    rw [resolved]
    refine ((recordLocal_inStep n ref).recorded r here).congr fun L => ?_
    rw [recordUse, get_bind, if_neg unready]

theorem recordThis_inStep :
    InStep c c.owner n (n + 1) given (fun T => Reference.link T { ref with id := n }) Reference.unnumbered
      (recordThis { ref with id := n }) (resolveThis c ref) := by
  unfold resolveThis
  split
  · rename_i none
    refine (InStep.refuse (Nat.le_succ n) _ _).congr fun r here L => ?_
    rw [recordThis, get_bind, if_pos (here.owner.trans none)]
  · rename_i some
    refine (recordBound_inStep n ref _).congr fun r here L => ?_
    rw [recordThis, get_bind, if_neg fun none => some (here.owner.symm.trans none)]

theorem recordValue_inStep :
    InStep c c.owner n (n + 1) given (fun T => Reference.link T { ref with id := n }) Reference.unnumbered
      (recordValue { ref with id := n }) (resolveValue c ref) := by
  unfold resolveValue
  split
  · rename_i accessor
    refine (recordBound_inStep n ref _).congr fun r here L => ?_
    rw [recordValue, get_bind, if_pos (here.function.trans accessor)]
  · rename_i other
    refine (InStep.refuse (Nat.le_succ n) _ _).congr fun r here L => ?_
    rw [recordValue, get_bind, if_neg fun same => other (here.function.symm.trans same)]

theorem recordSuper_inStep :
    InStep c c.owner n (n + 1) given (fun T => Reference.link T { ref with id := n }) Reference.unnumbered
      (recordSuper { ref with id := n }) (resolveSuper c ref) := by
  have bound : InStep c c.owner n (n + 1) given (fun T => Reference.link T { ref with id := n }) Reference.unnumbered
      (recordBound { ref with id := n } .superHere) (locateBound ref .superHere) :=
    recordBound_inStep n ref .superHere
  unfold resolveSuper
  generalize owner : c.owner = o at bound ⊢
  cases o with
  | derived =>
    refine bound.congr fun r here L => ?_
    rw [recordSuper, get_bind, here.owner.trans owner]
  | none | interface | base =>
    refine (InStep.refuse (Nat.le_succ n) _ _).congr fun r here L => ?_
    rw [recordSuper, get_bind, here.owner.trans owner]

end

theorem recordUses_inStep {c : Context} {given : Locals → Prop} : (refs : List Reference) → (n : Nat) →
    Follows c given n (numberRefs refs) List.map recordUses (resolveUses refs)
  | [], _ => .pure (fun _ _ => rfl) rfl
  | ref :: rest, n =>
    .bind (recordUse_inStep n ref) fun t a first =>
      .last (recordUses_inStep rest (n + 1)) (t :: ·) (a :: ·) (fun T t held same => by rw [← same, ← held.2]; rfl)
        fun t a same => by simp only [List.map_cons, first, same]

/-- The superclass of a class, if it has one, is an owner of another kind. -/
theorem recordSuperclass_inStep {c : Context} {given : Locals → Prop} (name : Name) (superclass : Option Reference)
    (n : Nat) (base : c.owner = .base) :
    InStep c (if superclass.isSome then .derived else .base) n (numberRefOption superclass n).2 given
      (fun T => (numberRefOption superclass n).1.map (.link T)) (Option.map .unnumbered)
      (recordSuperclass name (numberRefOption superclass n).1) (resolveSuperclass name superclass) := by
  cases superclass with
  | none =>
    rw [if_neg (by simp), ← base]
    exact .pure (fun _ _ => rfl) rfl
  | some ref =>
    by_cases itself : ref.name.text = name.text
    · have resolved : resolveSuperclass name (some ref) = mistake .inheritsItself ref.name := if_pos itself
      rw [resolved]
      exact (InStep.refuse (Nat.le_succ n) _ _).congr fun r _ L => congrFun (if_pos itself) _
    · have resolved : resolveSuperclass name (some ref) = do return some (← resolveUse ref) := if_neg itself
      have use : InStep { c with owner := .derived } .derived n (n + 1) given
          (fun T => some (Reference.link T { ref with id := n })) (Option.map .unnumbered)
          (recordUse { ref with id := n }) (do return some (← resolveUse ref)) :=
        .last (recordUse_inStep n ref) some some (fun T t _ same => by rw [← same]) fun t a same => by
          simp only [Option.map_some, same]
      rw [resolved]
      refine use.between (fun r => { r with owner := .derived })
        (fun r here => ⟨⟨here.function, rfl, here.loops, here.switches, here.tests⟩, rfl⟩) ?_ ?_
      · intro r L scopes L' _ runs
        exact (congrFun (if_neg itself) _).trans ((bind_ok rfl).trans runs)
      · intro r L e last runs
        exact (congrFun (if_neg itself) _).trans ((bind_ok rfl).trans runs)

theorem resolveSuperclass_isSome {name : Name} {superclass result : Option Reference} {s s' : Scopes}
    (done : resolveSuperclass name superclass s = .ok result s') : result.isSome = superclass.isSome := by
  cases superclass with
  | none =>
    cases done
    rfl
  | some ref =>
    by_cases itself : ref.name.text = name.text
    · have resolved : resolveSuperclass name (some ref) = mistake .inheritsItself ref.name := if_pos itself
      rw [resolved] at done
      cases done
    · have resolved : resolveSuperclass name (some ref) = do return some (← resolveUse ref) := if_neg itself
      rw [resolved] at done
      obtain ⟨ref', s₁, -, done⟩ := ok_of_bind done
      cases done
      rfl

/-! What the numbers leave alone. -/

theorem numberFunction_name (decl : FunctionDecl) (n : Nat) : (numberFunction decl n).1.name = decl.name := by
  cases decl
  rfl

theorem numberProperty_name (decl : PropertyDecl) (n : Nat) : (numberProperty decl n).1.name = decl.name := by
  cases decl
  rfl

theorem numberOption_isSome (e : Option Expr) (n : Nat) : (numberOption e n).1.isSome = e.isSome := by
  cases e <;> rfl

/-- A list that has a variable in the place of each variable among some fields, and nothing in the place of each
property. -/
inductive InPlace : List Field → List (Option VarDecl) → Prop where
  | nil : InPlace [] []
  | var {decl decl' : VarDecl} {rest : List Field} {vars : List (Option VarDecl)} (others : InPlace rest vars) :
      InPlace (.var decl :: rest) (some decl' :: vars)
  | property {decl : PropertyDecl} {rest : List Field} {vars : List (Option VarDecl)} (others : InPlace rest vars) :
      InPlace (.property decl :: rest) (none :: vars)

namespace InPlace

variable {fields : List Field} {vars : List (Option VarDecl)}

theorem number : (fields : List Field) → (n : Nat) → InPlace fields (numberInterfaceVars fields n).1
  | [], _ => .nil
  | .var _ :: rest, _ => .var (number rest _)
  | .property _ :: rest, _ => .property (number rest _)

theorem map (f : VarDecl → VarDecl) (places : InPlace fields vars) : InPlace fields (vars.map (Option.map f)) := by
  induction places with
  | nil => exact .nil
  | var _ ih => exact .var ih
  | property _ ih => exact .property ih

theorem of_map {f : VarDecl → VarDecl} (places : InPlace fields (vars.map (Option.map f))) : InPlace fields vars := by
  induction fields generalizing vars with
  | nil =>
    cases vars with
    | nil => exact .nil
    | cons => cases places
  | cons field rest ih =>
    match vars, places with
    | some _ :: _, .var others => exact .var (ih others)
    | none :: _, .property others => exact .property (ih others)

theorem resolve {c : Context} {s s' : Scopes} (done : resolveInterfaceVars c fields s = .ok vars s') :
    InPlace fields vars := by
  induction fields generalizing vars s s' with
  | nil =>
    cases done
    exact .nil
  | cons field rest ih =>
    cases field with
    | var decl =>
      obtain ⟨decl', s₁, -, done⟩ := ok_of_bind done
      obtain ⟨vars', s₂, others, done⟩ := ok_of_bind done
      cases done
      exact .var (ih others)
    | property decl =>
      obtain ⟨vars', s₂, others, done⟩ := ok_of_bind done
      cases done
      exact .property (ih others)

end InPlace

/-! Trees, by induction on them. -/

mutual

theorem recordExpr_inStep (c : Context) (given : Locals → Prop) : (e : Expr) → (n : Nat) →
    Follows c given n (numberExpr e) Expr.relabel recordExpr (resolveExpr c e)
  | .literal _, _ | .type .., _ => .pure (fun _ _ => rfl) rfl
  | .group e, n => .one (recordExpr_inStep c given e n) Expr.group
  | .unary op line e, n => .one (recordExpr_inStep c given e n) (Expr.unary op line)
  | .binary op line left right, n =>
    .two (recordExpr_inStep c given left n) (fun _ => recordExpr_inStep c _ right _) (Expr.binary op line)
  | .logical op line left right, n =>
    .two (recordExpr_inStep c given left n) (fun _ => recordExpr_inStep c _ right _) (Expr.logical op line)
  | .ternary line condition yes no, n =>
    .three (recordExpr_inStep c given condition n) (fun _ => recordExpr_inStep c _ yes _)
      (fun _ _ => recordExpr_inStep c _ no _) (Expr.ternary line)
  | .use ref, n => .one (recordUse_inStep n ref) Expr.use
  | .this ref, n => .one (recordThis_inStep n ref) Expr.this
  | .value ref, n => .one (recordValue_inStep n ref) Expr.value
  | .super ref method, n => .one (recordSuper_inStep n ref) (Expr.super · method)
  | .assign ref site value, n =>
    .two (recordOption_inStep c given value n) (fun _ => recordLocal_inStep _ ref) (fun v ref => Expr.assign ref site v)
  | .call callee line args generics nullSafe, n =>
    .three (recordExpr_inStep c given callee n) (fun _ => recordExprs_inStep c _ args _)
      (fun _ _ => recordExprs_inStep c _ generics _) (Expr.call · line · · nullSafe)
  | .get object name nullSafe, n => .one (recordExpr_inStep c given object n) (Expr.get · name nullSafe)
  | .staticGet object name, n => .one (recordExpr_inStep c given object n) (Expr.staticGet · name)
  | .set object name site value, n =>
    .two (recordExpr_inStep c given object n) (fun _ => recordOption_inStep c _ value _) (Expr.set · name site ·)
  | .staticSet object name site value, n =>
    .two (recordExpr_inStep c given object n) (fun _ => recordOption_inStep c _ value _) (Expr.staticSet · name site ·)
  | .index object line position, n =>
    .two (recordExpr_inStep c given object n) (fun _ => recordExpr_inStep c _ position _) (Expr.index · line ·)
  | .indexSet object line position site value, n =>
    .three (recordExpr_inStep c given object n) (fun _ => recordExpr_inStep c _ position _)
      (fun _ _ => recordOption_inStep c _ value _) (Expr.indexSet · line · site ·)
  | .cast operand line target, n =>
    .two (recordExpr_inStep c given operand n) (fun _ => recordExpr_inStep c _ target _) (Expr.cast · line ·)
  | .array line elementType elements, n => .one (recordExprs_inStep c given elements n) (Expr.array line elementType)
  | .sizedArray line elementType size, n => .one (recordExpr_inStep c given size n) (Expr.sizedArray line elementType)
  | .lambda decl, n => .one (recordFunction_inStep c given .function decl n) Expr.lambda
  | .length line e, n => .one (recordExpr_inStep c given e n) (Expr.length line)
  | .typeOf line e, n => .one (recordExpr_inStep c given e n) (Expr.typeOf line)
termination_by structural e => e

theorem recordOption_inStep (c : Context) (given : Locals → Prop) : (e : Option Expr) → (n : Nat) →
    Follows c given n (numberOption e) Expr.relabelOption recordOption (resolveOption c e)
  | none, _ => .pure (fun _ _ => rfl) rfl
  | some e, n => .one (recordExpr_inStep c given e n) some
termination_by structural e => e

theorem recordExprs_inStep (c : Context) (given : Locals → Prop) : (es : List Expr) → (n : Nat) →
    Follows c given n (numberExprs es) Expr.relabelAll recordExprs (resolveExprs c es)
  | [], _ => .pure (fun _ _ => rfl) rfl
  | e :: rest, n =>
    .two (recordExpr_inStep c given e n) (fun _ => recordExprs_inStep c _ rest _) (· :: ·)
termination_by structural es => es

theorem recordStmt_inStep (c : Context) (given : Locals → Prop) : (s : Stmt) → (n : Nat) →
    Follows c given n (numberStmt s) Stmt.relabel recordStmt (resolveStmt c s)
  | .expr e, n => .one (recordExpr_inStep c given e n) Stmt.expr
  | .var decl, n => .one (recordVar_inStep c given decl n) Stmt.var
  | .property decl, n =>
    .andThen (.scopesOf (by rw [numberProperty_name])) <|
      .one (recordProperty_inStep c given decl n) Stmt.property
  | .function decl, n =>
    .andThen (.scopesOf (by rw [numberFunction_name])) <|
      .one (recordFunction_inStep c given .function decl n) Stmt.function
  | .classDecl decl, n => .one (recordClass_inStep c given decl n) Stmt.classDecl
  | .interfaceDecl decl, n => .one (recordInterface_inStep c given decl n) Stmt.interfaceDecl
  | .enumDecl name elements, _ => .one .scopes (fun _ => Stmt.enumDecl name elements)
  | .block body, n => .one (withScope_inStep [] (recordStmts_inStep c given body n)) Stmt.block
  | .ifElse condition yes no, n =>
    .three (recordExpr_inStep c given condition n) (fun _ => recordStmt_inStep c _ yes _)
      (fun _ _ => recordStmtOption_inStep c _ no _) Stmt.ifElse
  | .whileLoop condition body increment [], n =>
    .three (recordExpr_inStep c given condition n) (fun _ => recordOption_inStep c _ increment _)
      (fun _ _ => withLoop_inStep (recordStmt_inStep { c with inLoop := true } _ body _))
      (fun x y z => Stmt.whileLoop x z y [])
  | .whileLoop condition body increment (name :: names), n =>
    .three (recordExpr_inStep c given condition n) (fun _ => recordOption_inStep c _ increment _)
      (fun _ _ => withScope_inStep [] (.andThen .scopes
        (withLoop_inStep (recordStmt_inStep { c with inLoop := true } _ body _))))
      (fun x y z => Stmt.whileLoop x z y (name :: names))
  | .whenLoop condition body finish, n =>
    .three (recordExpr_inStep c given condition n)
      (fun _ => withLoop_inStep (recordStmt_inStep { c with inLoop := true } _ body _))
      (fun _ _ => recordStmtOption_inStep c _ finish _) Stmt.whenLoop
  | .switch line value cases default, n =>
    .bind (recordExpr_inStep c given value n) fun x x' first =>
      withSwitch_inStep <| .bind (recordCases_inStep { c with inSwitch := true } _ cases _) fun y y' second =>
        .last (recordStmtOption_inStep { c with inSwitch := true } _ default _) (Stmt.switch line x y)
          (Stmt.switch line x' y')
          (fun T t held same => by cases same; cases held.2; cases held.1.2; rfl)
          fun t a same => by simp only [Stmt.relabel, first, second, same]
  | .tryCatch body name handler, n =>
    .two (recordStmt_inStep c given body n)
      (fun _ => withScope_inStep [] (.andThen .scopes (recordStmts_inStep c _ handler _)))
      (Stmt.tryCatch · name ·)
  | .test line name body, n =>
    .two (recordExpr_inStep c given name n)
      (fun _ => withTest_inStep (recordStmt_inStep { c with inTest := true } _ body _))
      (Stmt.test line)
  | .expect line value, n => by
    have operand := recordExpr_inStep c given value n
    unfold resolveStmt
    split
    · rename_i inside
      refine .one (operand.congr fun r here L => ?_) (Stmt.expect line)
      rw [here.tests, decide_eq_true_iff] at inside
      exact congrFun (if_neg inside) _
    · rename_i outside
      refine (InStep.refuse operand.le _ _).congr fun r here L => ?_
      rw [here.tests, decide_eq_true_iff, Decidable.not_not] at outside
      exact congrFun (if_pos outside) _
  | .returning line value, n => by
    have operand := recordOption_inStep c given value n
    have some := numberOption_isSome value n
    unfold resolveStmt
    split
    · rename_i none
      refine (InStep.refuse operand.le _ _).congr fun r here L => ?_
      refine bind_error ?_
      rw [checkReturn, get_bind, if_pos (here.function.trans none)]
      rfl
    · rename_i inside
      split
      · rename_i wrong
        refine (InStep.refuse operand.le _ _).congr fun r here L => ?_
        refine bind_error ?_
        rw [checkReturn, get_bind, if_neg fun none => inside (here.function.symm.trans none),
          if_pos ⟨some.trans wrong.1, here.function.trans wrong.2⟩]
        rfl
      · rename_i right
        refine .one (operand.congr fun r here L => ?_) (Stmt.returning line)
        refine bind_ok (a := ()) ?_
        rw [checkReturn, get_bind, if_neg fun none => inside (here.function.symm.trans none),
          if_neg fun wrong => right ⟨some.symm.trans wrong.1, here.function.symm.trans wrong.2⟩]
        rfl
  | .breaking line, n => by
    unfold resolveStmt
    split
    · rename_i inside
      refine (InStep.pure (fun _ _ => rfl) rfl).congr fun r here L => ?_
      rw [here.loops, here.switches] at inside
      exact congrFun (if_neg (by simp at inside ⊢; omega)) _
    · rename_i outside
      refine (InStep.refuse (Nat.le_refl n) _ _).congr fun r here L => ?_
      rw [here.loops, here.switches] at outside
      exact congrFun (if_pos (by simpa using outside)) _
  | .continuing line, n => by
    unfold resolveStmt
    split
    · rename_i inside
      refine (InStep.pure (fun _ _ => rfl) rfl).congr fun r here L => ?_
      rw [here.loops, decide_eq_true_iff] at inside
      exact congrFun (if_neg inside) _
    · rename_i outside
      refine (InStep.refuse (Nat.le_refl n) _ _).congr fun r here L => ?_
      rw [here.loops, decide_eq_true_iff, Decidable.not_not] at outside
      exact congrFun (if_pos outside) _
  | .moduleName line name, n => by
    refine ⟨Nat.le_refl n, fun r here => ?_⟩
    have recorded (L : Locals) : recordStmt (.moduleName line name) { r with locals := L } =
        match r.scopes.moduleName with
        | some existing => .error ⟨.moduleDeclared existing, name⟩ { r with locals := L }
        | none => .ok () { r with scopes := { r.scopes with moduleName := some name.text }, locals := L } := by
      cases named : r.scopes.moduleName <;> simp [recordStmt, get_bind, named] <;> rfl
    have resolved : resolveStmt c (.moduleName line name) r.scopes =
        match r.scopes.moduleName with
        | some existing => .error ⟨.moduleDeclared existing, name⟩ r.scopes
        | none => .ok (.moduleName line name) { r.scopes with moduleName := some name.text } := by
      cases named : r.scopes.moduleName <;> simp [resolveStmt, get_bind, named] <;> rfl
    rw [resolved]
    cases named : r.scopes.moduleName with
    | some existing =>
      refine .error [] r Locals.between_nil (fun L => ?_) rfl
      rw [List.nil_append]
      exact (recorded L).trans (by rw [named])
    | none =>
      rw [← here.owner]
      exact .ok [] _ Locals.between_nil (fun L => (recorded L).trans (by rw [named]; rfl)) rfl fun _ _ _ => rfl
termination_by structural s => s

theorem recordStmtOption_inStep (c : Context) (given : Locals → Prop) : (s : Option Stmt) → (n : Nat) →
    Follows c given n (numberStmtOption s) Stmt.relabelOption recordStmtOption (resolveStmtOption c s)
  | none, _ => .pure (fun _ _ => rfl) rfl
  | some s, n => .one (recordStmt_inStep c given s n) some
termination_by structural s => s

theorem recordStmts_inStep (c : Context) (given : Locals → Prop) : (ss : List Stmt) → (n : Nat) →
    Follows c given n (numberStmts ss) Stmt.relabelAll recordStmts (resolveStmts c ss)
  | [], _ => .pure (fun _ _ => rfl) rfl
  | s :: rest, n =>
    .two (recordStmt_inStep c given s n) (fun _ => recordStmts_inStep c _ rest _) (· :: ·)
termination_by structural ss => ss

theorem recordCases_inStep (c : Context) (given : Locals → Prop) : (cases : List (Expr × Stmt)) → (n : Nat) →
    Follows c given n (numberCases cases) Stmt.relabelCases recordCases (resolveCases c cases)
  | [], _ => .pure (fun _ _ => rfl) rfl
  | (candidate, body) :: rest, n =>
    .three (recordExpr_inStep c given candidate n) (fun _ => recordStmt_inStep c _ body _)
      (fun _ _ => recordCases_inStep c _ rest _) (fun x y rest => (x, y) :: rest)
termination_by structural cases => cases

theorem recordVar_inStep (c : Context) (given : Locals → Prop) : (decl : VarDecl) → (n : Nat) →
    Follows c given n (numberVar decl) VarDecl.relabel recordVar (resolveVar c decl)
  | ⟨name, modifiers, declared, initializer⟩, n =>
    .andThen .scopes <| .two (recordOption_inStep c given initializer n) (fun _ => .scopes)
      (fun x _ => VarDecl.mk name modifiers declared x)
termination_by structural decl => decl

theorem recordFieldVar_inStep (c : Context) (given : Locals → Prop) : (decl : VarDecl) → (n : Nat) →
    Follows c given n (numberVar decl) VarDecl.relabel recordFieldVar (resolveFieldVar c decl)
  | ⟨name, modifiers, declared, initializer⟩, n =>
    .one (recordOption_inStep c given initializer n) (VarDecl.mk name modifiers declared)
termination_by structural decl => decl

theorem recordFunction_inStep (c : Context) (given : Locals → Prop) (role : FunctionRole) :
    (decl : FunctionDecl) → (n : Nat) →
    Follows c given n (numberFunction decl) FunctionDecl.relabel (recordFunction role) (resolveFunction c role decl)
  | ⟨name, params, returns, modifiers, body⟩, n =>
    .one (recordBody_inStep c given role (params.map Param.name) body n)
      (FunctionDecl.mk name params returns modifiers)
termination_by structural decl => decl

theorem recordBody_inStep (c : Context) (given : Locals → Prop) (role : FunctionRole) (params : List Name) :
    (body : Option (List Stmt)) → (n : Nat) →
    Follows c given n (numberBody body) Stmt.relabelBody (recordBody role params)
      (resolveBody (c.inFunction role) params body)
  | none, _ => .pure (fun _ _ => rfl) rfl
  | some body, n =>
    asFunction_inStep role <| withScope_inStep [] <| .andThen .scopes <|
      .one (recordStmts_inStep (c.inFunction role) given body n) some
termination_by structural body => body

theorem recordFunctionOption_inStep (c : Context) (given : Locals → Prop) (role : FunctionRole) :
    (decl : Option FunctionDecl) → (n : Nat) →
    Follows c given n (numberFunctionOption decl) FunctionDecl.relabelOption (recordFunctionOption role)
      (resolveFunctionOption c role decl)
  | none, _ => .pure (fun _ _ => rfl) rfl
  | some decl, n => .one (recordFunction_inStep c given role decl n) some
termination_by structural decl => decl

theorem recordMethods_inStep (c : Context) (given : Locals → Prop) (role : Name → FunctionRole) :
    (decls : List FunctionDecl) → (n : Nat) →
    Follows c given n (numberFunctions decls) FunctionDecl.relabelAll (recordMethods role)
      (resolveMethods c role decls)
  | [], _ => .pure (fun _ _ => rfl) rfl
  | decl :: rest, n =>
    .two (by rw [numberFunction_name]; exact recordFunction_inStep c given (role decl.name) decl n)
      (fun _ => recordMethods_inStep c _ role rest _) (· :: ·)
termination_by structural decls => decls

theorem recordProperty_inStep (c : Context) (given : Locals → Prop) : (decl : PropertyDecl) → (n : Nat) →
    Follows c given n (numberProperty decl) PropertyDecl.relabel recordProperty (resolveProperty c decl)
  | ⟨name, modifiers, declared, getter, setter⟩, n =>
    .two (recordFunction_inStep c given .accessor getter n)
      (fun _ => recordFunctionOption_inStep c _ .accessor setter _)
      (PropertyDecl.mk name modifiers declared)
termination_by structural decl => decl

theorem recordFields_inStep (c : Context) (given : Locals → Prop) : (fields : List Field) → (n : Nat) →
    Follows c given n (numberFields fields) Field.relabelAll recordFields (resolveFields c fields)
  | [], _ => .pure (fun _ _ => rfl) rfl
  | .var decl :: rest, n =>
    .two (recordFieldVar_inStep c given decl n) (fun _ => recordFields_inStep c _ rest _)
      (fun x rest => Field.var x :: rest)
  | .property decl :: rest, n =>
    .two (withScope_inStep ["this"] (recordProperty_inStep c given decl n)) (fun _ => recordFields_inStep c _ rest _)
      (fun x rest => Field.property x :: rest)
termination_by structural fields => fields

theorem recordInterfaceVars_inStep (c : Context) (given : Locals → Prop) :
    (fields : List Field) → (n m : Nat) →
    InStep c c.owner n (numberInterfaceVars fields n).2 given
      (fun T => (numberInterfaceVars fields n).1.map (Option.map (VarDecl.relabel (.link T))))
      (List.map (Option.map (VarDecl.relabel .unnumbered)))
      (recordInterfaceVars (numberInterfaceProperties fields (numberInterfaceVars fields n).1 m).1)
      (resolveInterfaceVars c fields)
  | [], _, _ => .pure (fun _ _ => rfl) rfl
  | .var decl :: rest, n, m =>
    .two (recordFieldVar_inStep c given decl n) (fun _ => recordInterfaceVars_inStep c _ rest _ m) (some · :: ·)
  | .property decl :: rest, n, m =>
    .one (recordInterfaceVars_inStep c given rest n (numberProperty decl m).2) (none :: ·)
termination_by structural fields => fields

theorem recordInterfaceProperties_inStep (c : Context) (given : Locals → Prop) :
    (fields : List Field) → (vars t a : List (Option VarDecl)) → (n : Nat) → InPlace fields vars → InPlace fields t →
    InPlace fields a →
    t.map (Option.map (VarDecl.relabel .unnumbered)) = a.map (Option.map (VarDecl.relabel .unnumbered)) →
    (∀ T, given T → vars.map (Option.map (VarDecl.relabel (.link T))) = t) →
    Follows c given n (numberInterfaceProperties fields vars) Field.relabelAll recordInterfaceProperties
      (resolveInterfaceProperties c fields a)
  | [], _, _, _, _, .nil, .nil, .nil, _, _ => .pure (fun _ _ => rfl) rfl
  | .var _ :: rest, some decl :: vars, some x :: t, some x' :: a, n, .var places, .var places', .var places'', same,
      known => by
    obtain ⟨first, others⟩ := List.cons_eq_cons.mp same
    have known' (T : Locals) (held : given T) := List.cons_eq_cons.mp (known T held)
    refine .last (recordInterfaceProperties_inStep c given rest vars t a n places places' places'' others
      fun T held => (known' T held).2) (.var x :: ·) (.var x' :: ·) (fun T t held same => ?_) fun t a same => ?_
    · cases same
      cases (known' T held).1
      rfl
    · simp only [Field.relabelAll, Field.relabel, Option.some.inj first, same]
  | .property decl :: rest, none :: vars, none :: t, none :: a, n, .property places, .property places',
      .property places'', same, known => by
    have others := (List.cons_eq_cons.mp same).2
    refine .bind (recordProperty_inStep c given decl n) fun x x' first => ?_
    refine .last (recordInterfaceProperties_inStep c _ rest vars t a _ places places' places'' others
      fun T held => (List.cons_eq_cons.mp (known T held.1)).2) (.property x :: ·) (.property x' :: ·)
      (fun T t held same => by cases same; cases held.2; rfl) fun t a same => ?_
    simp only [Field.relabelAll, Field.relabel, first, same]
termination_by structural fields => fields

theorem recordClass_inStep (c : Context) (given : Locals → Prop) : (decl : ClassDecl) → (n : Nat) →
    Follows c given n (numberClass decl) ClassDecl.relabel recordClass (resolveClass c decl)
  | ⟨name, superclass, interfaces, templates, fields, methods⟩, n => by
    let o : ClassRole := if superclass.isSome then .derived else .base
    refine asOwner_inStep (o := o) .base <| .andThen .scopes <| .bindWhere
      (recordSuperclass_inStep name superclass n rfl) (fun _ _ _ => resolveSuperclass_isSome)
      (by cases superclass <;> rfl) fun x x' first same => ?_
    refine .bind (recordUses_inStep interfaces _) fun y y' second => ?_
    rw [same]
    have inner := fun given n => withScope_inStep ["super"] <|
      InStep.andThen (c := { c with owner := o }) (.scopes (d := declareAll templates)) <|
        .pair (recordFields_inStep { c with owner := o } given fields n) fun _ =>
          withScope_inStep ["this"] (recordMethods_inStep { c with owner := o } _ methodRole methods _)
    refine (inner _ _).last
      (fun pair => ClassDecl.mk name x y templates pair.1 pair.2)
      (fun pair => ClassDecl.mk name x' y' templates pair.1 pair.2) (fun T t held same => ?_) fun t a alike => ?_
    · cases same
      cases held.2
      cases held.1.2
      rfl
    · obtain ⟨fields', methods'⟩ := t
      simp only [Prod.map, Prod.mk.injEq] at alike
      simp only [ClassDecl.relabel, first, second, alike]
termination_by structural decl => decl

theorem recordInterface_inStep (c : Context) (given : Locals → Prop) : (decl : InterfaceDecl) → (n : Nat) →
    Follows c given n (numberInterface decl) InterfaceDecl.relabel recordInterface (resolveInterface c decl)
  | ⟨name, fields, methods⟩, n => by
    refine asOwner_inStep (o := .interface) .interface <| .andThen .scopes <| .bindWhere
      (recordInterfaceVars_inStep { c with owner := .interface } given fields n _) (fun _ _ _ => InPlace.resolve)
      ((InPlace.number fields n).map _) fun x x' first places => ?_
    refine withScope_inStep ["this"] <| .bind
      (recordInterfaceProperties_inStep { c with owner := .interface } _ fields _ x x' _ (InPlace.number fields n)
        (.of_map (first ▸ places.map _)) places first fun T held => held.2) fun y y' second => ?_
    exact .last (recordMethods_inStep { c with owner := .interface } _ (fun _ => .method) methods _)
      (InterfaceDecl.mk name y) (InterfaceDecl.mk name y') (fun T t held same => by cases same; cases held.2; rfl)
      fun t a same => by simp only [InterfaceDecl.relabel, second, same]
termination_by structural decl => decl

end

/-! Whole programs. -/

def Resolver.top (moduleName : Option String) (L : Locals) : Resolver :=
  { scopes := { moduleName := moduleName }, locals := L }

def reached : EStateM.Result ScopeError Scopes α → Scopes
  | .ok _ after => after
  | .error _ after => after

def moduleAfter (moduleName : Option String) : List Stmt → Option String
  | [] => moduleName
  | s :: rest => moduleAfter (reached (resolveStmt {} s ⟨[], moduleName⟩)).moduleName rest

theorem frames_of_top {s resolved : Stmt} (formed : Formed (.stmt s)) (noNames : s.loopNames = [])
    {moduleName : Option String} {after : Scopes} (done : resolveStmt {} s ⟨[], moduleName⟩ = .ok resolved after) :
    after = ⟨[], after.moduleName⟩ := by
  obtain ⟨left, -, -⟩ := resolveStmt_fits [] {} s formed (by simp [noNames]) _ _ _ rfl done
  have empty : after.frames = [] := by
    rw [left, framesAfter]
    split <;> rfl
  rw [← empty]

/-- The resolver gets through a program, statement by statement. It is back at the outermost level at the end, and
has found the mistakes that resolution by surroundings finds. What it has written into its table does not depend on
the table that it started with. -/
theorem record_numbered {program : List Stmt} (formed : ∀ s ∈ program, Formed (.stmt s) ∧ s.loopNames = [])
    (n : Nat) (moduleName : Option String) :
    n ≤ (numberStmts program n).2 ∧ ∃ entries : Locals, entries.Between n (numberStmts program n).2 ∧
      (∀ L, record (numberStmts program n).1 (.top moduleName L) =
        ((resolveEach moduleName program).2, .top (moduleAfter moduleName program) (entries ++ L))) ∧
      ((resolveEach moduleName program).2 = [] → ∃ linked : List Stmt,
        linked.map (Stmt.relabel .unnumbered) = (resolveEach moduleName program).1.map (Stmt.relabel .unnumbered) ∧
        ∀ T : Locals, T.Agree n (numberStmts program n).2 entries →
          (numberStmts program n).1.map (Stmt.relabel (.link T)) = linked) := by
  induction program generalizing n moduleName with
  | nil => exact ⟨Nat.le_refl n, [], Locals.between_nil, fun _ => rfl, fun _ => ⟨[], rfl, fun _ _ => rfl⟩⟩
  | cons s rest ih =>
    obtain ⟨firstFormed, noNames⟩ := formed s (by simp)
    have others := ih fun s member => formed s (by simp [member])
    let middle := (numberStmt s n).2
    have step := recordStmt_inStep {} (fun _ => True) s n
    have le : n ≤ middle := step.le
    have held := step.recorded (.top moduleName []) ⟨rfl, rfl, rfl, rfl, rfl⟩
    change Recorded _ _ _ _ _ _ _ _ (resolveStmt {} s ⟨[], moduleName⟩) at held
    have last : (numberStmts (s :: rest) n).2 = (numberStmts rest middle).2 := rfl
    cases done : resolveStmt {} s ⟨[], moduleName⟩ with
    | ok resolved after =>
      rw [done] at held
      have top := frames_of_top firstFormed noNames done
      obtain ⟨le', entries', between', runs', links'⟩ := others middle after.moduleName
      have each : resolveEach moduleName (s :: rest) =
          (resolved :: (resolveEach after.moduleName rest).1, (resolveEach after.moduleName rest).2) := by
        simp only [resolveEach, EStateM.run, done]
      have module : moduleAfter moduleName (s :: rest) = moduleAfter after.moduleName rest := by
        rw [moduleAfter, done, reached]
      cases held with
      | ok entries t between runs alike links =>
        refine ⟨Nat.le_trans le le', entries' ++ entries, between'.append between le le', fun L => ?_, fun none => ?_⟩
        · have first : recordStmt (numberStmt s n).1 (.top moduleName L) =
              .ok () (.top after.moduleName (entries ++ L)) := by
            refine (runs L).trans ?_
            rw [top]
            rfl
          change record ((numberStmt s n).1 :: (numberStmts rest middle).1) _ = _
          simp only [record, first]
          rw [runs', each, module, List.append_assoc]
        · rw [each] at none
          obtain ⟨linked, same, link⟩ := links' none
          refine ⟨t :: linked, ?_, fun T agree => ?_⟩
          · rw [each, List.map_cons, List.map_cons, alike, same]
          · exact List.cons_eq_cons.mpr ⟨links T trivial (agree.first between' le'), link T (agree.later between le)⟩
    | error e after =>
      rw [done] at held
      obtain ⟨le', entries', between', runs', links'⟩ := others middle after.moduleName
      have each : resolveEach moduleName (s :: rest) =
          ((resolveEach after.moduleName rest).1, e :: (resolveEach after.moduleName rest).2) := by
        simp only [resolveEach, EStateM.run, done]
      have module : moduleAfter moduleName (s :: rest) = moduleAfter after.moduleName rest := by
        rw [moduleAfter, done, reached]
      cases held with
      | error entries final between runs same =>
        refine ⟨Nat.le_trans le le', entries' ++ entries, between'.append between le le', fun L => ?_, fun none => ?_⟩
        · have first : recordStmt (numberStmt s n).1 (.top moduleName L) =
              .error e { final with locals := entries ++ L } := runs L
          change record ((numberStmt s n).1 :: (numberStmts rest middle).1) _ = _
          have recovered : Resolver.recovered { final with locals := entries ++ L } =
              .top after.moduleName (entries ++ L) := by
            rw [Resolver.recovered, same]
            rfl
          simp only [record, first, recovered]
          rw [runs', each, module, List.append_assoc]
        · rw [each] at none
          cases none

end Treewalk.Scoping
