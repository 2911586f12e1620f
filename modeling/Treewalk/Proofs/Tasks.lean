import Mathlib.Logic.Relation
import Treewalk.Proofs.Bindings
import Treewalk.Proofs.Stretch

/-!
Activities inside activities. An activity that is being carried out asks for others, with the machine as it is then,
and these ask for others again. A run performs what it begins by itself and whatever is asked for in that. What is
known of the scopes when one of its tasks is over is known of the run as a whole.
-/

namespace Treewalk

open Scoping Plan

/-- What a plan asks for while it is carried out, each time with the machine at that moment. -/
def Plan.asked (perform : (a : Activity) → Machine → Outcome a.Result) : Plan α → List (Activity × Machine)
  | .done _ => []
  | .ask a m next => (a, m) :: (next (perform a m)).asked perform

section

variable {perform : (a : Activity) → Machine → Outcome a.Result} {history : Activity → Machine → List Event}

theorem Plan.asked_andThen (plan : Plan α) (f : Outcome α → Plan β) :
    (plan.andThen f).asked perform = plan.asked perform ++ (f (plan.outcome perform)).asked perform := by
  induction plan with
  | done outcome => rfl
  | ask a m next ih => exact congrArg ((a, m) :: ·) (ih (perform a m))

theorem Run.asked_bind (c : Run α) (f : α → Run β) (m : Machine) :
    ((c >>= f) m).asked perform = (c m).asked perform ++
      match (c m).outcome perform with
      | .ok a after => (f a after).asked perform
      | .error _ _ => [] := by
  refine (Plan.asked_andThen (c m) _).trans ?_
  cases (c m).outcome perform <;> rfl

theorem Run.mem_asked_bind {c : Run α} {f : α → Run β} {m : Machine} {x : Activity × Machine}
    (asked : x ∈ ((c >>= f) m).asked perform) :
    x ∈ (c m).asked perform ∨ ∃ a after, (c m).outcome perform = .ok a after ∧ x ∈ (f a after).asked perform := by
  rw [Run.asked_bind] at asked
  refine (List.mem_append.mp asked).imp_right fun later => ?_
  cases done : (c m).outcome perform with
  | ok a after =>
    rw [done] at later
    exact ⟨a, after, rfl, later⟩
  | error reason after =>
    rw [done] at later
    cases later

theorem Run.asked_of_bind {c : Run α} {f : α → Run β} {m after : Machine} {a : α} {x : Activity × Machine}
    (done : (c m).outcome perform = .ok a after) (asked : x ∈ (f a after).asked perform) :
    x ∈ ((c >>= f) m).asked perform := by
  rw [Run.asked_bind, done]
  exact List.mem_append_right _ asked

theorem Run.asked_inScope (r : Ref .scope) (body : Run α) (m : Machine) :
    (Run.inScope r body m).asked perform = (body { m with scope := r }).asked perform := by
  refine (Plan.asked_andThen _ _).trans ?_
  cases (body { m with scope := r }).outcome perform <;> exact List.append_nil _

theorem Plan.happens_of_asked {plan : Plan α} {a : Activity} {m : Machine} (asked : (a, m) ∈ plan.asked perform) :
    history a m <:+: plan.events perform history := by
  induction plan with
  | done => cases asked
  | ask b n next ih =>
    rcases List.mem_cons.mp asked with same | later
    · cases same
      exact (List.prefix_append _ _).isInfix
    · exact (ih _ later).trans (List.suffix_append _ _).isInfix

end

/-- An activity, with the fuel with which it is performed and the machine on which it begins. -/
structure Task where
  fuel : Nat
  activity : Activity
  machine : Machine

namespace Task

def history (t : Task) : List Event :=
  Treewalk.history t.fuel t.activity t.machine

def outcome (t : Task) : Outcome t.activity.Result :=
  perform t.fuel t.activity t.machine

def permit (t : Task) : Permit :=
  t.activity.permit t.machine

def Asks (t part : Task) : Prop :=
  t.fuel = part.fuel + 1 ∧
    (part.activity, part.machine) ∈ (t.activity.plan part.fuel t.machine).asked (perform part.fuel)

def asked (t : Task) : List Task :=
  match t.fuel with
  | 0 => []
  | fuel + 1 => ((t.activity.plan fuel t.machine).asked (perform fuel)).map fun x => ⟨fuel, x.1, x.2⟩

/-- A task is carried out in another one, or is that one. -/
def Contains : Task → Task → Prop :=
  Relation.ReflTransGen Asks

def ended (t : Task) : Event :=
  .ended t.activity t.machine t.outcome

theorem started_mem (t : Task) : .started t.activity t.machine ∈ t.history := by
  obtain ⟨fuel, a, m⟩ := t
  cases fuel <;> simp [history, Treewalk.history]

theorem ended_mem (t : Task) : t.ended ∈ t.history :=
  ended_mem_history t.fuel t.activity t.machine

variable {t part : Task}

theorem asks_of_mem (member : part ∈ t.asked) : t.Asks part := by
  obtain ⟨fuel, a, m⟩ := t
  cases fuel with
  | zero => cases member
  | succ fuel =>
    obtain ⟨x, asked, rfl⟩ := List.mem_map.mp member
    exact ⟨rfl, asked⟩

theorem Asks.happens (asks : t.Asks part) : part.history <:+: t.history := by
  obtain ⟨fuel, a, m⟩ := t
  obtain ⟨rfl, asked⟩ := asks
  exact (Plan.happens_of_asked asked).trans ⟨[.started a m], [.ended a m (perform (part.fuel + 1) a m)], rfl⟩

theorem Contains.happens (contains : t.Contains part) : part.history <:+: t.history := by
  induction contains with
  | refl => exact List.infix_refl _
  | tail _ asks ih => exact asks.happens.trans ih

end Task

/-- In a run from one machine to another a task is performed: the run begins it by itself, or it is carried out in
what the run begins. -/
inductive Performs (allowed : Stmt → Prop) (m : Machine) : List Event → Machine → Task → Prop where
  | stmt {m' : Machine} {H : List Event} {s : Stmt} {fuel : Nat} {t : Task} (before : Runs allowed m H m')
      (accepted : Accepted s) (may : allowed s) (contains : Task.Contains ⟨fuel, .stmt s, m'⟩ t) :
      Performs allowed m (H ++ history fuel (.stmt s) m') (perform fuel (.stmt s) m').machine t
  | value {m' : Machine} {H : List Event} {e : Expr} {fuel : Nat} {t : Task} (before : Runs allowed m H m')
      (accepted : Accepted (.expr e)) (may : allowed (.expr e)) (contains : Task.Contains ⟨fuel, .expr e, m'⟩ t) :
      Performs allowed m (H ++ history fuel (.expr e) m') (perform fuel (.expr e) m').machine t
  | global {m' n : Machine} {H : List Event} {name : String} {fuel : Nat} {cell : Cell} {a : Activity} {t : Task}
      (before : Runs allowed m H m') (found : m'.heap.here? .globals name = some cell)
      (asked : (a, n) ∈ (Evaluator.readCell cell 0 m').asked (perform fuel)) (contains : Task.Contains ⟨fuel, a, n⟩ t) :
      Performs allowed m (H ++ m'.globalEvents fuel name) (m'.global fuel name).2 t
  | later {m' m'' : Machine} {H H' : List Event} {t : Task} (performs : Performs allowed m H m' t)
      (after : Runs allowed m' H' m'') : Performs allowed m (H ++ H') m'' t

namespace Performs

variable {allowed : Stmt → Prop} {m m' : Machine} {H : List Event} {t part : Task}

theorem runs (performs : Performs allowed m H m' t) : Runs allowed m H m' := by
  induction performs with
  | stmt before accepted may => exact .stmt before accepted may _
  | value before accepted may => exact .value before accepted may _
  | global before => exact .global before _ _
  | later _ after ih => exact ih.trans after

theorem reached {echo : Bool} {clock : Clock} (performs : Performs (fun _ => True) (.initial echo clock) H m t) :
    Reached H m :=
  ⟨echo, clock, performs.runs⟩

theorem asks (performs : Performs allowed m H m' t) (asks : t.Asks part) : Performs allowed m H m' part := by
  induction performs with
  | stmt before accepted may contains => exact .stmt before accepted may (contains.tail asks)
  | value before accepted may contains => exact .value before accepted may (contains.tail asks)
  | global before found asked contains => exact .global before found asked (contains.tail asks)
  | later _ after ih => exact .later (ih asks) after

/-- A task of a run happens in it in one piece. -/
theorem happens (performs : Performs allowed m H m' t) : t.history <:+: H := by
  have last {E E' : List Event} (happens : t.history <:+: E') : t.history <:+: E ++ E' :=
    happens.trans (List.suffix_append E E').isInfix
  induction performs with
  | stmt _ _ _ contains => exact last contains.happens
  | value _ _ _ contains => exact last contains.happens
  | @global m' n H name fuel cell a t before found asked contains =>
    refine last (contains.happens.trans ?_)
    unfold Machine.globalEvents
    rw [found]
    exact Plan.happens_of_asked asked
  | later _ _ ih => exact (ih last).trans (List.prefix_append _ _).isInfix

theorem started_mem (performs : Performs allowed m H m' t) : .started t.activity t.machine ∈ H :=
  performs.happens.subset t.started_mem

end Performs

/-- Whether something of a kind that passes a check is found in the run of a text that is one statement. -/
def finds {ι : Type} (source : String) (fuel : Nat) (among : Task → List ι) (check : Task → ι → Bool) : Bool :=
  match load source with
  | .ok [s] =>
    let whole : Task := ⟨fuel, .stmt s, .initial true {}⟩
    (among whole).any (check whole)
  | _ => false

theorem finds_run {ι : Type} {source : String} {fuel : Nat} {among : Task → List ι} {check : Task → ι → Bool}
    (found : finds source fuel among check = true) : ∃ whole, ∃ x ∈ among whole, check whole x = true ∧
      ∀ part, whole.Contains part →
        Performs (fun _ => True) (.initial true {}) whole.history whole.outcome.machine part := by
  unfold finds at found
  split at found
  · rename_i s loaded
    obtain ⟨x, member, checked⟩ := List.any_eq_true.mp found
    refine ⟨⟨fuel, .stmt s, .initial true {}⟩, x, member, checked, fun part contains => ?_⟩
    exact .stmt (.refl _) (Accepted.of_load loaded s List.mem_cons_self) trivial contains
  · cases found

/-! What is known of scopes at the end of a task. -/

section

variable {view : View} {k : Permit} {w : World} {r : Ref .scope} {site : Site} {t part : Task}

/-- When a plan has been carried out, it is known which construct opened a scope. -/
def Plan.Reveals (view : View) (k : Permit) (scope : Ref .scope) (Q : World → α → Prop) (r : Ref .scope) (site : Site)
    (perform : (a : Activity) → Machine → Outcome a.Result) (history : Activity → Machine → List Event) (w : World)
    (plan : Plan α) : Prop :=
  (view.strict → ∀ e ∈ plan.events perform history, ¬e.CallsUnbound) →
    ∃ w', Trail view k w (plan.events perform history) w' ∧ Lands view k scope Q w w' (plan.outcome perform) ∧
      w'.siteOf? r = some site

def Task.Reveals (view : View) (r : Ref .scope) (site : Site) (t : Task) : Prop :=
  ∀ w, w.Sound view → w.heap = t.machine.heap → t.activity.Ready view w t.machine →
    (view.strict → ∀ e ∈ t.history, ¬e.CallsUnbound) →
      ∃ w', Trail view t.permit w t.history w' ∧
        Lands view t.permit t.machine.scope (t.activity.Good view t.machine.scope) w w' t.outcome ∧
          w'.siteOf? r = some site

variable {perform : (a : Activity) → Machine → Outcome a.Result} {history : Activity → Machine → List Event}
  {scope : Ref .scope} {Q : World → α → Prop} {plan : Plan α}

theorem Plan.Safe.reveals (safe : Safe view k scope Q w plan) (each : Leaves view perform history)
    (known : w.siteOf? r = some site) : plan.Reveals view k scope Q r site perform history w := by
  intro bound
  obtain ⟨w', trail, lands⟩ := safe.leaves each bound
  exact ⟨w', trail, lands, lands.leads.sites r site known⟩

theorem Plan.Safe.reveals_asked (safe : Safe view k scope Q w plan) (each : Leaves view perform history)
    {a : Activity} {m : Machine} (asked : (a, m) ∈ plan.asked perform)
    (reveals : ∀ v, v.Sound view → v.heap = m.heap → a.Ready view v m →
      (view.strict → ∀ e ∈ history a m, ¬e.CallsUnbound) →
        ∃ v', Trail view (a.permit m) v (history a m) v' ∧
          Lands view (a.permit m) m.scope (a.Good view m.scope) v v' (perform a m) ∧ v'.siteOf? r = some site) :
    plan.Reveals view k scope Q r site perform history w := by
  intro bound
  induction safe with
  | done => cases asked
  | @ask w w₁ b n next leads sound heap ready within resume ih =>
    have boundFirst (strict : view.strict) (e : Event) (member : e ∈ history b n) : ¬e.CallsUnbound :=
      bound strict e (List.mem_append_left _ member)
    have boundRest (strict : view.strict) (e : Event) (member : e ∈ (next (perform b n)).events perform history) :
        ¬e.CallsUnbound :=
      bound strict e (List.mem_append_right _ member)
    rcases List.mem_cons.mp asked with same | later
    · cases same
      obtain ⟨w₂, trail, lands, known⟩ := reveals w₁ sound heap ready boundFirst
      obtain ⟨w₃, rest, landsRest, last⟩ := (resume w₂ _ lands).reveals each known boundRest
      have whole := ((trail.mono within).append rest).after leads
      exact ⟨w₃, whole, ⟨whole.leads, landsRest.sound, landsRest.heap, landsRest.scope, landsRest.result⟩, last⟩
    · obtain ⟨w₂, trail, lands⟩ := each b n w₁ sound heap ready boundFirst
      obtain ⟨w₃, rest, landsRest, last⟩ := ih w₂ _ lands later boundRest
      have whole := ((trail.mono within).append rest).after leads
      exact ⟨w₃, whole, ⟨whole.leads, landsRest.sound, landsRest.heap, landsRest.scope, landsRest.result⟩, last⟩

end

namespace Task

variable {view : View} {w : World} {r : Ref .scope} {site : Site} {t part : Task}

theorem reveals_of_plan {fuel : Nat} {a : Activity} {m : Machine}
    (plan : ∀ w, w.Sound view → w.heap = m.heap → a.Ready view w m →
      (view.strict → ∀ e ∈ Treewalk.history (fuel + 1) a m, ¬e.CallsUnbound) →
        (a.plan fuel m).Reveals view (a.permit m) m.scope (a.Good view m.scope) r site (perform fuel)
          (Treewalk.history fuel) w) :
    Reveals view r site ⟨fuel + 1, a, m⟩ := by
  intro w sound heap ready bound
  obtain ⟨w', trail, lands, known⟩ := plan w sound heap ready bound fun strict e member =>
    bound strict e (by simp [history, Treewalk.history, member])
  exact ⟨w', .around sound heap ready trail lands, lands, known⟩

theorem Asks.reveals (asks : t.Asks part) (reveals : part.Reveals view r site) : t.Reveals view r site := by
  obtain ⟨fuel, a, m⟩ := t
  obtain ⟨rfl, asked⟩ := asks
  refine reveals_of_plan fun w sound heap ready bound => ?_
  exact (a.safe_of_ready sound heap ready bound).reveals_asked (history_leaves view part.fuel) asked reveals

theorem Contains.reveals (contains : t.Contains part) (reveals : part.Reveals view r site) :
    t.Reveals view r site := by
  induction contains with
  | refl => exact reveals
  | tail _ asks ih => exact ih (asks.reveals reveals)

end Task

/-- What comes to be known in a task of a run is known at its end. -/
theorem Performs.trail {view : View} {w : World} {r : Ref .scope} {site : Site} {m m' : Machine} {H : List Event}
    {t : Task} (performs : Performs view.allowed m H m' t) (reveals : t.Reveals view r site)
    (arrived : Arrived view w m) (bound : view.strict → ∀ e ∈ H, ¬e.CallsUnbound) :
    ∃ w', Trail view .any w H w' ∧ Arrived view w' m' ∧ w'.siteOf? r = some site := by
  have any {k : Permit} (finished : k.makes = false) : k.Within .any :=
    ⟨fun _ _ _ => .inl (Nat.zero_le _), fun _ => finished⟩
  induction performs with
  | stmt before accepted may contains =>
    obtain ⟨w₁, first, there⟩ := before.trail arrived fun asked e member => bound asked e (List.mem_append_left _ member)
    obtain ⟨w₂, second, lands, known⟩ := contains.reveals reveals w₁ there.sound there.heap (there.ready accepted may)
      fun asked e member => bound asked e (List.mem_append_right _ member)
    exact ⟨w₂, first.append (second.mono (any rfl)), ⟨lands.sound, lands.heap, lands.scope.trans there.scope⟩, known⟩
  | value before accepted may contains =>
    obtain ⟨w₁, first, there⟩ := before.trail arrived fun asked e member => bound asked e (List.mem_append_left _ member)
    obtain ⟨w₂, second, lands, known⟩ := contains.reveals reveals w₁ there.sound there.heap
      (there.readyExpr accepted may) fun asked e member => bound asked e (List.mem_append_right _ member)
    exact ⟨w₂, first.append (second.mono (any rfl)), ⟨lands.sound, lands.heap, lands.scope.trans there.scope⟩, known⟩
  | @global m' n H name fuel cell a t before found asked contains =>
    obtain ⟨w₁, first, there⟩ := before.trail arrived fun asked e member => bound asked e (List.mem_append_left _ member)
    have stage : Stage view m'.calm w₁ m' := ⟨there.sound, there.heap, Nat.le_refl _⟩
    have safe := Evaluator.readCell_safe stage (there.sound.usable (by rw [there.heap, found])) 0
    have events : m'.globalEvents fuel name =
        (Evaluator.readCell cell 0 m').events (perform fuel) (history fuel) := by
      rw [Machine.globalEvents, found]
    rw [events] at bound ⊢
    obtain ⟨w₂, second, lands, known⟩ := safe.reveals_asked (history_leaves view fuel) asked (contains.reveals reveals)
      fun asked e member => bound asked e (List.mem_append_right _ member)
    rw [Machine.global_machine found]
    exact ⟨w₂, first.append (second.mono (any rfl)), ⟨lands.sound, lands.heap, lands.scope.trans there.scope⟩, known⟩
  | later _ after ih =>
    obtain ⟨w₁, first, there, known⟩ := ih reveals fun asked e member => bound asked e (List.mem_append_left _ member)
    obtain ⟨w₂, second, last⟩ := after.trail there fun asked e member => bound asked e (List.mem_append_right _ member)
    exact ⟨w₂, first.append second, last, second.leads.sites r site known⟩

end Treewalk
