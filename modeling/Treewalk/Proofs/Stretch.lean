import Treewalk.Proofs.Composition
import Treewalk.Proofs.History

/-!
Stretches of a run. Between two events that follow each other an activity works on the machine by itself. What
it may do to the heap there is a relation, which may depend on what has happened before; a history is linked by
the relation if all of its stretches are in it. For this it is enough to look at the plans of the activities,
one by one.
-/

namespace Treewalk

/-- Each event of a history is reached from the one before by a stretch. -/
def Linked (R : List Event → Heap → Heap → Prop) : List Event → Heap → List Event → Prop
  | _, _, [] => True
  | past, h, e :: rest => R past h e.machine.heap ∧ Linked R (past ++ [e]) e.machine.heap rest

def heapAfter (h : Heap) : List Event → Heap
  | [] => h
  | e :: rest => heapAfter e.machine.heap rest

theorem heapAfter_append (h : Heap) (before after : List Event) :
    heapAfter h (before ++ after) = heapAfter (heapAfter h before) after := by
  induction before generalizing h with
  | nil => rfl
  | cons e rest ih => exact ih e.machine.heap

theorem heapAfter_history (h : Heap) (fuel : Nat) (a : Activity) (m : Machine) :
    heapAfter h (history fuel a m) = (perform fuel a m).machine.heap := by
  cases fuel with
  | zero => rfl
  | succ fuel => exact heapAfter_append _ _ _

theorem ended_mem_history (fuel : Nat) (a : Activity) (m : Machine) :
    .ended a m (perform fuel a m) ∈ history fuel a m := by
  cases fuel <;> simp [history]

variable {R : List Event → Heap → Heap → Prop} {past : List Event} {h : Heap}

theorem Linked.append {before after : List Event} (first : Linked R past h before)
    (second : Linked R (past ++ before) (heapAfter h before) after) : Linked R past h (before ++ after) := by
  induction before generalizing past h with
  | nil => simpa [heapAfter] using second
  | cons e rest ih =>
    refine ⟨first.1, ih first.2 ?_⟩
    rw [List.append_assoc]
    exact second

theorem Linked.later {before after : List Event} {e : Event} (linked : Linked R past h (before ++ e :: after)) :
    Linked R (past ++ (before ++ [e])) e.machine.heap after := by
  induction before generalizing past h with
  | nil => exact linked.2
  | cons first rest ih => simpa using ih linked.2

/-- The stretches of a plan, from the heap at the last event on. Whatever an activity comes to that the plan asks
for, the plan goes on from there. -/
def Plan.Goes (R : List Event → Heap → Heap → Prop) (Q : List Event → Heap → Outcome α → Prop) :
    List Event → Heap → Plan α → Prop
  | past, h, .done outcome => Q past h outcome
  | past, h, .ask a m next => R past h m.heap ∧ ∀ more outcome, .ended a m outcome ∈ more →
      Goes R Q (past ++ more) outcome.machine.heap (next outcome)

namespace Plan.Goes

variable {Q Q' : List Event → Heap → Outcome α → Prop}

theorem andThen {P : List Event → Heap → Outcome β → Prop} {plan : Plan α} {f : Outcome α → Plan β}
    (first : plan.Goes R Q past h)
    (next : ∀ more h' outcome, Q (past ++ more) h' outcome → (f outcome).Goes R P (past ++ more) h') :
    (plan.andThen f).Goes R P past h := by
  induction plan generalizing past h with
  | done outcome =>
    have last := next [] h outcome
    rw [List.append_nil] at last
    exact last first
  | ask a m rest ih =>
    refine ⟨first.1, fun more outcome ended => ih outcome (first.2 more outcome ended) fun further h' last reached => ?_⟩
    rw [List.append_assoc] at reached ⊢
    exact next _ h' last reached

theorem bind {P : List Event → Heap → Outcome β → Prop} {c : Run α} {f : α → Run β} {m : Machine}
    (first : (c m).Goes R Q past h)
    (next : ∀ more h' a m', Q (past ++ more) h' (.ok a m') → (f a m').Goes R P (past ++ more) h')
    (stops : ∀ more h' reason m', Q (past ++ more) h' (.error reason m') → P (past ++ more) h' (.error reason m')) :
    ((c >>= f) m).Goes R P past h := by
  refine first.andThen fun more h' outcome reached => ?_
  cases outcome with
  | ok a m' => exact next more h' a m' reached
  | error reason m' => exact stops more h' reason m' reached

theorem weaken {plan : Plan α} (goes : plan.Goes R Q past h)
    (weaker : ∀ more h' outcome, Q (past ++ more) h' outcome → Q' (past ++ more) h' outcome) :
    plan.Goes R Q' past h := by
  have same : plan.andThen .done = plan := by
    clear goes
    induction plan with
    | done outcome => rfl
    | ask a m next ih => exact congrArg (Plan.ask a m) (funext ih)
  rw [← same]
  exact goes.andThen weaker

theorem linked {perform : (a : Activity) → Machine → Outcome a.Result} {history : Activity → Machine → List Event}
    (each : ∀ past h a m, R past h m.heap → Linked R past h (history a m))
    (ends : ∀ a m, .ended a m (perform a m) ∈ history a m)
    (last : ∀ h a m, heapAfter h (history a m) = (perform a m).machine.heap) {plan : Plan α}
    (goes : plan.Goes R Q past h) :
    Linked R past h (plan.events perform history) ∧
      Q (past ++ plan.events perform history) (heapAfter h (plan.events perform history)) (plan.outcome perform) := by
  induction plan generalizing past h with
  | done outcome =>
    rw [events, List.append_nil]
    exact ⟨trivial, goes⟩
  | ask a m next ih =>
    have resumed := goes.2 (history a m) (perform a m) (ends a m)
    rw [← last h a m] at resumed
    obtain ⟨rest, reached⟩ := ih (perform a m) resumed
    refine ⟨(each past h a m goes.1).append rest, ?_⟩
    rw [events, heapAfter_append, ← List.append_assoc]
    exact reached

end Plan.Goes

def Activity.Goes (R : List Event → Heap → Heap → Prop) : Prop :=
  ∀ (a : Activity) fuel m past,
    (a.plan fuel m).Goes R (fun past h outcome => R past h outcome.machine.heap) past m.heap

theorem history_linked (same : ∀ past h, R past h h) (goes : Activity.Goes R) (fuel : Nat) (past : List Event)
    (h : Heap) (a : Activity) (m : Machine) (first : R past h m.heap) : Linked R past h (history fuel a m) := by
  induction fuel generalizing past h a m with
  | zero => exact ⟨first, same _ _, trivial⟩
  | succ fuel ih =>
    obtain ⟨inner, last⟩ := (goes a fuel m (past ++ [.started a m])).linked ih (ended_mem_history fuel)
      (fun h => heapAfter_history h fuel)
    refine ⟨first, inner.append ⟨?_, trivial⟩⟩
    exact last

theorem Evaluator.readCell_goes (same : ∀ past h, R past h h) (cell : Cell) (line : Line) (m : Machine) :
    (readCell cell line m).Goes R (fun _ h outcome => outcome.machine.heap = h) past m.heap := by
  unfold readCell
  cases cell.content with
  | plain value => exact rfl
  | computed p =>
    refine ⟨same _ _, fun more outcome _ => ?_⟩
    cases outcome with
    | error reason after => exact rfl
    | ok value after =>
      change Plan.Goes R _ _ _ ((Run.orRaise line _ >>= _) after)
      cases after.heap.checkType (m.heap.property p).declared (m.heap.property p).name value <;> exact rfl

/-- A run is linked, and afterwards the heap is that of the last event. -/
theorem Runs.linked {allowed : Stmt → Prop} {m m' : Machine} {H : List Event} (same : ∀ past h, R past h h)
    (goes : Activity.Goes R) (run : Runs allowed m H m') :
    Linked R [] m.heap H ∧ heapAfter m.heap H = m'.heap := by
  induction run with
  | refl => exact ⟨trivial, rfl⟩
  | stmt before accepted may fuel ih | value before accepted may fuel ih =>
    obtain ⟨linked, last⟩ := ih
    refine ⟨linked.append (history_linked same goes fuel _ _ _ _ ?_), ?_⟩
    · rw [last]
      exact same _ _
    · rw [heapAfter_append, heapAfter_history]
  | @global m' H before name fuel ih =>
    obtain ⟨linked, last⟩ := ih
    rw [heapAfter_append, last]
    unfold Machine.globalEvents
    cases found : m'.heap.here? .globals name with
    | none =>
      rw [Machine.global, found]
      exact ⟨by simpa using linked, rfl⟩
    | some cell =>
      obtain ⟨inner, done⟩ := (Evaluator.readCell_goes same cell 0 m').linked (history_linked same goes fuel)
        (ended_mem_history fuel) (fun h => heapAfter_history h fuel)
      rw [Machine.global_machine found]
      refine ⟨linked.append ?_, done.symm⟩
      rw [last]
      exact inner
  | host before heap scope ih =>
    obtain ⟨linked, last⟩ := ih
    exact ⟨linked, last.trans heap.symm⟩

/-- All stretches are in the relation that holds of everything. -/
theorem Plan.Goes.anywhere (plan : Plan α) (past : List Event) (h : Heap) :
    plan.Goes (fun _ _ _ => True) (fun _ _ _ => True) past h := by
  induction plan generalizing past h with
  | done outcome => trivial
  | ask a m next ih => exact ⟨trivial, fun _ outcome _ => ih outcome _ _⟩

theorem Runs.heapAfter {allowed : Stmt → Prop} {m m' : Machine} {H : List Event} (run : Runs allowed m H m') :
    heapAfter m.heap H = m'.heap :=
  (run.linked (fun _ _ => trivial) fun _ _ _ _ => Plan.Goes.anywhere _ _ _).2

/-! Computations that leave classes and instances alone as far as a relation tells. -/

/-- A relation that allows to do nothing, looks at classes and instances only, and holds of stretches only. -/
structure Heap.Local (R : List Event → Heap → Heap → Prop) (L : Heap → Heap → Prop) : Prop where
  refl : ∀ h, L h h
  within : ∀ past {h h' : Heap}, L h h' → R past h h'
  same : ∀ {h h' h'' : Heap}, L h h' → h''.objects = h'.objects → h''.classes = h'.classes → L h h''

/-- A computation does to classes and instances what a relation allows, on top of what has been done. -/
def Run.Keeps (R : List Event → Heap → Heap → Prop) (L : Heap → Heap → Prop) (c : Run α) : Prop :=
  ∀ past h m, L h m.heap → (c m).Goes R (fun _ h' outcome => L h' outcome.machine.heap) past h

variable {L : Heap → Heap → Prop}

theorem Run.Keeps.ask (narrow : Heap.Local R L) (a : Activity) : (Run.ask a).Keeps R L :=
  fun past _ _ begun => ⟨narrow.within past begun, fun _ _ _ => narrow.refl _⟩

theorem keeps_compositional (narrow : Heap.Local R L) : Compositional (Run.Keeps R L) where
  pure _ _ _ _ begun := begun
  bind first next past h m begun :=
    (first past h m begun).bind (fun more h' a m' reached => next a _ h' m' reached) fun _ _ _ _ reached => reached
  stop _ _ _ _ begun := begun
  get _ _ _ begun := begun
  quiet quiet past h m begun := by
    obtain ⟨a, m', done, heap, -⟩ := quiet m
    rw [done]
    exact narrow.same begun (by rw [Outcome.machine, heap]) (by rw [Outcome.machine, heap])
  ask _ := .ask narrow _
  addScope _ _ _ _ begun := narrow.same begun rfl rfl
  addFunction _ _ _ _ begun := narrow.same begun rfl rfl
  addArray _ _ _ _ begun := narrow.same begun rfl rfl
  addProperty _ _ _ _ begun := narrow.same begun rfl rfl
  addInterface _ _ _ _ begun := narrow.same begun rfl rfl
  addEnumeration _ _ _ _ begun := narrow.same begun rfl rfl
  setElement _ _ _ _ _ _ begun := narrow.same begun rfl rfl
  setCache _ _ _ _ _ begun := narrow.same begun rfl rfl

/-- Scopes do not matter to what is kept. -/
theorem Run.Keeps.inScope (scope : Ref .scope) {c : Run α} (inner : c.Keeps R L) : (Run.inScope scope c).Keeps R L := by
  intro past h m begun
  have inside := inner past h { m with scope := scope } begun
  refine inside.andThen fun more h' outcome reached => ?_
  cases outcome <;> exact reached

theorem Run.Keeps.catching {body : Run α} {handler : RuntimeError → Run α} (inner : body.Keeps R L)
    (handles : ∀ e, (handler e).Keeps R L) : (Run.catching body handler).Keeps R L := by
  intro past h m begun
  refine (inner past h m begun).andThen fun more h' outcome reached => ?_
  match outcome with
  | .ok _ _ => exact reached
  | .error .crash _ | .error .outOfFuel _ => exact reached
  | .error (.fault e) m' => exact handles e _ h' m' reached

theorem Run.Keeps.update (narrow : Heap.Local R L) {f : Heap → Heap} (objects : ∀ h, (f h).objects = h.objects)
    (classes : ∀ h, (f h).classes = h.classes) : (Run.update f).Keeps R L :=
  fun _ _ m begun => narrow.same begun (objects m.heap) (classes m.heap)

end Treewalk
