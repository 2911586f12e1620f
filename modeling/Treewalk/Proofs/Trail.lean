import Treewalk.Proofs.History
import Treewalk.Proofs.SafeStmt

/-!
Sound worlds along a run. At every moment of a run there is a sound world whose heap is that of the machine,
and each of these worlds leads to the next.
-/

namespace Treewalk

open Scoping Plan

variable {view : View} {k k' : Permit} {w w' w'' : World} {m : Machine}

/-- What an event says of the world in which it takes place. -/
def Event.Good (view : View) (w : World) : Event → Prop
  | .started a m => a.Ready view w m
  | .ended a m outcome => ∀ v m', outcome = .ok v m' → a.Good view m.scope w v

/-- A sound world at an event. -/
structure Event.Seen (view : View) (w : World) (e : Event) : Prop where
  sound : w.Sound view
  heap : w.heap = e.machine.heap
  good : e.Good view w

inductive Trail (view : View) (k : Permit) : World → List Event → World → Prop where
  | nil {w w' : World} (leads : w.Leads k w') : Trail view k w [] w'
  | cons {w w₁ w' : World} {e : Event} {H : List Event} (leads : w.Leads k w₁) (seen : e.Seen view w₁)
      (rest : Trail view k w₁ H w') : Trail view k w (e :: H) w'

namespace Trail

variable {H H' : List Event}

theorem leads (trail : Trail view k w H w') : w.Leads k w' := by
  induction trail with
  | nil leads => exact leads
  | cons leads _ _ ih => exact leads.trans ih

theorem after (trail : Trail view k w' H w'') (leads : w.Leads k w') : Trail view k w H w'' := by
  cases trail with
  | nil later => exact .nil (leads.trans later)
  | cons later seen rest => exact .cons (leads.trans later) seen rest

theorem append (first : Trail view k w H w') (second : Trail view k w' H' w'') :
    Trail view k w (H ++ H') w'' := by
  induction first with
  | nil leads => exact second.after leads
  | cons leads seen _ ih => exact .cons leads seen (ih second)

theorem mono (trail : Trail view k w H w') (within : k.Within k') : Trail view k' w H w' := by
  induction trail with
  | nil leads => exact .nil (leads.mono within)
  | cons leads seen _ ih => exact .cons (leads.mono within) seen ih

/-- Every event of a history has a world, between the first and the last one. -/
theorem seen {e : Event} (trail : Trail view k w H w') (member : e ∈ H) :
    ∃ v, e.Seen view v ∧ w.Leads k v ∧ v.Leads k w' := by
  induction trail with
  | nil leads => cases member
  | cons leads seen rest ih =>
    rcases List.mem_cons.mp member with rfl | member
    · exact ⟨_, seen, leads, rest.leads⟩
    · obtain ⟨v, held, later, further⟩ := ih member
      exact ⟨v, held, leads.trans later, further⟩

/-- Every moment of a run has a world, between the first and the last one. -/
theorem at_moment {n : Machine} (trail : Trail view k w H w') (sound : w'.Sound view) (heap : w'.heap = m.heap)
    (moment : n ∈ moments H m) : ∃ v, v.Sound view ∧ v.heap = n.heap ∧ w.Leads k v ∧ v.Leads k w' := by
  rcases List.mem_append.mp moment with earlier | last
  · obtain ⟨e, found, rfl⟩ := List.mem_map.mp earlier
    obtain ⟨v, seen, before, after⟩ := trail.seen found
    exact ⟨v, seen.sound, seen.heap, before, after⟩
  · obtain rfl := List.mem_singleton.mp last
    exact ⟨w', sound, heap, trail.leads, .refl _ _⟩

theorem split {e : Event} (trail : Trail view k w (H ++ e :: H') w') :
    ∃ v, Trail view k w H v ∧ e.Seen view v ∧ Trail view k v H' w' := by
  induction H generalizing w with
  | nil =>
    cases trail with
    | cons leads seen rest => exact ⟨_, .nil leads, seen, rest⟩
  | cons first others ih =>
    cases trail with
    | cons leads seen rest =>
      obtain ⟨v, before, held, later⟩ := ih rest
      exact ⟨v, .cons leads seen before, held, later⟩

/-- What is true of all sound worlds to which the first one leads is true at all moments of a run. -/
theorem forall_later {Q : Machine → Prop} (trail : Trail view k w H w') (sound : w'.Sound view)
    (heap : w'.heap = m.heap)
    (each : ∀ (v : World) n, w.Leads k v → v.Sound view → v.heap = n.heap → Q n) :
    ∀ n ∈ moments H m, Q n := by
  intro n moment
  obtain ⟨v, seen, there, leads, -⟩ := trail.at_moment sound heap moment
  exact each v n leads seen there

theorem forall_moments {Q : Machine → Prop} (trail : Trail view k w H w') (sound : w'.Sound view)
    (heap : w'.heap = m.heap) (each : ∀ (v : World) n, v.Sound view → v.heap = n.heap → Q n) :
    ∀ n ∈ moments H m, Q n :=
  trail.forall_later sound heap fun v n _ => each v n

/-- What is true of any two sound worlds of which the one leads to the other is true of any two moments of
a run. -/
theorem pairwise_moments {R : Machine → Machine → Prop} (trail : Trail view k w H w')
    (sound : w'.Sound view) (heap : w'.heap = m.heap)
    (each : ∀ (v v' : World) n n', v.Sound view → v.heap = n.heap → v'.heap = n'.heap →
      v.Leads k v' → R n n') :
    (moments H m).Pairwise R := by
  induction trail with
  | nil leads => simp [moments]
  | cons leads seen rest ih =>
    refine List.pairwise_cons.mpr ⟨fun n member => ?_, ih sound heap⟩
    rcases List.mem_append.mp member with later | last
    · obtain ⟨e, found, rfl⟩ := List.mem_map.mp later
      obtain ⟨v, held, further, -⟩ := rest.seen found
      exact each _ v _ _ seen.sound seen.heap held.heap further
    · obtain rfl := List.mem_singleton.mp last
      exact each _ _ _ n seen.sound seen.heap heap rest.leads

end Trail

def Leaves (view : View) (perform : (a : Activity) → Machine → Outcome a.Result)
    (history : Activity → Machine → List Event) : Prop :=
  ∀ a m w, w.Sound view → w.heap = m.heap → a.Ready view w m →
    (view.strict → ∀ e ∈ history a m, ¬e.CallsUnbound) →
    ∃ w', Trail view (a.permit m) w (history a m) w' ∧
      Lands view (a.permit m) m.scope (a.Good view m.scope) w w' (perform a m)

/-- A safe plan leaves a trail if the activities that it asks for do. -/
theorem Plan.Safe.leaves {perform : (a : Activity) → Machine → Outcome a.Result}
    {history : Activity → Machine → List Event} (each : Leaves view perform history)
    {scope : Ref .scope} {Q : World → α → Prop} {plan : Plan α} (safe : Safe view k scope Q w plan)
    (bound : view.strict → ∀ e ∈ plan.events perform history, ¬e.CallsUnbound) :
    ∃ w', Trail view k w (plan.events perform history) w' ∧
      Lands view k scope Q w w' (plan.outcome perform) := by
  induction safe with
  | done lands => exact ⟨_, .nil lands.leads, lands⟩
  | @ask w w₁ a m next leads sound heap ready within resume ih =>
    obtain ⟨w₂, trail, lands⟩ := each a m w₁ sound heap ready fun asked e member =>
      bound asked e (List.mem_append_left _ member)
    obtain ⟨w₃, rest, landsRest⟩ := ih w₂ _ lands fun asked e member =>
      bound asked e (List.mem_append_right _ member)
    have whole := ((trail.mono within).append rest).after leads
    exact ⟨w₃, whole, whole.leads, landsRest.sound, landsRest.heap, landsRest.scope, landsRest.result⟩

/-- The plan of what is ready is safe, if no accessor is called without its receiver. -/
theorem Activity.safe_of_ready {a : Activity} {fuel : Nat} (sound : w.Sound view) (heap : w.heap = m.heap)
    (ready : a.Ready view w m) (bound : view.strict → ∀ e ∈ history (fuel + 1) a m, ¬e.CallsUnbound) :
    Safe view (a.permit m) m.scope (a.Good view m.scope) w (a.plan fuel m) := by
  refine a.plan_safe fuel sound heap ready ?_
  rintro asked f args generics line rfl unbound
  rw [heap] at unbound
  exact bound asked _ List.mem_cons_self unbound

theorem Trail.around {a : Activity} {fuel : Nat} (sound : w.Sound view) (heap : w.heap = m.heap)
    (ready : a.Ready view w m)
    (trail : Trail view (a.permit m) w ((a.plan fuel m).events (Treewalk.perform fuel) (history fuel)) w')
    (lands : Lands view (a.permit m) m.scope (a.Good view m.scope) w w' (Treewalk.perform (fuel + 1) a m)) :
    Trail view (a.permit m) w (history (fuel + 1) a m) w' := by
  have last : (Event.ended a m (Treewalk.perform (fuel + 1) a m)).Seen view w' :=
    ⟨lands.sound, lands.heap, lands.result⟩
  refine .cons (.refl _ w) ⟨sound, heap, ready⟩ (trail.append ?_)
  exact .cons (.refl _ w') last (.nil (.refl _ w'))

/-- Whatever is ready to be performed leaves a trail of sound worlds. -/
theorem history_leaves (view : View) (fuel : Nat) : Leaves view (perform fuel) (history fuel) := by
  induction fuel with
  | zero =>
    intro a m w sound heap ready _
    refine ⟨w, .cons (.refl _ w) ⟨sound, heap, ready⟩ (.cons (.refl _ w) ⟨sound, heap, ?_⟩ (.nil (.refl _ w))),
      .refl _ w, sound, heap, rfl, ?_⟩
    all_goals
      intro _ _ same
      cases same
  | succ fuel ih =>
    intro a m w sound heap ready bound
    obtain ⟨w', trail, lands⟩ := (a.safe_of_ready sound heap ready bound).leaves ih fun asked e member =>
      bound asked e (by simp [history, member])
    exact ⟨w', .around sound heap ready trail lands, lands⟩

def World.initial : World :=
  ⟨[.block []], initialHeap⟩

namespace World

theorem initial_native {f : Ref .function} (inside : f.index < initialHeap.functions.size) :
    ∃ native, (initialHeap.function f).body = .native native none ∧
      (f.index = 0 → native = .objectText) := by
  obtain ⟨i⟩ := f
  have few : i < 5 := inside
  match i, few with
  | 0, _ => exact ⟨.objectText, rfl, fun _ => rfl⟩
  | 1, _ => exact ⟨.clock, rfl, fun zero => by cases zero⟩
  | 2, _ => exact ⟨.print, rfl, fun zero => by cases zero⟩
  | 3, _ => exact ⟨.println, rfl, fun zero => by cases zero⟩
  | 4, _ => exact ⟨.error, rfl, fun zero => by cases zero⟩

theorem initial_entry {r : Ref .scope} {name : String} {cell : Cell}
    (found : initialHeap.here? r name = some cell) : r = .globals ∧ (name, cell) ∈ initialGlobals.entries := by
  have inside := Heap.lt_of_here? (by rw [found]; rfl : (initialHeap.here? r name).isSome = true)
  obtain rfl : r = .globals := Ref.ext_index (Nat.lt_one_iff.mp inside)
  exact ⟨rfl, NameMap.mem_of_find? found⟩

theorem initial_ordinary {name : String} {cell : Cell} (member : (name, cell) ∈ initialGlobals.entries) :
    Ordinary name := by
  simp [initialGlobals, nativeGlobals, NameMap.insert, NameMap.insertIn, NameMap.empty] at member
  rcases member with ⟨rfl, -⟩ | ⟨rfl, -⟩ | ⟨rfl, -⟩ | ⟨rfl, -⟩ | ⟨rfl, -⟩
  all_goals exact ⟨by decide, by decide⟩

/-- A global that is there from the start is a constant, and a native function or the root class. -/
theorem initial_cell {r : Ref .scope} {name : String} {cell : Cell}
    (found : initialHeap.here? r name = some cell) :
    ∃ value, cell = { content := .plain value, modifiers := { const := true } } ∧
      (value = .cls .objectClass ∨ ∃ f : Ref .function, value = .function f ∧ f.index < 5) := by
  obtain ⟨-, member⟩ := initial_entry found
  simp [initialGlobals, nativeGlobals, NameMap.insert, NameMap.insertIn, NameMap.empty] at member
  rcases member with ⟨-, rfl⟩ | ⟨-, rfl⟩ | ⟨-, rfl⟩ | ⟨-, rfl⟩ | ⟨-, rfl⟩
  · exact ⟨_, rfl, .inl rfl⟩
  all_goals exact ⟨_, rfl, .inr ⟨_, rfl, by decide⟩⟩

theorem initial_sound (view : View) : World.initial.Sound view where
  sites := rfl
  globals := Nat.one_pos
  root := Nat.one_pos
  ancestry c parent inside found := by
    obtain ⟨i⟩ := c
    obtain rfl : i = 0 := Nat.lt_one_iff.mp inside
    cases found
  outside decl found := by cases found
  outermost := rfl
  inner r positive inside := absurd (Nat.lt_one_iff.mp inside) (Nat.ne_of_gt positive)
  cells r name cell found := by
    obtain ⟨value, rfl, rfl | ⟨f, rfl, inside⟩⟩ := initial_cell found
    · exact ⟨Nat.one_pos, Heap.admits_free _ rfl rfl rfl⟩
    · obtain ⟨native, body, -⟩ := initial_native inside
      refine ⟨⟨inside, ?_⟩, Heap.admits_free _ rfl rfl rfl⟩
      change World.initial.Closed view (initialHeap.function f)
      unfold Closed
      rw [body]
      exact fun some => by cases some
  serves r name cell found := by
    obtain ⟨rfl, member⟩ := initial_entry found
    exact ⟨_, rfl, Site.serves_ordinary (initial_ordinary member)⟩
  dynamic name cell found := by
    obtain ⟨value, rfl, -⟩ := initial_cell found
    rfl
  classScopes r decl found name := by
    have inside := (List.getElem?_eq_some_iff.mp found).1
    obtain ⟨i⟩ := r
    obtain rfl : i = 0 := Nat.lt_one_iff.mp inside
    cases found
  functions f inside := by
    obtain ⟨native, body, -⟩ := initial_native inside
    change (initialHeap.function f).Rooted view
    unfold Function.Rooted
    rw [body]
    exact fun some => by cases some
  classes c inside := by
    obtain ⟨i⟩ := c
    obtain rfl : i = 0 := Nat.lt_one_iff.mp inside
    refine ⟨List.all_eq_true.mp (by decide), fun name member => ?_, fun parent none => ?_, fun x member => ?_,
      fun x member => ?_, fun i member => ?_, fun templates => absurd rfl templates⟩
    · cases member
    · cases none
    · rcases NameMap.mem_insert member with rfl | absent
      · exact ⟨⟨by decide, rfl⟩, fun named => absurd named (by decide)⟩
      · cases absent
    · cases member
    · cases member
  objects o inside := by cases inside
  arrays a inside := by cases inside
  caches p inside := by cases inside
  interfaces i inside := by cases inside

end World

/-- A sound world at a machine that is not running anything. -/
structure Arrived (view : View) (w : World) (m : Machine) : Prop where
  sound : w.Sound view
  heap : w.heap = m.heap
  scope : m.scope = .globals

namespace Arrived

theorem ready (arrived : Arrived view w m) {s : Stmt} (accepted : Accepted s) (may : view.allowed s) :
    (Activity.stmt s).Ready view w m :=
  ⟨{}, accepted.at may, arrived.scope, by simp [World.Roomy], fun _ => arrived.scope⟩

theorem readyExpr (arrived : Arrived view w m) {e : Expr} (accepted : Accepted (.expr e))
    (may : view.allowed (.expr e)) : (Activity.expr e).Ready view w m :=
  ⟨{}, (accepted.at may).part (by simp [Item.parts, Stmt.parts]), fun _ => arrived.scope⟩

theorem perform {a : Activity} (arrived : Arrived view w m) (ready : a.Ready view w m) (fuel : Nat)
    (bound : view.strict → ∀ e ∈ history fuel a m, ¬e.CallsUnbound) :
    ∃ w', Trail view (a.permit m) w (history fuel a m) w' ∧
      Arrived view w' (perform fuel a m).machine := by
  obtain ⟨w', trail, lands⟩ := history_leaves view fuel a m w arrived.sound arrived.heap ready bound
  exact ⟨w', trail, lands.sound, lands.heap, lands.scope.trans arrived.scope⟩

theorem global (arrived : Arrived view w m) (name : String) (fuel : Nat)
    (bound : view.strict → ∀ e ∈ m.globalEvents fuel name, ¬e.CallsUnbound) :
    ∃ w', Trail view m.calm w (m.globalEvents fuel name) w' ∧
      Arrived view w' (m.global fuel name).2 := by
  unfold Machine.globalEvents at bound ⊢
  cases found : m.heap.here? .globals name with
  | none =>
    rw [Machine.global, found]
    exact ⟨w, .nil (.refl _ w), arrived⟩
  | some cell =>
    rw [found] at bound
    have stage : Stage view m.calm w m := ⟨arrived.sound, arrived.heap, Nat.le_refl _⟩
    have there : w.heap.here? .globals name = some cell := by rw [arrived.heap, found]
    have safe := Evaluator.readCell_safe stage (arrived.sound.usable there) 0
    obtain ⟨w', trail, lands⟩ := safe.leaves (history_leaves view fuel) bound
    rw [Machine.global_machine found]
    exact ⟨w', trail, lands.sound, lands.heap, lands.scope.trans arrived.scope⟩

end Arrived

/-- A run leaves a trail of sound worlds. -/
theorem Runs.trail {m m' : Machine} {H : List Event} (run : Runs view.allowed m H m')
    (arrived : Arrived view w m) (bound : view.strict → ∀ e ∈ H, ¬e.CallsUnbound) :
    ∃ w', Trail view .any w H w' ∧ Arrived view w' m' := by
  have any {k : Permit} (finished : k.makes = false) : k.Within .any :=
    ⟨fun _ _ _ => .inl (Nat.zero_le _), fun _ => finished⟩
  induction run with
  | refl => exact ⟨w, .nil (.refl _ w), arrived⟩
  | stmt before accepted may fuel ih =>
    obtain ⟨w₁, first, there⟩ := ih fun asked e member => bound asked e (List.mem_append_left _ member)
    obtain ⟨w₂, second, last⟩ := there.perform (there.ready accepted may) fuel fun asked e member =>
      bound asked e (List.mem_append_right _ member)
    exact ⟨w₂, first.append (second.mono (any rfl)), last⟩
  | value before accepted may fuel ih =>
    obtain ⟨w₁, first, there⟩ := ih fun asked e member => bound asked e (List.mem_append_left _ member)
    obtain ⟨w₂, second, last⟩ := there.perform (there.readyExpr accepted may) fuel fun asked e member =>
      bound asked e (List.mem_append_right _ member)
    exact ⟨w₂, first.append (second.mono (any rfl)), last⟩
  | global before name fuel ih =>
    obtain ⟨w₁, first, there⟩ := ih fun asked e member => bound asked e (List.mem_append_left _ member)
    obtain ⟨w₂, second, last⟩ := there.global name fuel fun asked e member =>
      bound asked e (List.mem_append_right _ member)
    exact ⟨w₂, first.append (second.mono (any rfl)), last⟩
  | host before heap scope ih =>
    obtain ⟨w₁, first, there⟩ := ih bound
    exact ⟨w₁, first, there.sound, there.heap.trans heap.symm, scope.trans there.scope⟩

/-- Whatever a run calls, it leaves a trail of worlds that are sound in the weaker sense. -/
theorem Reached.trail {m : Machine} {H : List Event} (reached : Reached H m) :
    ∃ w, Trail .lax .any .initial H w ∧ Arrived .lax w m := by
  obtain ⟨echo, clock, run⟩ := reached
  exact Runs.trail run ⟨World.initial_sound _, rfl, rfl⟩ fun impossible => impossible.elim

theorem Reached.typing {m : Machine} {H : List Event} (reached : Reached H m) :
    ∃ w, Trail .typing .any .initial H w ∧ Arrived .typing w m := by
  obtain ⟨echo, clock, run⟩ := reached
  exact Runs.trail run ⟨World.initial_sound _, rfl, rfl⟩ fun impossible => impossible.elim

end Treewalk
