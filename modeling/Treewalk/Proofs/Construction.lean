import Treewalk.Proofs.Trail

/-!
Making instances. Whatever its constructor does, making an instance of a class yields the new instance, which
is one of this class and of no other. A method of an interface that takes the place of a constructor is not
built as one, and yields what its body returns.
-/

namespace Treewalk

open Plan

def Heap.Has (h : Heap) : Value → Prop
  | .function f => f.index < h.functions.size
  | .cls c => c.index < h.classes.size
  | .object o => o.index < h.objects.size
  | .array a => a.index < h.arrays.size
  | .interface i => i.index < h.interfaces.size
  | .enumeration e => e.index < h.enumerations.size
  | _ => True

/-- Where nothing is asked about the scopes around it, a function of a program can be called. -/
theorem Function.Rooted.closed {f : Function} (rooted : f.Rooted .lax) (w : World) : w.Closed .lax f := by
  unfold Function.Rooted at rooted
  unfold World.Closed
  split
  · rename_i body closure found
    rw [found] at rooted
    obtain ⟨p, role, decl, stands, same, params⟩ := rooted
    exact ⟨p, role, decl, stands, same, params, fun impossible => impossible.elim⟩
  · rename_i found
    rwa [found] at rooted
  · trivial

theorem World.Sound.known {w : World} (sound : w.Sound .lax) {value : Value} (has : w.heap.Has value) :
    w.Known .lax value := by
  cases value with
  | function f => exact ⟨has, (sound.functions f has).closed w⟩
  | type t => exact fun impossible => impossible.elim
  | _ => exact has

/-- At every moment of a run, if making an instance of a class succeeds, its result is the instance that has
been made, the next one in the heap, and it is one of exactly this class, unless the class has the method of an
interface for its constructor. Instances that the constructor makes come later. -/
theorem instances_constructed {H : List Event} {m : Machine} (reached : Reached H m) :
    ∀ n ∈ moments H m, ∀ (c : Ref .cls) (args generics : List Value) (line : Line) (fuel : Nat) (value : Value)
      (n' : Machine), n.heap.Has (.cls c) → (∀ arg ∈ args, n.heap.Has arg) →
      (∀ f ∈ n.heap.constructor? c, ¬n.heap.Supplies f) →
      (Evaluator.construct c args generics line n).outcome (perform fuel) = .ok value n' →
      ∃ o, value = .object o ∧ o.index = n.heap.objects.size ∧ o.index < n'.heap.objects.size ∧
        (n'.heap.object o).cls = c := by
  obtain ⟨w, trail, arrived⟩ := reached.trail
  refine trail.forall_moments arrived.sound arrived.heap ?_
  intro v n sound heap c args generics line fuel value n' inside argsHad own succeeded
  have stage : Stage .lax n.calm v n := ⟨sound, heap, Nat.le_refl _⟩
  rw [← heap] at inside argsHad own ⊢
  have untyped : View.lax.typed → ∀ generic ∈ generics, v.Known .lax generic := fun impossible => impossible.elim
  have safe := Evaluator.construct_yields stage (sound.known inside)
    (fun arg member => sound.known (argsHad arg member)) untyped line
  obtain ⟨v', -, lands⟩ := safe.leaves (history_leaves .lax fuel) fun impossible => impossible.elim
  have last : v'.heap = n'.heap := by rw [lands.heap, succeeded]; rfl
  obtain ⟨o, same, next, there, cls⟩ := (lands.result value n' succeeded).2 own
  rw [last] at there cls
  exact ⟨o, same, next, there, cls⟩

/-- A class that inherits its constructor. -/
def inheritingSource : String :=
  "class A \x7b var n; method constructor(x) \x7b this.n = x; return; \x7d \x7d class B <- A \x7b \x7d"

def Outcome.succeeds : Outcome α → Bool
  | .ok _ _ => true
  | .error _ _ => false

set_option maxRecDepth 100000 in
theorem inheriting_run :
    ∃ H m, Reached H m ∧ 2 < m.heap.classes.size ∧ m.heap.interfaces.size = 0 ∧
      (m.heap.constructor? ⟨2⟩).isSome = true ∧
      ((Evaluator.construct ⟨2⟩ [.str "x"] [] 1 m).outcome (perform 20)).succeeds = true :=
  ⟨_, _, Reached.text 20 inheritingSource, by decide +kernel⟩

theorem instances_constructed_inherited :
    ∃ H m, Reached H m ∧ (m.heap.constructor? ⟨2⟩).isSome = true ∧ ∃ o n,
      (Evaluator.construct ⟨2⟩ [.str "x"] [] 1 m).outcome (perform 20) = .ok (.object o) n ∧
        (n.heap.object o).cls = ⟨2⟩ := by
  obtain ⟨H, m, reached, inside, none, found, succeeds⟩ := inheriting_run
  refine ⟨H, m, reached, found, ?_⟩
  have own (f : Ref .function) (_ : f ∈ m.heap.constructor? ⟨2⟩) : ¬m.heap.Supplies f :=
    fun ⟨i, there, _⟩ => by omega
  cases done : (Evaluator.construct ⟨2⟩ [.str "x"] [] 1 m).outcome (perform 20) with
  | ok value n =>
    obtain ⟨o, rfl, -, -, cls⟩ := instances_constructed reached m (last_mem_moments H m) ⟨2⟩ [.str "x"] [] 1 20
      value n inside (by simp [Heap.Has]) own done
    exact ⟨o, n, rfl, cls⟩
  | error stop n =>
    rw [done] at succeeds
    cases succeeds

end Treewalk
