import Treewalk.Proofs.Trail

/-!
The promise of interfaces. A class has what the interfaces ask for that it lists itself, at every moment from
its declaration on. A class further down has it too, in the form that was asked for unless a class in between
has declared the member anew.
-/

namespace Treewalk

theorem World.Leads.listed_implemented {w : World} (leads : World.initial.Leads .any w) {s : Ref .cls}
    {i : Ref .interface} (inside : s.index < w.heap.classes.size) (listed : i ∈ (w.heap.cls s).interfaces) :
    w.heap.Implements s i := by
  by_cases root : s.index < initialHeap.classes.size
  · -- The root of all classes lists no interface.
    have none : (w.heap.cls s).interfaces = (initialHeap.cls s).interfaces :=
      (leads.grows.classes s root).2.interfaces
    obtain ⟨index⟩ := s
    obtain rfl : index = 0 := Nat.lt_one_iff.mp root
    rw [none] at listed
    cases listed
  · obtain ⟨view, finished, whole, there, implements, matures⟩ :=
      (leads.upkeep rfl).born s (Nat.le_of_not_lt root) inside
    rw [(matures.grows.classes s there).2.interfaces] at listed
    exact whole.implements_stays matures there ((whole.classes s there).interfaces i listed)
      (implements i listed)

theorem findSome?_append_some (below : List α) {rest : List α} {f : α → Option β} {b : β}
    (found : rest.findSome? f = some b) :
    ∃ first, (below ++ rest).findSome? f = some first ∧ ((∀ a ∈ below, f a = none) → first = b) := by
  rw [List.findSome?_append, found]
  cases before : below.findSome? f with
  | none => exact ⟨b, rfl, fun _ => rfl⟩
  | some first =>
    refine ⟨first, rfl, fun absent => ?_⟩
    rw [List.findSome?_eq_none_iff.mpr absent] at before
    cases before

/-- At every moment, whatever an interface asks for that a class or one of its superclasses lists is found in
the class; and it has the signature modifiers and the arity that the interface asks for, if no class below the
one that lists the interface has a member of this name. -/
theorem interfaces_implemented {H : List Event} {m : Machine} (reached : Reached H m) :
    ∀ n ∈ moments H m, ∀ c : Ref .cls, c.index < n.heap.classes.size →
      ∀ below s above, n.heap.lineage c = below ++ s :: above → ∀ i ∈ (n.heap.cls s).interfaces,
        (∀ name required, (n.heap.interface i).methods.find? name = some required →
          ∃ f, n.heap.findMethod? c name = some f ∧
            ((∀ d ∈ below, (n.heap.cls d).methods.find? name = none) → n.heap.Meets f required)) ∧
        ∀ name required, (n.heap.interface i).fields.find? name = some required →
          ∃ cell, n.heap.findField? c name = some cell ∧
            ((∀ d ∈ below, (n.heap.cls d).fields.find? name = none) →
              cell.modifiers.signature = required.modifiers.signature) := by
  obtain ⟨w, trail, arrived⟩ := reached.trail
  refine trail.forall_later arrived.sound arrived.heap ?_
  intro v n leads sound heap c inside below s above split i listed
  rw [← heap] at inside split listed ⊢
  obtain ⟨own, there⟩ := Heap.lineage_from sound.ancestry inside split
  have implements := leads.listed_implemented there listed
  constructor
  · intro name required asked
    obtain ⟨f, found, meets⟩ := implements.methods name required asked
    rw [Heap.findMethod?, own] at found
    obtain ⟨first, nearest, same⟩ := findSome?_append_some below found
    refine ⟨first, by rw [Heap.findMethod?, split, nearest], fun absent => ?_⟩
    rw [same absent]
    exact meets
  · intro name required asked
    obtain ⟨cell, found, signature⟩ := implements.fields name required asked
    rw [Heap.findField?, own] at found
    obtain ⟨first, nearest, same⟩ := findSome?_append_some below found
    refine ⟨first, by rw [Heap.findField?, split, nearest], fun absent => ?_⟩
    rw [same absent]
    exact signature

/-- A class that inherits from one that lists an interface, and takes the method of the interface with another
number of parameters. -/
def overriddenSource : String :=
  "interface I \x7b method m(); \x7d class A -> I \x7b method m() \x7b \x7d \x7d " ++
    "class B <- A \x7b method m(x) \x7b \x7d \x7d"

set_option maxRecDepth 100000 in
theorem overridden_run :
    ∃ H m, Reached H m ∧ 2 < m.heap.classes.size ∧ m.heap.lineage ⟨1⟩ = [⟨1⟩, ⟨0⟩] ∧
      m.heap.lineage ⟨2⟩ = [⟨2⟩, ⟨1⟩, ⟨0⟩] ∧ (m.heap.cls ⟨1⟩).interfaces = [⟨0⟩] ∧
      (m.heap.interface ⟨0⟩).methods.find? "m" = some ⟨5⟩ ∧ m.heap.findMethod? ⟨2⟩ "m" = some ⟨7⟩ ∧
      (m.heap.function ⟨7⟩).arity ≠ (m.heap.function ⟨5⟩).arity :=
  ⟨_, _, Reached.text 20 overriddenSource, by decide +kernel⟩

theorem interfaces_implemented_listed :
    ∃ H m, Reached H m ∧ ∃ i required f, i ∈ (m.heap.cls ⟨1⟩).interfaces ∧
      (m.heap.interface i).methods.find? "m" = some required ∧ m.heap.findMethod? ⟨1⟩ "m" = some f ∧
      m.heap.Meets f required := by
  obtain ⟨H, m, reached, inside, split, -, listed, asked, -, -⟩ := overridden_run
  have there : (⟨1⟩ : Ref .cls).index < m.heap.classes.size := Nat.lt_of_succ_lt inside
  have implemented := interfaces_implemented reached m (last_mem_moments H m) ⟨1⟩ there [] ⟨1⟩ [⟨0⟩] split
    ⟨0⟩ (by simp [listed])
  obtain ⟨f, found, meets⟩ := implemented.1 "m" ⟨5⟩ asked
  exact ⟨H, m, reached, ⟨0⟩, ⟨5⟩, f, by simp [listed], asked, found, meets (by simp)⟩

/-- A class need not implement the interfaces that its superclasses list. -/
theorem inherited_interface_broken :
    ¬∀ H m, Reached H m → ∀ c : Ref .cls, c.index < m.heap.classes.size → ∀ s ∈ m.heap.lineage c,
      ∀ i ∈ (m.heap.cls s).interfaces, m.heap.Implements c i := by
  intro promised
  obtain ⟨H, m, reached, inside, -, lineage, listed, asked, nearest, arities⟩ := overridden_run
  have implements := promised H m reached ⟨2⟩ inside ⟨1⟩ (by simp [lineage]) ⟨0⟩ (by simp [listed])
  obtain ⟨f, found, -, arity⟩ := implements.methods "m" ⟨5⟩ asked
  rw [nearest] at found
  cases found
  exact arities arity

end Treewalk
