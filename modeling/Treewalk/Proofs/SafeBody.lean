import Treewalk.Eval.Sequence
import Treewalk.Proofs.Safety

/-!
Scopes along the statements of a body. A declaration reserves its name while it is being run, and the
statements after it find the name bound.
-/

namespace Treewalk

open Scoping Plan

namespace World

variable {w w' : World} {r : Ref .scope} {levels : List Scoping.Level}

theorem Stands.begins (stands : w.Stands levels r) : w.Begins levels r := by
  cases levels with
  | nil => exact stands
  | cons l rest => exact stands.1

theorem Stands.head {f : Scoping.Level → Scoping.Level} (stands : w.Stands levels r)
    (still : ∀ l ∈ levels.head?, w.Realizes l r → w.Realizes (f l) r) :
    w.Stands (levels.modifyHead f) r := by
  cases levels with
  | nil => exact stands
  | cons l rest => exact ⟨still l rfl stands.1, stands.2⟩

theorem Begins.head {f : Scoping.Level → Scoping.Level} (begins : w.Begins levels r)
    (still : ∀ l ∈ levels.head?, w.Realizes l r → w.Realizes (f l) r) :
    w.Begins (levels.modifyHead f) r := by
  cases levels with
  | nil => exact begins
  | cons l rest => exact still l rfl begins

theorem Realizes.pending {l : Scoping.Level} (real : w.Realizes l r) (settled : l.pending = none)
    {frame : Frame} {name : String}
    (more : ∀ x, frame.contains x = true → x = name ∨ l.frame.contains x = true) :
    w.Realizes { l with frame := frame, pending := some name } r := by
  refine ⟨real.site, real.inner, fun x found other => ?_⟩
  rcases more x found with rfl | old
  · exact absurd rfl other
  · exact real.binds x old (by simp [settled])

theorem Realizes.bound {l : Scoping.Level} (real : w.Realizes l r) (settled : l.pending = none)
    {frame : Frame} {name : String} (bound : (w.heap.here? r name).isSome = true)
    (more : ∀ x, frame.contains x = true → x = name ∨ l.frame.contains x = true) :
    w.Realizes { l with frame := frame, pending := none } r := by
  refine ⟨real.site, real.inner, fun x found _ => ?_⟩
  rcases more x found with rfl | old
  · exact bound
  · exact real.binds x old (by simp [settled])

section

variable {p : Place} (runs : p.Runs)

include runs

theorem Stands.reserving (stands : w.Stands p.levels r) (name : String) :
    w.Stands (p.reserving name).levels r :=
  stands.head fun l member real => real.pending (runs l member).2 fun _ => contains_reserved.mp

theorem Stands.binding (stands : w.Stands p.levels r) (name : String) :
    w.Stands (p.binding name).levels r :=
  stands.head fun l member real => real.pending (runs l member).2 fun _ => contains_declared.mp

theorem Stands.after (stands : w.Stands p.levels r) {s : Stmt}
    (bound : ∀ name ∈ s.declares?, (w.heap.here? r name.text).isSome = true) :
    w.Stands (p.after s).levels r := by
  unfold Place.after
  split
  · rename_i name found
    exact stands.head fun l member real =>
      real.bound (runs l member).2 (bound name found) fun _ => contains_declared.mp
  · exact stands

theorem Begins.after (begins : w.Begins p.levels r) {s : Stmt}
    (bound : ∀ name ∈ s.declares?, (w.heap.here? r name.text).isSome = true) :
    w.Begins (p.after s).levels r := by
  unfold Place.after
  split
  · rename_i name found
    exact begins.head fun l member real =>
      real.bound (runs l member).2 (bound name found) fun _ => contains_declared.mp
  · exact begins

end

theorem Roomy.mono {k : Permit} (roomy : w.Roomy levels r) (leads : w.Leads k w')
    (inside : r.index < w.heap.scopes.size) (shut : ∀ name, ¬k.Allows r name) :
    w'.Roomy levels r := by
  intro l member name bound
  apply roomy l member name
  cases absent : w.heap.here? r name with
  | some cell => rfl
  | none =>
    rw [leads.grows.fresh r name inside (shut name) absent] at bound
    cases bound

theorem Begins.inside {view : View} (begins : w.Begins levels r) (sound : w.Sound view) :
    r.index < w.heap.scopes.size := by
  cases levels with
  | nil =>
    cases (begins : r = .globals)
    exact sound.globals
  | cons l rest => exact sound.inside (Realizes.site begins)

/-- After a statement its scope has at most the one name more that the statement declares. -/
theorem Roomy.after {p : Place} {m : Machine} {s : Stmt} (roomy : w.Roomy p.levels m.scope)
    (leads : w.Leads ((Activity.stmt s).permit m) w') (same : w.heap = m.heap)
    (inside : m.scope.index < w.heap.scopes.size) : w'.Roomy (p.after s).levels m.scope := by
  have shut (name : String) (other : ∀ declared ∈ s.declares?, name ≠ declared.text) :
      ¬((Activity.stmt s).permit m).Allows m.scope name := by
    rintro (new | target)
    · rw [same] at inside
      exact absurd inside (Nat.not_lt.mpr new)
    · simp only [Activity.permit, Activity.declares?, Option.map_map, Option.map_eq_some_iff] at target
      obtain ⟨declared, found, pair⟩ := target
      cases pair
      exact other declared found rfl
  unfold Place.after
  split
  · rename_i declared found
    intro l member name bound
    cases levels : p.levels with
    | nil => simp [Place.bound, levels] at member
    | cons head rest =>
      simp only [Place.bound, levels, List.modifyHead_cons, List.head?_cons, Option.mem_def,
        Option.some.injEq] at member
      subst member
      rw [contains_declared]
      by_cases new : name = declared.text
      · exact .inl new
      · right
        apply roomy head (by simp [levels]) name
        cases absent : w.heap.here? m.scope name with
        | some cell => rfl
        | none =>
          have none := leads.grows.fresh m.scope name inside (shut name (by simpa [found] using new)) absent
          rw [none] at bound
          cases bound
  · rename_i none
    exact roomy.mono leads inside fun name => shut name (by simp [none])

end World

section

variable {view : View} {k : Permit} {w : World} {m : Machine}

theorem Plan.Safe.exec {s : Stmt} {p : Place} (stage : Stage view k w m) (stands : At view p (.stmt s))
    (placed : w.Placed view p.levels m.scope) (within : ((Activity.stmt s).permit m).Within k) :
    Safe view k m.scope ((Activity.stmt s).Good view m.scope) w (Run.exec s m) :=
  asked (a := .stmt s) stage ⟨p, stands, placed⟩ within

/-- A branch declares nothing, and so may run everywhere. -/
theorem Plan.Safe.branch {s : Stmt} {p : Place} (stage : Stage view k w m) (stands : At view p (.stmt s))
    (plain : s.Plain) (placed : w.Placed view p.levels m.scope) :
    Safe view k m.scope (fun w' signal => signal.Known view w') w (Run.exec s m) := by
  have calm : (Activity.stmt s).permit m = m.calm := by
    simp [Activity.permit, Activity.declares?, plain.1, Machine.calm]
  refine (Safe.exec stage stands placed ?_).weaken fun _ _ good => good.1
  rw [calm]
  exact stage.calm_within

theorem Machine.calm_shut {r : Ref .scope} (inside : r.index < m.heap.scopes.size) (name : String) :
    ¬m.calm.Allows r name := by
  rintro (later | target)
  · exact Nat.not_lt.mpr later inside
  · cases target

theorem World.Placed.calm {w' : World} {levels : List Scoping.Level} {r : Ref .scope}
    (placed : w.Placed view levels r) (stage : Stage view k w m) (leads : w.Leads m.calm w') :
    w'.Placed view levels r := by
  have inside := placed.begins.inside stage.sound
  refine ⟨placed.begins.mono leads, placed.roomy.mono leads inside fun name => ?_,
    fun asked => (placed.around asked).mono leads⟩
  rw [stage.heap] at inside
  exact Machine.calm_shut inside name

/-- In a scope that is new a statement may declare names. -/
theorem permit_within (stage : Stage view k w m) (new : k.since ≤ m.scope.index) (s : Stmt) :
    ((Activity.stmt s).permit m).Within k := by
  refine ⟨?_, fun _ => rfl⟩
  rintro r name (later | target)
  · exact .inl (Nat.le_trans stage.since later)
  · simp only [Activity.permit, Option.map_eq_some_iff] at target
    obtain ⟨x, -, same⟩ := target
    cases same
    exact .inl new

end

namespace Evaluator

variable {view : View} {k : Permit} {w : World} {m : Machine}

theorem exprs_safe {es : List Expr} {p : Place} (stage : Stage view k w m)
    (stands : ∀ e ∈ es, At view p (.expr e)) (around : view.strict → w.Stands p.levels m.scope) :
    Safe view k m.scope (fun w values => ∀ value ∈ values, w.Known view value) w (exprs es m) := by
  induction es generalizing k w m with
  | nil => exact .pure stage (by simp)
  | cons e rest ih =>
    refine .bind stage (.eval stage.calm (stands e (by simp)) around) ?_
    intro w₁ m₁ value stage₁ leads₁ same₁ known
    refine .bind stage₁ (ih stage₁.calm (fun e member => stands e (by simp [member]))
      fun asked => same₁ ▸ (around asked).mono leads₁) ?_
    intro w₂ m₂ values stage₂ leads₂ _ others
    refine .pure stage₂ ?_
    simpa using ⟨known.mono leads₂, others⟩

theorem option_safe {e : Option Expr} {p : Place} (stage : Stage view k w m)
    (stands : ∀ x ∈ e, At view p (.expr x)) (around : view.strict → w.Stands p.levels m.scope) :
    Safe view k m.scope (fun w found => (found.isSome = true → e.isSome = true) ∧
      ∀ value ∈ found, w.Known view value) w (option e m) := by
  refine .mapM stage (by simp) fun x member => ?_
  refine (Safe.eval stage (stands x member) around).weaken fun w' value known => ?_
  have given : e = some x := member
  simpa [given] using known

theorem stmts_safe {ss : List Stmt} {p : Place} (stage : Stage view k w m)
    (new : k.since ≤ m.scope.index) (stands : ∀ q ∈ bodyParts p ss, At view q.1 q.2)
    (placed : w.Placed view p.levels m.scope) :
    Safe view k m.scope (fun w signal => signal.Known view w) w (stmts ss m) := by
  induction ss generalizing p k w m with
  | nil => exact .pure stage trivial
  | cons s rest ih =>
    have here : At view p (.stmt s) := stands (p, .stmt s) (by simp [bodyParts])
    have runs : p.Runs := Stmt.Fits.runs here.fits
    have own : Stage view ((Activity.stmt s).permit m) w m :=
      ⟨stage.sound, stage.heap, Nat.le_refl _⟩
    refine .bindWith stage (permit_within stage new s)
      (.exec own here placed (.refl _)) ?_
    rintro w₁ m₁ signal stage₁ leads₁ same₁ ⟨known, bound⟩
    have inside := placed.begins.inside stage.sound
    rw [← same₁] at bound
    cases signal with
    | normal =>
      refine ih stage₁ (same₁ ▸ new) (fun q member => stands q (List.mem_cons_of_mem _ member)) ⟨?_, ?_, ?_⟩
      · exact World.Begins.after runs (same₁ ▸ placed.begins.mono leads₁) bound
      · exact same₁ ▸ placed.roomy.after leads₁ stage.heap inside
      · exact fun asked => World.Stands.after runs (same₁ ▸ (placed.around asked).mono leads₁) bound
    | _ => exact .pure stage₁ known

end Evaluator

end Treewalk
