import Treewalk.Proofs.RelabelStmt
import Treewalk.Proofs.Trail

/-!
Sessions. The ids that a session has given out have their distances for good: what is written into its table later is
about other ids. So the functions of its machine keep the distances that they were made with, and to run one text
after another is to run their statements one after another.
-/

namespace Treewalk

open Scoping

/-- The references of a statement have the distances of a table, and of every other one that agrees with it on the
ids that have been given out. -/
def Steady (nextId : Nat) (L : Locals) (s : Stmt) : Prop :=
  ∀ T : Locals, T.Agree 0 nextId L → s.relabel (.link T) = s

section

variable {n n' : Nat} {L entries : Locals}

theorem Steady.later {s : Stmt} (steady : Steady n L s) (between : entries.Between n n') (le : n ≤ n') :
    Steady n' (entries ++ L) s := by
  intro T agree
  refine steady T fun id above below => ?_
  rw [agree id above (Nat.lt_of_lt_of_le below le), between.agree_old id above below]

theorem Steady.of_links {numbered linked : List Stmt} (below : L.Between 0 n)
    (links : ∀ T : Locals, T.Agree n n' entries → numbered.map (Stmt.relabel (.link T)) = linked) :
    ∀ s ∈ linked, Steady n' (entries ++ L) s := by
  intro s member T agree
  have same : linked.map (Stmt.relabel (.link T)) = linked := by
    have once := links T (agree.later below (Nat.zero_le n))
    calc linked.map (Stmt.relabel (.link T))
      _ = (numbered.map (Stmt.relabel (.link T))).map (Stmt.relabel (.link T)) := by rw [once]
      _ = numbered.map (Stmt.relabel (.link T)) := by
        rw [List.map_map]
        exact List.map_congr_left fun s _ => s.relabel_relabel _ _
      _ = linked := once
  exact List.map_inj_left.mp (same.trans (List.map_id linked).symm) s member

end

/-! Functions of a run. -/

theorem Function.Rooted.relabel {f : Reference → Reference} {view : View} {g : Function} (rooted : g.Rooted view)
    (fixed : ∀ s, view.allowed s → s.relabel f = s) : g.relabel f = g := by
  cases found : g.body with
  | user body closure =>
    rw [Function.Rooted, found] at rooted
    obtain ⟨p, role, decl, ⟨root, -, may, within⟩, same, -⟩ := rooted
    have item := within.relabel_item (fixed root may)
    injection item with _ unchanged
    rw [FunctionDecl.relabel_eq, same] at unchanged
    have body : body.map (Stmt.relabel f) = body := by
      have bodies := congrArg FunctionDecl.body unchanged
      rw [same] at bodies
      exact Option.some.inj bodies
    rw [Function.relabel_user f g found, Stmt.relabelAll_eq, body, ← found]
  | native | missing => exact g.relabel_other f (by simp [found])

/-- A change of references that touches none of the statements of a run does not touch the functions either. -/
theorem Runs.relabel {f : Reference → Reference} {echo : Bool} {clock : Clock} {H : List Event} {m : Machine}
    (run : Runs (fun s => s.relabel f = s) (.initial echo clock) H m) : m.relabel f = m := by
  let view : View := ⟨False, fun s => s.relabel f = s, False⟩
  have start : Arrived view .initial (.initial echo clock) := ⟨World.initial_sound _, rfl, rfl⟩
  obtain ⟨w, -, arrived⟩ := Runs.trail run start fun impossible => impossible.elim
  have functions : m.heap.functions.map (Function.relabel f) = m.heap.functions := by
    refine Array.ext (by simp) fun i _ inside => ?_
    have rooted := arrived.sound.functions ⟨i⟩ (by rw [arrived.heap]; exact inside)
    rw [arrived.heap] at rooted
    have found : m.heap.function ⟨i⟩ = m.heap.functions[i] := by simp [Heap.function, inside]
    rw [Array.getElem_map, ← found]
    exact rooted.relabel fun _ same => same
  rw [Machine.relabel, Heap.relabel, functions]

namespace Session

/-- What a session has come to in which texts have been run and globals been read. In between, from outside, something
may have been printed and the flags may have been set. -/
inductive Reached : List Event → Session → Prop where
  | start (clock : Clock) : Reached [] (.start clock)
  | run {H : List Event} {s : Session} (before : Reached H s) (fuel : Nat) (source : String) :
      Reached (H ++ s.events fuel source) (s.run fuel source)
  | global {H : List Event} {s : Session} (before : Reached H s) (fuel : Nat) (name : String) :
      Reached (H ++ s.machine.globalEvents fuel name) { s with machine := (s.machine.global fuel name).2 }
  | host {H : List Event} {s t : Session} (before : Reached H s) (heap : t.machine.heap = s.machine.heap)
      (scope : t.machine.scope = s.machine.scope) (nextId : t.nextId = s.nextId) (locals : t.locals = s.locals) :
      Reached H t

/-- The table of a session is about ids that have been given out, and its machine has come about by a run of
statements with these ids. -/
structure Coherent (H : List Event) (s : Session) : Prop where
  below : s.locals.Between 0 s.nextId
  runs : ∃ echo clock, Runs (Steady s.nextId s.locals) (.initial echo clock) H s.machine

namespace Coherent

variable {H : List Event} {s : Session}

theorem reached (coherent : s.Coherent H) : Treewalk.Reached H s.machine := by
  obtain ⟨echo, clock, run⟩ := coherent.runs
  exact ⟨echo, clock, run.mono fun _ _ => trivial⟩

/-- Every reference of a function has the distance that the table has for it. -/
theorem linked (coherent : s.Coherent H) {T : Locals} (agree : T.Agree 0 s.nextId s.locals) :
    s.machine.relabel (.link T) = s.machine := by
  obtain ⟨echo, clock, run⟩ := coherent.runs
  exact (run.mono fun _ steady => steady T agree).relabel

theorem later (coherent : s.Coherent H) {nextId : Nat} {entries : Locals} (le : s.nextId ≤ nextId)
    (between : entries.Between s.nextId nextId) :
    Coherent H { s with nextId := nextId, locals := entries ++ s.locals } := by
  obtain ⟨echo, clock, run⟩ := coherent.runs
  exact ⟨between.append coherent.below (Nat.zero_le _) le, echo, clock, run.mono fun _ steady => steady.later between le⟩

theorem host (coherent : s.Coherent H) {t : Session} (heap : t.machine.heap = s.machine.heap)
    (scope : t.machine.scope = s.machine.scope) (nextId : t.nextId = s.nextId) (locals : t.locals = s.locals) :
    t.Coherent H := by
  obtain ⟨echo, clock, run⟩ := coherent.runs
  refine ⟨by rw [locals, nextId]; exact coherent.below, echo, clock, ?_⟩
  rw [locals, nextId]
  exact .host run heap scope

theorem interpret (coherent : s.Coherent H) {numbered linked : List Stmt} {nextId : Nat} {entries : Locals}
    (le : s.nextId ≤ nextId) (between : entries.Between s.nextId nextId)
    (links : ∀ T : Locals, T.Agree s.nextId nextId entries → numbered.map (Stmt.relabel (.link T)) = linked)
    (fuel : Nat) :
    Session.interpret fuel numbered { s with nextId := nextId, locals := entries ++ s.locals } =
      s.machine.interpret fuel linked := by
  unfold Session.interpret
  dsimp only
  rw [(coherent.later le between).linked fun _ _ _ => rfl, links _ (coherent.below.agree_new)]

theorem runLoaded (coherent : s.Coherent H) {source : String} {result : Except Rejection (List Stmt) × Session}
    (loads : s.Loads (Treewalk.load source) result) (fuel : Nat) :
    Coherent (H ++ loadedEvents fuel result) (Session.runLoaded fuel result) := by
  generalize loaded : Treewalk.load source = verdict at loads
  cases loads with
  | rejected rejection le between =>
    rw [loadedEvents, List.append_nil]
    exact (coherent.later le between).host rfl rfl rfl rfl
  | accepted numbered linked le between alike links =>
    have after := coherent.later le between
    obtain ⟨echo, clock, run⟩ := after.runs
    have steady := Steady.of_links coherent.below links
    have whole := run.trans (runLoaded_runs (after.linked fun _ _ _ => rfl) (links _ coherent.below.agree_new)
      (Accepted.of_alike loaded alike) steady fuel)
    have kept (ended : Option Stop × Machine) (t : Session) :
        (t.finish ended).nextId = t.nextId ∧ (t.finish ended).locals = t.locals := by
      rcases ended with ⟨_ | (_ | _ | _), _⟩ <;> exact ⟨rfl, rfl⟩
    obtain ⟨nextId, locals⟩ := kept (Session.interpret fuel numbered _) { s with nextId := _, locals := _ }
    refine ⟨?_, echo, clock, ?_⟩
    · rw [Session.runLoaded, locals, nextId]
      exact after.below
    · rw [Session.runLoaded, locals, nextId]
      exact whole

end Coherent

theorem Reached.coherent {H : List Event} {s : Session} (reached : Reached H s) : s.Coherent H := by
  induction reached with
  | start clock => exact ⟨Locals.between_nil, true, clock, .refl _⟩
  | run _ fuel source ih => exact ih.runLoaded (load_loads _ source) fuel
  | global _ fuel name ih =>
    obtain ⟨echo, clock, run⟩ := ih.runs
    exact ⟨ih.below, echo, clock, .global run name fuel⟩
  | host _ heap scope nextId locals ih => exact ih.host heap scope nextId locals

theorem Reached.machine {H : List Event} {s : Session} (reached : Reached H s) : Treewalk.Reached H s.machine :=
  reached.coherent.reached

end Session

end Treewalk
