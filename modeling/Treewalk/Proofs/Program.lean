import Treewalk.Proofs.Form
import Treewalk.Proofs.Recording
import Treewalk.Session

/-!
Programs as they are run: the statements of a text that scanner, grammar and resolver accept, and all
that stands in them. A session comes to the same verdict on a text whatever it has been through, and adds the
distances of the text to its table, even if it rejects the text.
-/

namespace Treewalk

open Scoping

def load (source : String) : Except Rejection (List Stmt) := do
  let tokens ← (scan source).mapError .scan
  let program ← (parse tokens).mapError .parse
  (resolve program).mapError .scope

/-- A statement of a program, with whatever ids its references have been given. -/
def Accepted (s : Stmt) : Prop :=
  ∃ source program, load source = .ok program ∧
    s.relabel .unnumbered ∈ program.map (Stmt.relabel .unnumbered)

theorem Accepted.of_load {source : String} {program : List Stmt} (loaded : load source = .ok program) :
    ∀ s ∈ program, Accepted s :=
  fun _ member => ⟨source, program, loaded, List.mem_map_of_mem member⟩

theorem Accepted.of_alike {source : String} {program linked : List Stmt} (loaded : load source = .ok program)
    (alike : linked.map (Stmt.relabel .unnumbered) = program.map (Stmt.relabel .unnumbered)) :
    ∀ s ∈ linked, Accepted s :=
  fun _ member => ⟨source, program, loaded, alike ▸ List.mem_map_of_mem member⟩

inductive Session.Loads (s : Session) :
    Except Rejection (List Stmt) → Except Rejection (List Stmt) × Session → Prop where
  | rejected (rejection : Rejection) {nextId : Nat} {entries : Locals} (le : s.nextId ≤ nextId)
      (between : entries.Between s.nextId nextId) :
      Loads s (.error rejection) (.error rejection, { s with nextId := nextId, locals := entries ++ s.locals })
  | accepted {resolved : List Stmt} (numbered linked : List Stmt) {nextId : Nat} {entries : Locals}
      (le : s.nextId ≤ nextId) (between : entries.Between s.nextId nextId)
      (alike : linked.map (Stmt.relabel .unnumbered) = resolved.map (Stmt.relabel .unnumbered))
      (links : ∀ T : Locals, T.Agree s.nextId nextId entries → numbered.map (Stmt.relabel (.link T)) = linked) :
      Loads s (.ok resolved) (.ok numbered, { s with nextId := nextId, locals := entries ++ s.locals })

theorem Session.resolve_loads {program : List Stmt} (formed : ∀ s ∈ program, Formed (.stmt s) ∧ s.loopNames = [])
    (s : Session) : s.Loads ((Treewalk.resolve program).mapError Rejection.scope) (s.resolve program) := by
  obtain ⟨le, entries, between, runs, links⟩ := record_numbered formed s.nextId none
  have done : s.resolve program =
      (if (resolveEach none program).2.isEmpty then .ok (numberStmts program s.nextId).1
        else .error (Rejection.scope (resolveEach none program).2),
        { s with nextId := (numberStmts program s.nextId).2, locals := entries ++ s.locals }) :=
    congrArg (fun x : List ScopeError × Resolver =>
      (if x.1.isEmpty then Except.ok (numberStmts program s.nextId).1 else .error (Rejection.scope x.1),
        { s with nextId := (numberStmts program s.nextId).2, locals := x.2.locals })) (runs s.locals)
  rw [done, Treewalk.resolve]
  rcases each : resolveEach none program with ⟨resolved, _ | ⟨e, errors⟩⟩
  · rw [each] at links
    obtain ⟨linked, alike, linked_of⟩ := links rfl
    exact .accepted _ linked le between alike linked_of
  · exact .rejected _ le between

theorem Session.load_loads (s : Session) (source : String) : s.Loads (Treewalk.load source) (s.load source) := by
  have nothing (n : Nat) : Locals.Between s.nextId n [] := Locals.between_nil
  unfold load
  cases scanned : scan source with
  | error errors =>
    rw [Treewalk.load, scanned]
    exact .rejected (.scan errors) (Nat.le_refl _) (nothing _)
  | ok tokens =>
    have whole : Treewalk.load source = ((parse tokens).mapError Rejection.parse >>= fun program =>
        (Treewalk.resolve program).mapError Rejection.scope) := by
      rw [Treewalk.load, scanned]
      rfl
    rw [whole]
    dsimp only
    cases parsed : parse tokens with
    | error errors => exact .rejected (.parse errors) (Nat.le_add_right _ _) (nothing _)
    | ok program => exact s.resolve_loads (parse_formed (scan_genuine scanned) parsed)

theorem Session.Loads.machine {s : Session} {verdict : Except Rejection (List Stmt)}
    {result : Except Rejection (List Stmt) × Session} (loads : s.Loads verdict result) :
    result.2.machine = s.machine := by
  cases loads <;> rfl

/-- What is asked of a run: of which statements it is made up, whether the scopes around functions are
followed all the way out, and whether the types are followed that it comes by. -/
structure View where
  strict : Prop
  allowed : Stmt → Prop
  typed : Prop

def View.lax : View :=
  ⟨False, fun _ => True, False⟩

def View.typing : View :=
  ⟨False, fun _ => True, True⟩

/-- An item stands at a place of a statement that may be run. -/
def At (view : View) (p : Place) (item : Item) : Prop :=
  ∃ root, Accepted root ∧ view.allowed root ∧ Within root p item

theorem load_wellPlaced {source : String} {program : List Stmt} (loaded : load source = .ok program) :
    ∀ s ∈ program, WellPlaced {} (.stmt s) := by
  unfold load at loaded
  cases scanned : scan source with
  | error errors =>
    rw [scanned] at loaded
    cases loaded
  | ok tokens =>
    rw [scanned] at loaded
    change ((parse tokens).mapError Rejection.parse >>= _) = _ at loaded
    cases parsed : parse tokens with
    | error errors =>
      rw [parsed] at loaded
      cases loaded
    | ok tree =>
      rw [parsed] at loaded
      change (resolve tree).mapError Rejection.scope = _ at loaded
      cases resolved : resolve tree with
      | error errors =>
        rw [resolved] at loaded
        cases loaded
      | ok statements =>
        rw [resolved] at loaded
        cases loaded
        exact resolve_wellPlaced (parse_formed (scan_genuine scanned) parsed) resolved

theorem Accepted.wellPlaced {s : Stmt} (accepted : Accepted s) : WellPlaced {} (.stmt s) := by
  obtain ⟨source, program, loaded, found⟩ := accepted
  obtain ⟨original, member, same⟩ := List.mem_map.mp found
  have unnumbered (s : Stmt) :
      WellPlaced (Place.relabel .unnumbered {}) (Item.relabel .unnumbered (.stmt s)) ↔ WellPlaced {} (.stmt s) :=
    wellPlaced_relabel (f := .unnumbered) (fun _ => rfl) fun _ => rfl
  have placed : WellPlaced {} (.stmt (original.relabel .unnumbered)) :=
    (unnumbered original).mpr (load_wellPlaced loaded original member)
  rw [same] at placed
  exact (unnumbered s).mp placed

theorem Accepted.at {view : View} {s : Stmt} (accepted : Accepted s) (may : view.allowed s) :
    At view {} (.stmt s) :=
  ⟨s, accepted, may, .root⟩

namespace At

variable {view : View} {p : Place} {item : Item}

theorem part (stands : At view p item) {q : Place} {part : Item} (member : (q, part) ∈ item.parts p) :
    At view q part := by
  obtain ⟨root, accepted, may, within⟩ := stands
  exact ⟨root, accepted, may, .part within member⟩

theorem wellPlaced (stands : At view p item) : WellPlaced p item := by
  obtain ⟨root, accepted, -, within⟩ := stands
  exact accepted.wellPlaced.within within

theorem fits (stands : At view p item) : item.Fits p :=
  stands.wellPlaced.fits

end At

end Treewalk
