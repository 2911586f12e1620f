import Treewalk.Proofs.Trail

/-!
Distances of references. Whenever an expression that names a variable is evaluated, the scopes from the
current one outward are those around its place in the program, so that its depth leads to the very scope in
which the name was found. That scope binds the name, unless the place lies in the declaration of the name and
this declaration has not been completed.
-/

namespace Treewalk

open Scoping

/-- The reference of an expression that reads or writes a variable. -/
def Expr.reference? : Expr → Option Reference
  | .use ref | .this ref | .value ref | .assign ref _ _ => some ref
  | _ => none

namespace World

variable {w : World} {p : Place} {levels : List Scoping.Level} {start r : Ref .scope} {name : String} {depth : Nat}
  {l : Scoping.Level}

/-- From a scope outward there are the scopes around a place, and the name is found at a depth: on the level
`l` at the place, of which the scope `r` is the instance. -/
structure Meets (w : World) (p : Place) (start : Ref .scope) (name : String) (depth : Nat) (l : Scoping.Level)
    (r : Ref .scope) : Prop where
  around : w.Stands p.levels start
  nearest : depthOf p.frames name = some depth
  level : p.levels[depth]? = some l
  ancestor : w.heap.ancestor? depth start = some r
  realizes : w.Realizes l r

theorem Stands.ancestor (stands : w.Stands levels start) (level : levels[depth]? = some l) :
    ∃ r, w.heap.ancestor? depth start = some r ∧ w.Realizes l r := by
  induction levels generalizing start depth with
  | nil => cases level
  | cons first rest ih =>
    obtain ⟨here, outer, around, further⟩ := stands
    cases depth with
    | zero =>
      obtain rfl : first = l := Option.some.inj level
      exact ⟨start, rfl, here⟩
    | succ depth =>
      obtain ⟨r, found, realizes⟩ := ih further level
      refine ⟨r, ?_, realizes⟩
      rw [Heap.ancestor?, around]
      exact found

theorem level_of_depth (found : depthOf p.frames name = some depth) :
    ∃ l, p.levels[depth]? = some l ∧ l.frame.contains name = true := by
  obtain ⟨inside, has, -⟩ := List.findIdx?_eq_some_iff_getElem.mp found
  have bounded : depth < p.levels.length := by simpa [Place.frames] using inside
  exact ⟨p.levels[depth], List.getElem?_eq_getElem bounded, by simpa [Place.frames] using has⟩

theorem Stands.meets (stands : w.Stands p.levels start) (nearest : depthOf p.frames name = some depth) :
    ∃ l r, w.Meets p start name depth l r := by
  obtain ⟨l, level, -⟩ := level_of_depth nearest
  obtain ⟨r, ancestor, realizes⟩ := stands.ancestor level
  exact ⟨l, r, stands, nearest, level, ancestor, realizes⟩

/-- The scope that a reference meets lacks the name only if the place lies in a declaration of the name. -/
theorem Meets.bound_or_pending (meets : w.Meets p start name depth l r) :
    (w.heap.here? r name).isSome = true ∨ l.pending = some name := by
  obtain ⟨l', level, has⟩ := level_of_depth meets.nearest
  obtain rfl : l' = l := Option.some.inj (level.symm.trans meets.level)
  by_cases pending : l'.pending = some name
  · exact .inr pending
  · exact .inl (meets.realizes.binds name has pending)

/-- The world at a later time, with the sites that are known in the end. -/
theorem Leads.relabel {k : Permit} {later : World} (leads : w.Leads k later) :
    w.Leads k ⟨later.sites, w.heap⟩ :=
  ⟨leads.sites, .refl _ _, fun _ => .same rfl⟩

end World

theorem At.located {view : View} {p : Place} {e : Expr} (stands : At view p (.expr e)) {ref : Reference}
    (named : e.reference? = some ref) : ref.LocatedIn p.frames := by
  have fits : e.Fits p := stands.fits
  unfold Expr.reference? at named
  split at named
  case h_4 =>
    cases named
    exact fits.1
  all_goals
    cases named
    try exact fits

section

variable {view : View} {k : Permit} {w w' : World} {past : List Event} {moment : Event}

/-- What has happened up to a moment did so in a world that leads to the one of the moment. -/
theorem Trail.upTo (trail : Trail view k w past w') (seen : moment.Seen view w') {e : Event}
    (member : e ∈ past ++ [moment]) : ∃ u : World, e.Good view u ∧ u.Leads k w' := by
  rcases List.mem_append.mp member with earlier | last
  · obtain ⟨u, held, -, leads⟩ := trail.seen earlier
    exact ⟨u, held.good, leads⟩
  · obtain rfl := List.mem_singleton.mp last
    exact ⟨w', seen.good, .refl k w'⟩

/-- A name whose declaration has been completed is bound from then on. -/
theorem Trail.declared (trail : Trail view k w past w') (seen : moment.Seen view w') {e : Event}
    (member : e ∈ past ++ [moment]) {r : Ref .scope} {name : String} (declares : e.Declares r name) :
    (w'.heap.here? r name).isSome = true := by
  obtain ⟨u, good, leads⟩ := trail.upTo seen member
  unfold Event.Declares at declares
  split at declares
  · rename_i s n signal after
    obtain ⟨rfl, named⟩ := declares
    obtain ⟨declared, found, rfl⟩ := Option.map_eq_some_iff.mp named
    exact leads.grows.bound _ _ ((good signal after rfl).2 declared found)
  · exact declares.elim

end

/-- In a run that calls no accessor of an instance property through the class, every reference with a depth
meets the scope in which its name was found, at every moment from the start of its evaluation on. That scope
binds the name, or else the reference stands in the declaration of the name, and none has been completed in
that scope. The scopes are told apart by the constructs that opened them, which is settled for the whole run. -/
theorem references_meet_their_scopes {allowed : Stmt → Prop} {echo : Bool} {clock : Clock} {H : List Event}
    {m : Machine} (run : Runs allowed (.initial echo clock) H m) (bound : ∀ e ∈ H, ¬e.CallsUnbound) :
    ∃ sites : List Site, ∀ past moment future, H = past ++ moment :: future →
      ∀ e start, .started (.expr e) start ∈ past ++ [moment] →
        ∀ ref ∈ e.reference?, ∀ depth ∈ ref.depth,
          ∃ root p l r, Accepted root ∧ allowed root ∧ Within root p (.expr e) ∧
            World.Meets ⟨sites, moment.machine.heap⟩ p start.scope ref.name.text depth l r ∧
            ((moment.machine.heap.here? r ref.name.text).isSome = true ∨
              l.pending = some ref.name.text ∧
                ∀ x ∈ past ++ [moment], ¬x.Declares r ref.name.text) := by
  obtain ⟨w, trail, -⟩ : ∃ w, Trail ⟨True, allowed, False⟩ .any .initial H w ∧ Arrived ⟨True, allowed, False⟩ w m :=
    Runs.trail run ⟨World.initial_sound _, rfl, rfl⟩ fun _ => bound
  refine ⟨w.sites, ?_⟩
  rintro past moment future rfl e start started ref named depth known
  obtain ⟨v, before, seen, after⟩ := trail.split
  obtain ⟨u, ⟨p, stands, around⟩, leads⟩ := before.upTo seen started
  obtain ⟨root, accepted, may, within⟩ := id stands
  have here : World.Stands ⟨w.sites, v.heap⟩ p.levels start.scope :=
    ((around trivial).mono leads).mono after.leads.relabel
  have nearest : depthOf p.frames ref.name.text = some depth := (stands.located named).symm.trans known
  obtain ⟨l, r, meets⟩ := here.meets nearest
  rw [← seen.heap]
  refine ⟨root, p, l, r, accepted, may, within, meets, ?_⟩
  by_cases binds : (v.heap.here? r ref.name.text).isSome = true
  · exact .inl binds
  · refine .inr ⟨meets.bound_or_pending.resolve_left binds, fun x member declares => ?_⟩
    exact binds (before.declared seen member declares)

def Event.fieldless (e : Event) : Bool :=
  e.machine.heap.classes.all fun c => c.fields.entries.isEmpty

theorem Event.not_callsUnbound {e : Event} (fieldless : e.fieldless = true) : ¬e.CallsUnbound := by
  intro unbound
  unfold CallsUnbound at unbound
  split at unbound
  · rename_i f _ _ _ m
    obtain ⟨c, name, cell, p, member, -⟩ := unbound
    have inside : c.index < m.heap.classes.size := Heap.lt_of_classField member
    have empty : (m.heap.classes[c.index]).fields.entries.isEmpty = true :=
      Array.all_eq_true.mp fieldless c.index inside
    have same : m.heap.cls c = m.heap.classes[c.index] := by
      simp [Heap.cls, Array.getD_eq_getD_getElem?, inside]
    rw [same, List.isEmpty_iff.mp empty] at member
    cases member
  · exact unbound

def Event.reachesOut : Event → Bool
  | .started (.expr e) _ => (e.reference?.bind Reference.depth).any (0 < ·)
  | _ => false

/-- A closure over `this`, called from elsewhere. -/
def closureSource : String :=
  "class A { method m() { return fun () { return this; }; } } { var a = A(); a.m()(); }"

set_option maxRecDepth 100000 in
theorem references_meet_their_scopes_closure :
    ∃ H m e start ref depth, Reached H m ∧ .started (.expr e) start ∈ H ∧ e.reference? = some ref ∧
      ref.depth = some depth ∧ 0 < depth ∧ ∃ sites root p l r, Within root p (.expr e) ∧
        World.Meets ⟨sites, start.heap⟩ p start.scope ref.name.text depth l r := by
  have reached := Reached.text 30 closureSource
  have plain : ((Session.start {}).events 30 closureSource).all Event.fieldless = true := by decide +kernel
  have out : ((Session.start {}).events 30 closureSource).any Event.reachesOut = true := by decide +kernel
  generalize ((Session.start {}).run 30 closureSource).machine = m at reached
  generalize (Session.start {}).events 30 closureSource = H at reached plain out
  obtain ⟨event, member, reaches⟩ := List.any_eq_true.mp out
  unfold Event.reachesOut at reaches
  split at reaches
  · rename_i e start
    obtain ⟨depth, found, positive⟩ := (Option.any_eq_true ..).mp reaches
    obtain ⟨ref, named, known⟩ := Option.bind_eq_some_iff.mp found
    obtain ⟨past, future, rfl⟩ := List.append_of_mem member
    obtain ⟨echo, clock, run⟩ := id reached
    obtain ⟨sites, meets⟩ := references_meet_their_scopes run fun e member =>
      Event.not_callsUnbound (List.all_eq_true.mp plain e member)
    obtain ⟨root, p, l, r, -, -, within, met, -⟩ :=
      meets past _ future rfl e start (by simp) ref named depth known
    exact ⟨_, m, e, start, ref, depth, reached, member, named, known, by simpa using positive,
      sites, root, p, l, r, within, met⟩
  · cases reaches

def Event.begins (scope : Ref .scope) (name : String) : Event → Bool
  | .started (.stmt s) m => m.scope = scope && s.declares?.map Name.text = some name
  | _ => false

def Event.ends (scope : Ref .scope) (name : String) : Event → Bool
  | .ended (.stmt s) m _ => m.scope = scope && s.declares?.map Name.text = some name
  | _ => false

/-- After some events, a variable is used whose scope does not bind it, while no declaration of it is under
way there. -/
def Event.misses (past : List Event) : Event → Bool
  | .started (.expr (.use ref)) start =>
    (ref.depth.bind (start.heap.ancestor? · start.scope)).any fun r =>
      (start.heap.here? r ref.name.text).isNone &&
        past.countP (·.begins r ref.name.text) = past.countP (·.ends r ref.name.text)
  | _ => false

/-- A declaration that fails after its name has been captured. -/
def failingSource : String :=
  "var g = nil; fun boom(f) { g = f; return -nil; } try { var x = boom(fun () { return x; }); } catch { } g();"

set_option maxRecDepth 100000 in
/-- A declaration that has failed is over, and its scope still lacks the name that a closure refers to. -/
theorem failed_declaration_unbound :
    ∃ past ref start future depth r,
      (Session.start {}).events 30 failingSource = past ++ .started (.expr (.use ref)) start :: future ∧
      (∀ e ∈ (Session.start {}).events 30 failingSource, ¬e.CallsUnbound) ∧
      Reached ((Session.start {}).events 30 failingSource) ((Session.start {}).run 30 failingSource).machine ∧
      ref.depth = some depth ∧ start.heap.ancestor? depth start.scope = some r ∧
      start.heap.here? r ref.name.text = none ∧
      past.countP (·.begins r ref.name.text) = past.countP (·.ends r ref.name.text) := by
  have reached := Reached.text 30 failingSource
  have plain : ((Session.start {}).events 30 failingSource).all Event.fieldless = true := by decide +kernel
  have missed : (let H := (Session.start {}).events 30 failingSource
      (List.range H.length).any fun i => H[i]?.any (·.misses (H.take i))) = true := by decide +kernel
  generalize ((Session.start {}).run 30 failingSource).machine = m at reached ⊢
  generalize (Session.start {}).events 30 failingSource = H at reached plain missed ⊢
  obtain ⟨i, -, found⟩ := List.any_eq_true.mp missed
  obtain ⟨event, here, misses⟩ := (Option.any_eq_true ..).mp found
  obtain ⟨inside, rfl⟩ := List.getElem?_eq_some_iff.mp here
  have same : H = H.take i ++ H[i] :: H.drop (i + 1) := by
    rw [← List.drop_eq_getElem_cons inside, List.take_append_drop]
  generalize H[i] = event at same misses
  generalize H.take i = past at same misses
  unfold Event.misses at misses
  split at misses
  · rename_i ref start
    obtain ⟨r, found, lacks⟩ := (Option.any_eq_true ..).mp misses
    obtain ⟨depth, known, ancestor⟩ := Option.bind_eq_some_iff.mp found
    simp only [Bool.and_eq_true, Option.isNone_iff_eq_none, decide_eq_true_eq] at lacks
    exact ⟨past, ref, start, H.drop (i + 1), depth, r, same, fun e member =>
      Event.not_callsUnbound (List.all_eq_true.mp plain e member), reached, known, ancestor, lacks⟩
  · cases misses

end Treewalk
