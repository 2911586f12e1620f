import Treewalk.Proofs.ScopeDistance

/-!
Access to the superclass. An expression `super.m` reads a class from the scope at its distance and a value from
the scope one nearer. Of the places where it is accepted, the members of a class have the scope of their
receiver right inside that of the class, and further in there are only names that are neither `super` nor
`this`; so both are found where they are looked for. The initializers of fields have no receiver. Directly in
one of them nothing is nearer than `super`, and an evaluation brings the machine down; in a function further in,
every evaluation fails.
-/

namespace Treewalk

namespace Scoping

def classLevel (decl : ClassDecl) : Level :=
  ⟨.cls decl, Place.classFrame decl, none⟩

def receiverLevel (owner : Name) : Level :=
  ⟨.receiver owner, frameOf ["this"], none⟩

/-- The levels from a class outward, for its fields, and for the members for which `this` is bound. -/
inductive ClassHome : List Level → Prop where
  | field (decl : ClassDecl) (rest : List Level) : ClassHome (classLevel decl :: rest)
  | member (owner : Name) (decl : ClassDecl) (rest : List Level) :
      ClassHome (receiverLevel owner :: classLevel decl :: rest)

/-- Further in than some levels, statements run in every scope, and names are ordinary. -/
def Inside (home levels : List Level) : Prop :=
  ∃ inner, levels = inner ++ home ∧ ∀ l ∈ inner, l.site.runs = true ∧ l.frame.Ordinary

theorem Inside.refl (home : List Level) : Inside home home :=
  ⟨[], rfl, by simp⟩

theorem Inside.cons {home levels : List Level} {l : Level} (inside : Inside home levels)
    (runs : l.site.runs = true) (ordinary : l.frame.Ordinary) : Inside home (l :: levels) := by
  obtain ⟨inner, rfl, plain⟩ := inside
  exact ⟨l :: inner, rfl, by simpa using ⟨⟨runs, ordinary⟩, plain⟩⟩

/-- Names are declared only further in than the class. -/
theorem Inside.modifyHead {home levels : List Level} (own : ClassHome home) (inside : Inside home levels)
    (runs : ∀ l ∈ levels.head?, l.site.runs = true) {f : Level → Level} (site : ∀ l, (f l).site = l.site)
    (frame : ∀ l, l.frame.Ordinary → (f l).frame.Ordinary) : Inside home (levels.modifyHead f) := by
  obtain ⟨inner, rfl, plain⟩ := inside
  cases inner with
  | nil =>
    cases own with
    | field decl => exact absurd (runs (classLevel decl) rfl) (by simp [classLevel, Site.runs])
    | member owner => exact absurd (runs (receiverLevel owner) rfl) (by simp [receiverLevel, Site.runs])
  | cons l inner =>
    have first := plain l (by simp)
    refine ⟨f l :: inner, rfl, fun x member => ?_⟩
    rcases List.mem_cons.mp member with rfl | member
    · exact ⟨by rw [site, first.1], frame l first.2⟩
    · exact plain x (by simp [member])

theorem Frame.Ordinary.declared {frame : Frame} (ordinary : frame.Ordinary) {name : String}
    (own : Treewalk.Ordinary name) : Frame.Ordinary (Scoping.declared frame name) := by
  intro x found
  rcases contains_declared.mp found with rfl | found
  · exact own
  · exact ordinary x found

theorem Frame.Ordinary.reserved {frame : Frame} (ordinary : frame.Ordinary) {name : String}
    (own : Treewalk.Ordinary name) : Frame.Ordinary (frame.insert name false) := by
  intro x found
  rcases contains_reserved.mp found with rfl | found
  · exact own
  · exact ordinary x found

namespace Place

/-- Where the nearest class has a superclass, the place lies inside that class. -/
def Enclosed (p : Place) : Prop :=
  p.context.owner = .derived → ∃ home, ClassHome home ∧ Inside home p.levels

namespace Enclosed

variable {p : Place} (enclosed : p.Enclosed)

include enclosed

theorem inside {site : Site} {frame : Frame} (runs : site.runs = true) (ordinary : frame.Ordinary) :
    (p.inside site frame).Enclosed := fun derived =>
  let ⟨home, own, inside⟩ := enclosed derived
  ⟨home, own, inside.cons runs ordinary⟩

theorem modifyHead (runs : p.Runs) {f : Level → Level} (site : ∀ l, (f l).site = l.site)
    (frame : ∀ l, l.frame.Ordinary → (f l).frame.Ordinary) :
    Enclosed { p with levels := p.levels.modifyHead f } := fun derived =>
  let ⟨home, own, inside⟩ := enclosed derived
  ⟨home, own, inside.modifyHead own (fun l member => (runs l member).1) site frame⟩

theorem reserving (runs : p.Runs) {name : String} (ordinary : Ordinary name) : (p.reserving name).Enclosed :=
  enclosed.modifyHead runs (fun _ => rfl) fun _ plain => plain.reserved ordinary

theorem binding (runs : p.Runs) {name : String} (ordinary : Ordinary name) : (p.binding name).Enclosed :=
  enclosed.modifyHead runs (fun _ => rfl) fun _ plain => plain.declared ordinary

theorem after {s : Stmt} (fits : s.Fits p) : (p.after s).Enclosed := by
  unfold Place.after
  split
  · rename_i name found
    have ordinary := (fits.proper name (by simp [Stmt.boundNames, found])).ordinary
    exact enclosed.modifyHead fits.runs (fun _ => rfl) fun _ plain => plain.declared ordinary
  · exact enclosed

theorem loopBody {names : List Name} (ordinary : ∀ name ∈ names, Ordinary name.text) (body : Stmt) :
    (p.loopBody names body).Enclosed := by
  cases names with
  | nil => exact enclosed
  | cons first rest => exact inside (p := p.inLoop) enclosed rfl (ordinary_declaredAll ordinary)

theorem callee (role : FunctionRole) {decl : FunctionDecl}
    (ordinary : ∀ param ∈ decl.params, Ordinary param.name.text) : (p.callee role decl).Enclosed := fun derived =>
  let ⟨home, own, inside⟩ := enclosed derived
  ⟨home, own, inside.cons rfl (ordinary_declaredAll (by simpa using ordinary))⟩

theorem bodyParts {ss : List Stmt} (placed : ∀ x ∈ bodyParts p ss, WellPlaced x.1 x.2) :
    ∀ x ∈ Treewalk.bodyParts p ss, x.1.Enclosed := by
  induction ss generalizing p with
  | nil => simp [Treewalk.bodyParts]
  | cons s rest ih =>
    simp only [Treewalk.bodyParts, List.mem_cons, forall_eq_or_imp] at placed ⊢
    exact ⟨enclosed, ih (enclosed.after placed.1.fits) placed.2⟩

end Enclosed

theorem enclosed_field (p : Place) (decl : ClassDecl) : (p.cls decl).Enclosed :=
  fun _ => ⟨_, .field decl p.levels, .refl _⟩

theorem enclosed_member (p : Place) (decl : ClassDecl) (owner : Name) : ((p.cls decl).receiver owner).Enclosed :=
  fun _ => ⟨_, .member owner decl p.levels, .refl _⟩

theorem enclosed_interface (p : Place) : p.inInterface.Enclosed :=
  fun derived => by cases derived

theorem enclosed_required (p : Place) (owner : Name) : (p.inInterface.receiver owner).Enclosed :=
  fun derived => by cases derived

end Place

end Scoping

open Scoping

/-! The places of the parts of an item. -/

theorem Expr.parts_fst (e : Expr) (p : Place) : ∀ x ∈ e.parts p, x.1 = p := by
  cases e <;> grind [Expr.parts]

theorem Field.parts_fst (field : Field) (p q : Place) : ∀ x ∈ field.parts p q, x.1 = p ∨ x.1 = q := by
  cases field <;> grind [Field.parts, VarDecl.parts, PropertyDecl.parts]

theorem ClassDecl.parts_enclosed {p : Place} {decl : ClassDecl} (outside : (p.binding decl.name.text).Enclosed) :
    ∀ x ∈ decl.parts p, x.1.Enclosed := by
  have field := (p.binding decl.name.text).enclosed_field decl
  have member := (p.binding decl.name.text).enclosed_member decl decl.name
  simp only [ClassDecl.parts, referenceParts, List.mem_append, List.mem_map, List.mem_flatMap]
  rintro x ((⟨ref, -, rfl⟩ | ⟨part, -, found⟩) | ⟨method, -, rfl⟩)
  · exact outside
  · rcases part.parts_fst _ _ x found with same | same
    · rwa [same]
    · rwa [same]
  · exact member

theorem InterfaceDecl.parts_enclosed (p : Place) (decl : InterfaceDecl) : ∀ x ∈ decl.parts p, x.1.Enclosed := by
  have outside := (p.binding decl.name.text).enclosed_interface
  have member := (p.binding decl.name.text).enclosed_required decl.name
  simp only [InterfaceDecl.parts, List.mem_append, List.mem_map, List.mem_flatMap]
  rintro x (⟨part, -, found⟩ | ⟨method, -, rfl⟩)
  · rcases part.parts_fst _ _ x found with same | same
    · rwa [same]
    · rwa [same]
  · exact member

theorem Stmt.parts_enclosed {p : Place} {s : Stmt} (enclosed : p.Enclosed) (fits : s.Fits p) :
    ∀ x ∈ s.parts p, x.1.Enclosed := by
  have ordinary (name : Name) (among : name ∈ s.boundNames) : Ordinary name.text :=
    (fits.proper name among).ordinary
  simp only [Stmt.boundNames, List.mem_append, Option.mem_toList] at ordinary
  have named (name : Name) (found : s.declares? = some name) : (p.binding name.text).Enclosed :=
    enclosed.binding fits.runs (ordinary name (.inl (.inl found)))
  -- Loops, switches and tests change only what surrounds a place besides the scopes and the class.
  have looping : p.inLoop.Enclosed := enclosed
  have switching : p.inSwitch.Enclosed := enclosed
  have testing : p.inTest.Enclosed := enclosed
  intro x member
  cases s with
  | var decl =>
    obtain ⟨e, -, rfl⟩ := List.mem_map.mp member
    exact enclosed.reserving fits.runs (ordinary decl.name (.inl (.inl rfl)))
  | property decl =>
    rcases List.mem_cons.mp member with rfl | member
    · exact named decl.name rfl
    · obtain ⟨setter, -, rfl⟩ := List.mem_map.mp member
      exact named decl.name rfl
  | function decl =>
    obtain rfl := List.mem_singleton.mp member
    exact named decl.name rfl
  | classDecl decl =>
    exact ClassDecl.parts_enclosed (named decl.name rfl) x member
  | interfaceDecl decl => exact InterfaceDecl.parts_enclosed p decl x member
  | block body =>
    obtain rfl := List.mem_singleton.mp member
    exact enclosed.inside rfl ordinary_empty
  | whileLoop condition body increment names =>
    have around : (p.loopBody names body).Enclosed :=
      enclosed.loopBody (fun name among => ordinary name (.inl (.inr among))) body
    grind [Stmt.parts]
  | tryCatch body name handler =>
    have around : (p.handler name handler).Enclosed := enclosed.inside rfl
      (ordinary_declaredAll fun name among => ordinary name (.inr among))
    grind [Stmt.parts]
  | _ => grind [Stmt.parts]

theorem Scoping.Within.enclosed {root : Stmt} {p : Place} {item : Item} (placed : WellPlaced {} (.stmt root))
    (within : Within root p item) : p.Enclosed := by
  induction within with
  | root => exact fun derived => by cases derived
  | @part p q item part within member ih =>
    have here := placed.within within
    cases item with
    | expr e =>
      obtain rfl : q = p := e.parts_fst p _ member
      exact ih
    | stmt s => exact s.parts_enclosed ih here.fits _ member
    | body ss => exact ih.bodyParts (fun _ found => here.part found) _ member
    | function role decl =>
      obtain ⟨body, -, same⟩ := List.mem_map.mp member
      cases same
      exact ih.callee role here.fits

theorem At.enclosed {view : View} {p : Place} {item : Item} (stands : At view p item) : p.Enclosed := by
  obtain ⟨root, accepted, -, within⟩ := stands
  exact within.enclosed accepted.wellPlaced

/-! Where the two names are found. -/

namespace Scoping

/-- `this` is found nearer than `super`. -/
def Place.HasReceiver (p : Place) : Prop :=
  ∃ near far, depthOf p.frames "this" = some near ∧ depthOf p.frames "super" = some far ∧ near < far

theorem depthOf_inner {inner : List Level} (plain : ∀ l ∈ inner, l.site.runs = true ∧ l.frame.Ordinary)
    (home : List Level) {name : String} (special : ¬Ordinary name) :
    depthOf ((inner ++ home).map Level.frame) name =
      (depthOf (home.map Level.frame) name).map (· + inner.length) := by
  have none : (inner.map Level.frame).findIdx? (·.contains name) = none := by
    refine List.findIdx?_eq_none_iff.mpr fun frame member => ?_
    obtain ⟨l, among, rfl⟩ := List.mem_map.mp member
    exact Bool.eq_false_iff.mpr fun found => special ((plain l among).2 name found)
  rw [depthOf, List.map_append, List.findIdx?_append, none]
  simp [depthOf]

theorem not_ordinary_super : ¬Ordinary "super" :=
  fun ordinary => ordinary.2 rfl

theorem not_ordinary_this : ¬Ordinary "this" :=
  fun ordinary => ordinary.1 rfl

theorem classFrame_super (decl : ClassDecl) : (Place.classFrame decl).contains "super" = true :=
  contains_declaredAll.mpr (.inl rfl)

/-- The levels at which `super` and `this` are found. Where there is no receiver, `super` is found in the innermost
level, or the level one nearer has no `this`. -/
theorem Place.Enclosed.layout {p : Place} (enclosed : p.Enclosed) (derived : p.context.owner = .derived) :
    ∃ depth decl, depthOf p.frames "super" = some depth ∧ p.levels[depth]? = some (classLevel decl) ∧
      ((∃ near owner, depth = near + 1 ∧ depthOf p.frames "this" = some near ∧
          p.levels[near]? = some (receiverLevel owner)) ∨
        ¬p.HasReceiver ∧ (depth = 0 ∨ ∃ near l, depth = near + 1 ∧ p.levels[near]? = some l ∧
          ∀ owner, l.site ≠ .receiver owner)) := by
  obtain ⟨home, own, inner, same, plain⟩ := enclosed derived
  have below := depthOf_inner plain home not_ordinary_super
  have nearer := depthOf_inner plain home not_ordinary_this
  unfold Place.HasReceiver Place.frames
  rw [same, below, nearer]
  cases own with
  | field decl rest =>
    have first : depthOf ((classLevel decl :: rest).map Level.frame) "super" = some 0 := by
      simp [depthOf, List.findIdx?_cons, classLevel, classFrame_super]
    refine ⟨inner.length, decl, by rw [first]; simp, by simp, .inr ⟨?_, ?_⟩⟩
    · rintro ⟨near, far, this, super, closer⟩
      obtain ⟨k, -, rfl⟩ := Option.map_eq_some_iff.mp this
      simp only [first, Option.map_some, Option.some.injEq] at super
      omega
    · cases inner with
      | nil => exact .inl rfl
      | cons l others =>
        have last : others.length < (l :: others).length := by simp
        refine .inr ⟨others.length, (l :: others)[others.length], rfl, ?_, fun owner same => ?_⟩
        · rw [List.getElem?_append_left (by simp)]
          exact List.getElem?_eq_getElem last
        · have runs := (plain _ (List.getElem_mem last)).1
          rw [same] at runs
          cases runs
  | member owner decl rest =>
    have here : depthOf ((receiverLevel owner :: classLevel decl :: rest).map Level.frame) "this" = some 0 := rfl
    have next : depthOf ((receiverLevel owner :: classLevel decl :: rest).map Level.frame) "super" = some 1 := by
      have other : (receiverLevel owner).frame.contains "super" = false := rfl
      simp [depthOf, List.findIdx?_cons, other, classLevel, classFrame_super]
    refine ⟨inner.length + 1, decl, ?_, by simp, .inl ⟨inner.length, owner, rfl, by rw [here]; simp, by simp⟩⟩
    rw [next]
    simp [Nat.add_comm]

end Scoping

/-! What the scopes at these levels hold. -/

def Heap.HoldsAt (h : Heap) (r : Ref .scope) (distance : Nat) (name : String) (value : Value) : Prop :=
  ∃ cell, h.lookupAt r distance name = .ok cell ∧ cell.content = .plain value

namespace World

variable {view : View} {w : World} {levels : List Scoping.Level} {l : Scoping.Level} {start : Ref .scope}
  {depth : Nat}

/-- A name of a level is found in the scope that is the instance of the level. -/
theorem Stands.lookupAt (stands : w.Stands levels start) (level : levels[depth]? = some l) {name : String}
    (has : l.frame.contains name = true) (settled : l.pending = none) :
    ∃ r cell, w.heap.here? r name = some cell ∧ w.heap.lookupAt start depth name = .ok cell := by
  obtain ⟨r, ancestor, realizes⟩ := stands.ancestor level
  obtain ⟨cell, found⟩ := Option.isSome_iff_exists.mp (realizes.binds name has (by simp [settled]))
  exact ⟨r, cell, found, by simp [Heap.lookupAt, ancestor, found]⟩

variable (sound : w.Sound view) (stands : w.Stands levels start)

include sound stands

theorem Sound.holdsAt_super {decl : ClassDecl} (level : levels[depth]? = some (classLevel decl)) :
    ∃ c, w.heap.HoldsAt start depth "super" (.cls c) := by
  obtain ⟨r, cell, found, looked⟩ := stands.lookupAt level (classFrame_super decl) rfl
  obtain ⟨site, -, serves⟩ := sound.serves r _ cell found
  obtain ⟨c, plain⟩ := serves.superclass rfl
  exact ⟨c, cell, looked, plain⟩

theorem Sound.holdsAt_this {owner : Name} (level : levels[depth]? = some (receiverLevel owner)) :
    ∃ receiver, w.heap.HoldsAt start depth "this" receiver := by
  have has : (receiverLevel owner).frame.contains "this" = true := rfl
  obtain ⟨r, cell, found, looked⟩ := stands.lookupAt level has rfl
  obtain ⟨site, -, serves⟩ := sound.serves r _ cell found
  obtain ⟨-, receiver, -, plain, -⟩ := serves.receiver rfl
  exact ⟨receiver, cell, looked, plain⟩

/-- Only the scope of a receiver has `this`. -/
theorem Sound.lacks_this (level : levels[depth]? = some l) (other : ∀ owner, l.site ≠ .receiver owner) :
    w.heap.lookupAt start depth "this" = .error (.undefinedVariable "this") := by
  obtain ⟨r, ancestor, realizes⟩ := stands.ancestor level
  have absent : w.heap.here? r "this" = none := by
    refine Option.eq_none_iff_forall_ne_some.mpr fun cell found => ?_
    obtain ⟨site, opened, serves⟩ := sound.serves r _ cell found
    obtain ⟨owner, -, rfl, -⟩ := serves.receiver rfl
    exact other owner (Option.some.inj (realizes.site.symm.trans opened))
  simp [Heap.lookupAt, ancestor, absent]

end World

namespace Evaluator

variable {m : Machine} {ref : Reference} {method : Name} {depth : Nat} {c : Ref .cls} {receiver : Value}

theorem bindMethod_done (f : Ref .function) (receiver : Value) (m : Machine) :
    ∃ bound after, bindMethod f receiver m = .done (.ok (.function bound) after) := by
  obtain ⟨bound, after, done⟩ :
      ∃ bound after, bind (m.heap.function f) receiver m = .done (.ok bound after) := by
    unfold bind
    cases (m.heap.function f).body with
    | user body closure => exact ⟨_, _, rfl⟩
    | native native earlier => exact ⟨_, _, rfl⟩
    | missing => exact ⟨_, _, rfl⟩
  refine ⟨(after.heap.addFunction bound).1, { after with heap := (after.heap.addFunction bound).2 }, ?_⟩
  change ((bind (m.heap.function f) receiver m).andThen _).andThen _ = _
  rw [done]
  rfl

section

variable (named : ref.name.text = "super") (known : ref.depth = some depth)
  (super : m.heap.HoldsAt m.scope depth "super" (.cls c))

include named known super

/-- Once the superclass has been read, the value to be bound is looked for one scope nearer. -/
theorem superMethod_eq :
    superMethod ref method m = (do
      let receiver ← nearerReceiver ref.name.line depth
      match ← Run.reading (·.findMethod? c method.text) with
      | some found => bindMethod found receiver
      | none => Run.raise method.line (.undefinedProperty method.text)) m := by
  obtain ⟨cell, found, plain⟩ := super
  have read : readCell cell ref.name.line = Pure.pure (.cls c) := by
    rw [readCell, plain]
  unfold superMethod
  simp only [known, named]
  change (Run.orRaise ref.name.line (m.heap.lookupAt m.scope depth "super") >>= _) m = _
  rw [found]
  change (readCell cell ref.name.line >>= _) m = _
  rw [read]
  rfl

theorem superMethod_stops {reason : Stop} (failed : nearerReceiver ref.name.line depth m = .done (.error reason m)) :
    superMethod ref method m = .done (.error reason m) := by
  rw [superMethod_eq named known super]
  change (nearerReceiver ref.name.line depth m).andThen _ = _
  rw [failed]
  rfl

theorem superMethod_serving {near : Nat} (nearer : depth = near + 1) (this : m.heap.HoldsAt m.scope near "this" receiver) :
    superMethod ref method m = match m.heap.findMethod? c method.text with
      | some found => bindMethod found receiver m
      | none => .done (.error (.fault ⟨.undefinedProperty method.text, method.line⟩) m) := by
  obtain ⟨cell, found, plain⟩ := this
  have read : readCell cell ref.name.line = Pure.pure receiver := by
    rw [readCell, plain]
  have held : nearerReceiver ref.name.line depth m = .done (.ok receiver m) := by
    rw [nearer]
    change (Run.orRaise ref.name.line (m.heap.lookupAt m.scope near "this") >>= _) m = _
    rw [found]
    change readCell cell ref.name.line m = _
    rw [read]
    rfl
  rw [superMethod_eq named known super]
  change (nearerReceiver ref.name.line depth m).andThen _ = _
  rw [held]
  change (match m.heap.findMethod? c method.text with
    | some found => bindMethod found receiver
    | none => Run.raise method.line (.undefinedProperty method.text)) m = _
  cases m.heap.findMethod? c method.text <;> rfl

end

end Evaluator

/-- The expression `super.method` has what it needs: a class at its distance, which is positive, and a value
for `this` one scope nearer. It comes to the method that is found from the class upward, bound to the value, and
fails only where none is found. -/
def Machine.ServesSuper (m : Machine) (ref : Reference) (method : Name) : Prop :=
  ∃ near c receiver, ref.depth = some (near + 1) ∧ m.heap.HoldsAt m.scope (near + 1) "super" (.cls c) ∧
    m.heap.HoldsAt m.scope near "this" receiver ∧ ∀ fuel,
      match m.heap.findMethod? c method.text with
      | some found => ∃ bound after, Evaluator.bindMethod found receiver m = .done (.ok (.function bound) after) ∧
          perform (fuel + 1) (.expr (.super ref method)) m = .ok (Value.function bound) after
      | none => perform (fuel + 1) (.expr (.super ref method)) m =
          .error (.fault ⟨.undefinedProperty method.text, method.line⟩) m

/-- The expression `super.method` finds no `this` where it looks for it: one scope nearer, or nowhere if `super` is
found in the innermost scope. -/
def Machine.LacksThis (m : Machine) (ref : Reference) (method : Name) : Prop :=
  ∃ depth c, ref.depth = some depth ∧ m.heap.HoldsAt m.scope depth "super" (.cls c) ∧
    ∀ fuel, perform (fuel + 1) (.expr (.super ref method)) m =
      .error (if depth = 0 then .crash else .fault ⟨.undefinedVariable "this", ref.name.line⟩) m

/-- In a sound world, an expression `super.method` is served exactly where there is a receiver. -/
theorem At.super_served {view : View} {w : World} {p : Place} {m : Machine} {ref : Reference} {method : Name}
    (at' : At view p (.expr (.super ref method))) (sound : w.Sound view) (heap : w.heap = m.heap)
    (stands : w.Stands p.levels m.scope) :
    (p.HasReceiver → m.ServesSuper ref method) ∧ (¬p.HasReceiver → m.LacksThis ref method) := by
  obtain ⟨located, named, derived⟩ : Expr.Fits p (.super ref method) := at'.fits
  obtain ⟨depth, decl, nearest, level, layout⟩ := at'.enclosed.layout derived
  obtain ⟨c, super⟩ := sound.holdsAt_super stands level
  have known : ref.depth = some depth := by rw [located, named, nearest]
  rw [heap] at super
  rcases layout with ⟨near, owner, rfl, found, level⟩ | ⟨lacking, layout⟩
  · obtain ⟨receiver, this⟩ := sound.holdsAt_this stands level
    rw [heap] at this
    have has : p.HasReceiver := ⟨near, near + 1, found, nearest, Nat.lt_succ_self near⟩
    refine ⟨fun _ => ⟨near, c, receiver, known, super, this, fun fuel => ?_⟩, fun lacks => absurd has lacks⟩
    cases upward : m.heap.findMethod? c method.text with
    | some f =>
      have served : Evaluator.superMethod ref method m = Evaluator.bindMethod f receiver m := by
        rw [Evaluator.superMethod_serving named known super rfl this, upward]
      obtain ⟨bound, after, done⟩ := Evaluator.bindMethod_done f receiver m
      refine ⟨bound, after, done, ?_⟩
      change (Evaluator.superMethod ref method m).outcome (perform fuel) = _
      rw [served, done]
      rfl
    | none =>
      change (Evaluator.superMethod ref method m).outcome (perform fuel) = _
      rw [Evaluator.superMethod_serving named known super rfl this, upward]
      rfl
  · refine ⟨fun has => absurd has lacking, fun _ => ⟨depth, c, known, super, fun fuel => ?_⟩⟩
    change (Evaluator.superMethod ref method m).outcome (perform fuel) = _
    rcases layout with rfl | ⟨near, l, rfl, level, other⟩
    · rw [Evaluator.superMethod_stops named known super rfl]
      rfl
    · have this := sound.lacks_this stands level other
      rw [heap] at this
      have failed : Evaluator.nearerReceiver ref.name.line (near + 1) m =
          .done (.error (.fault ⟨.undefinedVariable "this", ref.name.line⟩) m) := by
        change (Run.orRaise ref.name.line (m.heap.lookupAt m.scope near "this") >>= _) m = _
        rw [this]
        rfl
      rw [Evaluator.superMethod_stops named known super failed]
      rfl

/-- In a run that calls no accessor of an instance property through the class, `super` is usable wherever there
is a receiver: the distance is positive, a class is bound at it and `this` one scope nearer, and the evaluation
fails only if no class from there upward has the method. Where there is none, in the initializers of fields,
a class is bound at the distance, but no evaluation succeeds: it brings the machine down where the distance is
zero, and else fails for want of `this`. -/
theorem super_usable {allowed : Stmt → Prop} {echo : Bool} {clock : Clock} {H : List Event} {m : Machine}
    (run : Runs allowed (.initial echo clock) H m) (bound : ∀ e ∈ H, ¬e.CallsUnbound) :
    ∃ sites : List Site, ∀ ref method start, .started (.expr (.super ref method)) start ∈ H →
      ∃ root p, Accepted root ∧ allowed root ∧ Within root p (.expr (.super ref method)) ∧
        World.Stands ⟨sites, start.heap⟩ p.levels start.scope ∧
        (p.HasReceiver → start.ServesSuper ref method) ∧ (¬p.HasReceiver → start.LacksThis ref method) := by
  obtain ⟨w, trail, -⟩ : ∃ w, Trail ⟨True, allowed, False⟩ .any .initial H w ∧ Arrived ⟨True, allowed, False⟩ w m :=
    Runs.trail run ⟨World.initial_sound _, rfl, rfl⟩ fun _ => bound
  refine ⟨w.sites, fun ref method start member => ?_⟩
  obtain ⟨u, seen, -, later⟩ := trail.seen member
  obtain ⟨p, stands, around⟩ := seen.good
  obtain ⟨root, accepted, may, within⟩ := id stands
  have heap : u.heap = start.heap := seen.heap
  have here : World.Stands ⟨w.sites, start.heap⟩ p.levels start.scope := by
    rw [← heap]
    exact (around trivial).mono later.relabel
  exact ⟨root, p, accepted, may, within, here, stands.super_served seen.sound heap (around trivial)⟩

def Event.takesSuper : Event → Bool
  | .started (.expr (.super ref method)) start =>
    match perform 1 (.expr (.super ref method)) start with
    | .ok _ _ => true
    | .error _ _ => false
  | _ => false

/-- A closure over `super`, called from elsewhere. -/
def inheritedSource : String :=
  "class A \x7b method m() \x7b return 1; \x7d \x7d " ++
    "class B <- A \x7b method g() \x7b return fun () \x7b return super.m(); \x7d; \x7d \x7d " ++
    "\x7b var f = B().g(); f(); \x7d"

set_option maxRecDepth 100000 in
theorem super_usable_closure :
    ∃ H m ref method start, Reached H m ∧ .started (.expr (.super ref method)) start ∈ H ∧
      start.ServesSuper ref method := by
  have reached := Reached.text 30 inheritedSource
  have plain : ((Session.start {}).events 30 inheritedSource).all Event.fieldless = true := by decide +kernel
  have taken : ((Session.start {}).events 30 inheritedSource).any Event.takesSuper = true := by decide +kernel
  generalize ((Session.start {}).run 30 inheritedSource).machine = m at reached
  generalize (Session.start {}).events 30 inheritedSource = H at reached plain taken
  obtain ⟨event, member, takes⟩ := List.any_eq_true.mp taken
  unfold Event.takesSuper at takes
  split at takes
  · rename_i ref method start
    obtain ⟨echo, clock, run⟩ := id reached
    obtain ⟨sites, usable⟩ := super_usable run fun e member =>
      Event.not_callsUnbound (List.all_eq_true.mp plain e member)
    obtain ⟨root, p, -, -, -, -, serves, lacks⟩ := usable ref method start member
    by_cases has : p.HasReceiver
    · exact ⟨H, m, ref, method, start, reached, member, serves has⟩
    · obtain ⟨depth, c, -, -, fails⟩ := lacks has
      rw [fails 0] at takes
      cases takes
  · cases takes

end Treewalk
