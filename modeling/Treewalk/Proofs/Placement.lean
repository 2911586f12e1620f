import Treewalk.Proofs.Place

/-!
The resolver places a program well: whatever it accepts stands, with all its parts, at places that fit.
The frames that the resolver keeps are at every moment those of the place it has come to.
-/

namespace Treewalk

namespace Scoping

section

variable {ε σ α β : Type} {c : EStateM ε σ α} {f : α → EStateM ε σ β} {s s' : σ}

theorem bind_ok {a : α} (done : c s = .ok a s') : (c >>= f) s = f a s' := by
  simp only [Bind.bind, EStateM.bind, done]

theorem bind_error {e : ε} (done : c s = .error e s') : (c >>= f) s = .error e s' := by
  simp only [Bind.bind, EStateM.bind, done]

theorem ok_of_bind {b : β} (done : (c >>= f) s = .ok b s') :
    ∃ a middle, c s = .ok a middle ∧ f a middle = .ok b s' := by
  cases found : c s with
  | ok a middle => exact ⟨a, middle, rfl, (bind_ok found).symm.trans done⟩
  | error e middle =>
    rw [bind_error found] at done
    cases done

theorem get_bind (f : σ → EStateM ε σ α) (s : σ) : (MonadState.get >>= f) s = f s s :=
  rfl

end

/-- Where a resolution succeeds from these frames, its result and the frames it leaves have a
property. -/
def Resolves (frames : List Frame) (Q : List Frame → α → Prop) (c : Resolve α) : Prop :=
  ∀ s a after, s.frames = frames → c s = .ok a after → Q after.frames a

namespace Resolves

variable {α β : Type} {frames : List Frame} {Q : List Frame → α → Prop} {R : List Frame → β → Prop}

theorem pure {a : α} (holds : Q frames a) : Resolves frames Q (Pure.pure a) := by
  intro s b after same done
  cases done
  rwa [same]

theorem bind {c : Resolve α} {f : α → Resolve β} (first : Resolves frames Q c)
    (next : ∀ frames a, Q frames a → Resolves frames R (f a)) : Resolves frames R (c >>= f) := by
  intro s b after same done
  obtain ⟨a, middle, found, rest⟩ := ok_of_bind done
  exact next _ a (first s a middle same found) middle b after rfl rest

theorem mistake (m : Mistake) (place : Name) : Resolves frames Q (Scoping.mistake m place) := by
  intro s a after same done
  cases done

theorem get {f : Scopes → Resolve β} (next : ∀ s, s.frames = frames → Resolves frames R (f s)) :
    Resolves frames R (MonadState.get >>= f) := by
  intro s b after same done
  exact next s same s b after same done

theorem mono {c : Resolve α} {Q' : List Frame → α → Prop} (first : Resolves frames Q c)
    (weaker : ∀ frames a, Q frames a → Q' frames a) : Resolves frames Q' c :=
  fun s a after same done => weaker _ a (first s a after same done)

theorem inScope {names : List String} {body : Resolve α} {P : α → Prop}
    (inner : Resolves (frameOf names :: frames) (fun after a => after.tail = frames ∧ P a) body) :
    Resolves frames (fun after a => after = frames ∧ P a) (Scoping.inScope names body) := by
  refine bind (Q := fun after _ => after = frameOf names :: frames) ?_ ?_
  · intro s _ after same done
    cases done
    rw [← same]
    rfl
  · rintro _ _ rfl
    refine bind inner ?_
    rintro inside a ⟨outside, holds⟩
    refine bind (Q := fun after _ => after = frames) ?_ ?_
    · intro s _ after same done
      cases done
      rw [← outside, ← same]
    · rintro _ _ rfl
      exact pure ⟨rfl, holds⟩

theorem within {names : List String} {body : Resolve α} {P : α → Prop}
    (inner : Resolves (frameOf names :: frames)
      (fun after a => after = frameOf names :: frames ∧ P a) body) :
    Resolves frames (fun after a => after = frames ∧ P a) (Scoping.inScope names body) :=
  inScope (inner.mono fun _ _ holds => ⟨by rw [holds.1, List.tail_cons], holds.2⟩)

end Resolves

def FreshIn (frames : List Frame) (name : String) : Prop :=
  ∀ frame ∈ frames.head?, frame.contains name = false

theorem declare_resolves (frames : List Frame) (name : Name) :
    Resolves frames (fun after _ => after = frames.modifyHead (·.insert name.text false) ∧
      FreshIn frames name.text) (declare name) := by
  unfold declare
  refine Resolves.get ?_
  intro s same
  cases frames with
  | nil =>
    rw [same]
    exact Resolves.pure ⟨rfl, by simp [FreshIn]⟩
  | cons frame outer =>
    rw [same]
    dsimp only
    split
    · exact Resolves.mistake _ _
    · rename_i absent
      intro t _ after _ done
      cases done
      exact ⟨rfl, by simpa [FreshIn] using absent⟩

theorem define_resolves (frames : List Frame) (name : Name) :
    Resolves frames (fun after _ => after = frames.modifyHead (·.insert name.text true))
      (define name) := by
  intro s _ after same done
  cases done
  cases frames with
  | nil => simp only [same, List.modifyHead_nil]
  | cons frame outer => simp only [same, List.modifyHead_cons]

theorem declareDefined_resolves (frames : List Frame) (name : Name) :
    Resolves frames (fun after _ => after = frames.modifyHead (declared · name.text) ∧
      FreshIn frames name.text) (declareDefined name) := by
  refine Resolves.bind (declare_resolves frames name) ?_
  rintro _ _ ⟨rfl, fresh⟩
  refine (define_resolves _ name).mono ?_
  rintro _ _ rfl
  refine ⟨?_, fresh⟩
  cases frames <;> rfl

theorem declareAll_resolves (names : List Name) (frame : Frame) (outer : List Frame) :
    Resolves (frame :: outer) (fun after _ => after = declaredAll frame names :: outer)
      (declareAll names) := by
  induction names generalizing frame with
  | nil => exact Resolves.pure rfl
  | cons name rest ih =>
    refine Resolves.bind (declareDefined_resolves (frame :: outer) name) ?_
    rintro _ _ ⟨rfl, -⟩
    exact ih (declared frame name.text)

theorem locate_keeps (frames : List Frame) (ref : Reference) :
    Resolves frames (fun after found => after = frames ∧ found.LocatedIn frames ∧ found.name = ref.name)
      (locate ref) := by
  refine Resolves.get ?_
  intro s same
  exact Resolves.pure ⟨rfl, by simp [Reference.LocatedIn, same], rfl⟩

theorem locate_resolves (frames : List Frame) (ref : Reference) :
    Resolves frames (fun after found => after = frames ∧ found.LocatedIn frames) (locate ref) :=
  (locate_keeps frames ref).mono fun _ _ held => ⟨held.1, held.2.1⟩

theorem locateBound_resolves (frames : List Frame) (ref : Reference) (otherwise : Mistake) :
    Resolves frames (fun after found => after = frames ∧ found.LocatedIn frames)
      (locateBound ref otherwise) := by
  refine Resolves.bind (locate_resolves frames ref) ?_
  rintro _ found ⟨rfl, located⟩
  split
  · exact Resolves.pure ⟨rfl, located⟩
  · exact Resolves.mistake _ _

theorem resolveUse_resolves (frames : List Frame) (ref : Reference) :
    Resolves frames (fun after found => after = frames ∧ found.LocatedIn frames) (resolveUse ref) := by
  refine Resolves.get ?_
  intro s same
  split
  · exact Resolves.mistake _ _
  · exact locate_resolves frames ref

theorem resolveThis_resolves (frames : List Frame) (c : Context) (ref : Reference) :
    Resolves frames (fun after found => after = frames ∧ found.LocatedIn frames) (resolveThis c ref) := by
  unfold resolveThis
  split
  · exact Resolves.mistake _ _
  · exact locateBound_resolves frames ref _

theorem resolveValue_resolves (frames : List Frame) (c : Context) (ref : Reference) :
    Resolves frames (fun after found => after = frames ∧ found.LocatedIn frames) (resolveValue c ref) := by
  unfold resolveValue
  split
  · exact locateBound_resolves frames ref _
  · exact Resolves.mistake _ _

theorem resolveSuper_resolves (frames : List Frame) (c : Context) (ref : Reference) :
    Resolves frames (fun after found => after = frames ∧ found.LocatedIn frames ∧ found.name = ref.name ∧
      c.owner = .derived) (resolveSuper c ref) := by
  unfold resolveSuper
  split
  · exact Resolves.mistake _ _
  · exact Resolves.mistake _ _
  · exact Resolves.mistake _ _
  · rename_i derived
    refine Resolves.bind (locate_keeps frames ref) ?_
    rintro _ found ⟨rfl, located, same⟩
    split
    · exact Resolves.pure ⟨rfl, located, same, derived⟩
    · exact Resolves.mistake _ _

theorem resolveSuperclass_resolves (frames : List Frame) (name : Name) (ref : Option Reference) :
    Resolves frames (fun after found => after = frames ∧ ∀ ref ∈ found, ref.LocatedIn frames)
      (resolveSuperclass name ref) := by
  cases ref with
  | none => exact Resolves.pure ⟨rfl, by simp⟩
  | some ref =>
    simp only [resolveSuperclass]
    split
    · exact Resolves.mistake _ _
    · refine Resolves.bind (resolveUse_resolves frames ref) ?_
      rintro _ found ⟨rfl, located⟩
      exact Resolves.pure ⟨rfl, by simpa using located⟩

theorem resolveUses_resolves (frames : List Frame) (refs : List Reference) :
    Resolves frames (fun after found => after = frames ∧ ∀ ref ∈ found, ref.LocatedIn frames)
      (resolveUses refs) := by
  induction refs with
  | nil => exact Resolves.pure ⟨rfl, by simp⟩
  | cons ref rest ih =>
    refine Resolves.bind (resolveUse_resolves frames ref) ?_
    rintro _ found ⟨rfl, located⟩
    refine Resolves.bind ih ?_
    rintro _ others ⟨rfl, all⟩
    refine Resolves.pure ⟨rfl, ?_⟩
    simpa using ⟨located, all⟩

/-- An item fits every place with these frames and this context. -/
def FitsAt (frames : List Frame) (c : Context) (item : Item) : Prop :=
  ∀ p : Place, p.frames = frames → p.context = c → WellPlaced p item

/-- A list of statements fits every such place where statements run. -/
def FitsToRun (frames : List Frame) (c : Context) (item : Item) : Prop :=
  ∀ p : Place, p.frames = frames → p.context = c → p.Runs → WellPlaced p item

def ReadyIn (frames : List Frame) (name : String) : Prop :=
  ∃ frame ∈ frames.head?, frame.contains name = true

def framesAfter (frames : List Frame) (s : Stmt) : List Frame :=
  match s.declares? with
  | some name => frames.modifyHead (declared · name.text)
  | none => frames

/-- Two statements agree in what decides where they may stand. -/
def SameForm (s resolved : Stmt) : Prop :=
  resolved.declares? = s.declares? ∧ resolved.loopNames = s.loopNames

def FieldFits (initializers accessors : List Frame) (c : Context) (field : Field) : Prop :=
  ∀ p q : Place, p.frames = initializers → p.context = c → q.frames = accessors → q.context = c →
    ∀ part ∈ field.parts p q, WellPlaced part.1 part.2

/-- The members of a class fit its place, with accessors and methods where `this` is bound. -/
def MembersFit (frames : List Frame) (c : Context) (members : List Field × List FunctionDecl) : Prop :=
  (∀ field ∈ members.1, FieldFits frames (frameOf ["this"] :: frames) c field) ∧
    ∀ method ∈ members.2,
      FitsAt (frameOf ["this"] :: frames) c (.function (methodRole method.name) method)

section

variable {frames : List Frame} {c : Context}

theorem FitsAt.expr {e : Expr} (es : List Expr) (same : ∀ p, e.parts p = es.map fun e => (p, .expr e))
    (fits : ∀ p : Place, p.frames = frames → p.context = c → e.Fits p)
    (parts : ∀ part ∈ es, FitsAt frames c (.expr part)) : FitsAt frames c (.expr e) := by
  intro p here context
  refine .intro (fits p here context) ?_
  intro q member
  simp only [Item.parts, same, List.mem_map] at member
  obtain ⟨part, found, rfl⟩ := member
  exact parts part found p here context

theorem FitsToRun.stmt {s : Stmt} (fresh : ∀ name ∈ s.declares?, FreshIn frames name.text)
    (ready : ∀ name ∈ s.loopNames, ReadyIn frames name.text)
    (plain : ∀ branch ∈ s.branches, branch.Plain) (permitted : s.Permitted c)
    (parts : ∀ p : Place, p.frames = frames → p.context = c → p.Runs →
      ∀ q ∈ s.parts p, WellPlaced q.1 q.2)
    (proper : ∀ name ∈ s.boundNames, name.Proper := by
      simp [Stmt.boundNames, Stmt.declares?, Stmt.loopNames, Stmt.openedNames]) : FitsToRun frames c (.stmt s) := by
  rintro p rfl rfl runs
  exact .intro ⟨runs, fresh, ready, proper, plain, permitted⟩ (parts p rfl rfl runs)

theorem SameForm.plain {s resolved : Stmt} (same : SameForm s resolved) (plain : s.Plain) :
    resolved.Plain :=
  ⟨same.1.trans plain.1, same.2.trans plain.2⟩

theorem SameForm.proper {s resolved : Stmt} (same : SameForm s resolved) (formed : Formed (.stmt s))
    (opened : resolved.openedNames = s.openedNames := by rfl) : ∀ name ∈ resolved.boundNames, name.Proper := by
  unfold Stmt.boundNames
  rw [same.1, same.2, opened]
  exact formed.regular.2

theorem Formed.exprs {e : Expr} (formed : Formed (.expr e)) (es : List Expr)
    (same : e.parts {} = es.map fun e => ({}, .expr e)) : ∀ part ∈ es, Formed (.expr part) := by
  intro part member
  apply formed.part
  simpa [Item.parts, same] using member

theorem Formed.body {ss : List Stmt} (formed : Formed (.body ss)) :
    ∀ s ∈ ss, Formed (.stmt s) := by
  have parts : ∀ (ss : List Stmt) (p : Place), (∀ q ∈ bodyParts p ss, Formed q.2) →
      ∀ s ∈ ss, Formed (.stmt s) := by
    intro ss
    induction ss with
    | nil => simp
    | cons first rest ih =>
      intro p all s member
      rcases List.mem_cons.mp member with rfl | member
      · exact all (p, .stmt s) (by simp [bodyParts])
      · exact ih (p.after first) (fun q found => all q (by simp [bodyParts, found])) s member
  exact parts ss {} fun q member => formed.part (List.mem_map.mpr ⟨q, member, rfl⟩)

theorem after_frames (p : Place) (s : Stmt) : (p.after s).frames = framesAfter p.frames s := by
  unfold Place.after framesAfter
  cases s.declares? with
  | some name => exact p.bound_frames name.text
  | none => rfl

theorem after_context (p : Place) (s : Stmt) : (p.after s).context = p.context := by
  unfold Place.after
  split <;> rfl

theorem Place.Runs.after {p : Place} (runs : p.Runs) (s : Stmt) : (p.after s).Runs := by
  unfold Place.after
  split
  · intro l member
    cases levels : p.levels with
    | nil => simp [Place.bound, levels] at member
    | cons head rest =>
      simp only [Place.bound, levels, List.modifyHead_cons, List.head?_cons, Option.mem_def,
        Option.some.injEq] at member
      subst member
      exact ⟨(runs head (by simp [levels])).1, rfl⟩
  · exact runs

theorem Place.Runs.inside (p : Place) {site : Site} (runs : site.runs = true) (frame : Frame) :
    (p.inside site frame).Runs := by
  simp [Place.Runs, Place.inside, runs]

theorem ReadyIn.declared (frame : Frame) (outer : List Frame) (name : String) :
    ReadyIn (Scoping.declared frame name :: outer) name :=
  ⟨_, rfl, by simp [Scoping.declared, NameMap.contains]⟩

/-- The statements of a body, each of which may count on what the one before it declares. -/
theorem FitsToRun.cons {s : Stmt} {rest : List Stmt} (first : FitsToRun frames c (.stmt s))
    (others : FitsToRun (framesAfter frames s) c (.body rest)) :
    FitsToRun frames c (.body (s :: rest)) := by
  rintro p rfl rfl runs
  refine .intro trivial ?_
  simp only [Item.parts, bodyParts, List.mem_cons]
  rintro q (rfl | member)
  · exact first p rfl rfl runs
  · exact (others _ (after_frames p s) (after_context p s) (runs.after s)).part member

theorem fieldFits_var {initializers accessors : List Frame} {decl : VarDecl}
    (fits : ∀ e ∈ decl.initializer, FitsAt initializers c (.expr e)) :
    FieldFits initializers accessors c (.var decl) := by
  intro p q same context _ _
  simp only [Field.parts, VarDecl.parts, List.mem_map, Option.mem_toList]
  rintro _ ⟨e, member, rfl⟩
  exact fits e member p same context

theorem Formed.field {field : Field} {p q : Place} (formed : ∀ part ∈ field.parts p q, Formed part.2) :
    ∀ part ∈ field.parts {} {}, Formed part.2 := by
  cases field with
  | var decl =>
    simp only [Field.parts, VarDecl.parts, List.mem_map] at formed ⊢
    rintro _ ⟨e, member, rfl⟩
    exact formed (p, .expr e) ⟨e, member, rfl⟩
  | property decl =>
    simp only [Field.parts, PropertyDecl.parts, List.mem_cons, List.mem_map] at formed ⊢
    rintro _ (rfl | ⟨f, member, rfl⟩)
    · exact formed (q, .function .accessor decl.getter) (.inl rfl)
    · exact formed (q, .function .accessor f) (.inr ⟨f, member, rfl⟩)

theorem wellPlaced_use {p : Place} {ref : Reference} (located : ref.LocatedIn p.frames) :
    WellPlaced p (.expr (.use ref)) :=
  .intro located (by simp [Item.parts, Expr.parts])

theorem FitsToRun.whileLoop {condition : Expr} {body : Stmt} {increment : Option Expr}
    {names : List Name} (ready : ∀ name ∈ names, ReadyIn frames name.text)
    (proper : ∀ name ∈ names, name.Proper) (plain : body.Plain)
    (conditionFits : FitsAt frames c (.expr condition))
    (incrementFits : ∀ e ∈ increment, FitsAt frames c (.expr e))
    (bodyFits : ∀ p : Place, p.frames = frames → p.context = c → p.Runs →
      WellPlaced (p.loopBody names body) (.stmt body)) :
    FitsToRun frames c (.stmt (.whileLoop condition body increment names)) := by
  refine .stmt (by simp [Stmt.declares?]) ready (by simpa [Stmt.branches] using plain) trivial ?_
    (by simpa [Stmt.boundNames, Stmt.declares?, Stmt.loopNames, Stmt.openedNames] using proper)
  intro p same context runs
  simp only [Stmt.parts, List.mem_cons, List.mem_map, Option.mem_toList]
  rintro _ (rfl | rfl | ⟨e, member, rfl⟩)
  · exact conditionFits p same context
  · exact bodyFits p same context runs
  · exact incrementFits e member p same context

abbrev StmtResolved (frames : List Frame) (c : Context) (s : Stmt) (after : List Frame)
    (resolved : Stmt) : Prop :=
  after = framesAfter frames resolved ∧ SameForm s resolved ∧ FitsToRun frames c (.stmt resolved)

/-- A branch of a statement declares nothing, and so leaves the frames alone. -/
theorem Resolves.branch {s : Stmt} (plain : s.Plain)
    (resolves : (∀ name ∈ s.loopNames, ReadyIn frames name.text) →
      Resolves frames (StmtResolved frames c s) (resolveStmt c s)) :
    Resolves frames (fun after resolved => after = frames ∧ resolved.Plain ∧
      FitsToRun frames c (.stmt resolved)) (resolveStmt c s) := by
  refine (resolves (by simp [plain.2])).mono ?_
  rintro _ resolved ⟨rfl, same, fits⟩
  have resolvedPlain := same.plain plain
  exact ⟨by simp [framesAfter, resolvedPlain.1], resolvedPlain, fits⟩

abbrev ExprResolved (frames : List Frame) (c : Context) (after : List Frame) (e : Expr) : Prop :=
  after = frames ∧ FitsAt frames c (.expr e)

theorem resolves_one {mk : Expr → Expr} {first : Resolve Expr}
    (same : ∀ a p, (mk a).parts p = [(p, .expr a)]) (fits : ∀ a p, (mk a).Fits p)
    (resolves : Resolves frames (ExprResolved frames c) first) :
    Resolves frames (ExprResolved frames c) (do return mk (← first)) := by
  refine Resolves.bind resolves ?_
  rintro _ a ⟨rfl, placed⟩
  exact Resolves.pure ⟨rfl, .expr [a] (same a) (fun p _ _ => fits a p) (by simpa using placed)⟩

theorem resolves_two {mk : Expr → Expr → Expr} {first second : Resolve Expr}
    (same : ∀ a b p, (mk a b).parts p = [(p, .expr a), (p, .expr b)])
    (fits : ∀ a b p, (mk a b).Fits p)
    (resolves : Resolves frames (ExprResolved frames c) first)
    (next : Resolves frames (ExprResolved frames c) second) :
    Resolves frames (ExprResolved frames c) (do
      let a ← first
      let b ← second
      return mk a b) := by
  refine Resolves.bind resolves ?_
  rintro _ a ⟨rfl, placed⟩
  refine Resolves.bind next ?_
  rintro _ b ⟨rfl, other⟩
  exact Resolves.pure ⟨rfl, .expr [a, b] (same a b) (fun p _ _ => fits a b p)
    (by simpa using ⟨placed, other⟩)⟩

end

mutual

theorem resolveExpr_fits (frames : List Frame) (c : Context) :
    (e : Expr) → Formed (.expr e) → Resolves frames (ExprResolved frames c) (resolveExpr c e)
  | .literal value, _ =>
    Resolves.pure ⟨rfl, .expr [] (fun _ => rfl) (fun _ _ _ => trivial) (by simp)⟩
  | .type line desc, formed =>
    Resolves.pure ⟨rfl, .expr [] (fun _ => rfl) (fun _ _ _ => formed.regular) (by simp)⟩
  | .group inner, formed => resolves_one (fun _ _ => rfl) (fun _ _ => trivial)
    (resolveExpr_fits frames c inner (formed.exprs [inner] rfl _ (by simp)))
  | .unary op line operand, formed => resolves_one (fun _ _ => rfl) (fun _ _ => trivial)
    (resolveExpr_fits frames c operand (formed.exprs [operand] rfl _ (by simp)))
  | .get object name nullSafe, formed => resolves_one (fun _ _ => rfl) (fun _ _ => trivial)
    (resolveExpr_fits frames c object (formed.exprs [object] rfl _ (by simp)))
  | .staticGet object name, formed => resolves_one (fun _ _ => rfl) (fun _ _ => trivial)
    (resolveExpr_fits frames c object (formed.exprs [object] rfl _ (by simp)))
  | .sizedArray line elementType size, formed => resolves_one (fun _ _ => rfl) (fun _ _ => formed.regular)
    (resolveExpr_fits frames c size (formed.exprs [size] rfl _ (by simp)))
  | .length line operand, formed => resolves_one (fun _ _ => rfl) (fun _ _ => trivial)
    (resolveExpr_fits frames c operand (formed.exprs [operand] rfl _ (by simp)))
  | .typeOf line operand, formed => resolves_one (fun _ _ => rfl) (fun _ _ => trivial)
    (resolveExpr_fits frames c operand (formed.exprs [operand] rfl _ (by simp)))
  | .binary op line left right, formed => resolves_two (fun _ _ _ => rfl) (fun _ _ _ => trivial)
    (resolveExpr_fits frames c left (formed.exprs [left, right] rfl _ (by simp)))
    (resolveExpr_fits frames c right (formed.exprs [left, right] rfl _ (by simp)))
  | .logical op line left right, formed => resolves_two (fun _ _ _ => rfl) (fun _ _ _ => trivial)
    (resolveExpr_fits frames c left (formed.exprs [left, right] rfl _ (by simp)))
    (resolveExpr_fits frames c right (formed.exprs [left, right] rfl _ (by simp)))
  | .index object line position, formed => resolves_two (fun _ _ _ => rfl) (fun _ _ _ => trivial)
    (resolveExpr_fits frames c object (formed.exprs [object, position] rfl _ (by simp)))
    (resolveExpr_fits frames c position (formed.exprs [object, position] rfl _ (by simp)))
  | .cast operand line target, formed => resolves_two (fun _ _ _ => rfl) (fun _ _ _ => trivial)
    (resolveExpr_fits frames c operand (formed.exprs [operand, target] rfl _ (by simp)))
    (resolveExpr_fits frames c target (formed.exprs [operand, target] rfl _ (by simp)))
  | .ternary line condition yes no, formed => by
    have parts := formed.exprs [condition, yes, no] rfl
    refine Resolves.bind (resolveExpr_fits frames c condition (parts _ (by simp))) ?_
    rintro _ condition ⟨rfl, conditionFits⟩
    refine Resolves.bind (resolveExpr_fits _ c yes (parts _ (by simp))) ?_
    rintro _ yes ⟨rfl, yesFits⟩
    refine Resolves.bind (resolveExpr_fits _ c no (parts _ (by simp))) ?_
    rintro _ no ⟨rfl, noFits⟩
    exact Resolves.pure ⟨rfl, .expr [condition, yes, no] (fun _ => rfl) (fun _ _ _ => trivial)
      (by simpa using ⟨conditionFits, yesFits, noFits⟩)⟩
  | .use ref, _ => by
    refine Resolves.bind (resolveUse_resolves frames ref) ?_
    rintro _ ref ⟨rfl, located⟩
    exact Resolves.pure ⟨rfl, .expr [] (fun _ => rfl) (by rintro p rfl _; exact located) (by simp)⟩
  | .this ref, _ => by
    refine Resolves.bind (resolveThis_resolves frames c ref) ?_
    rintro _ ref ⟨rfl, located⟩
    exact Resolves.pure ⟨rfl, .expr [] (fun _ => rfl) (by rintro p rfl _; exact located) (by simp)⟩
  | .value ref, _ => by
    refine Resolves.bind (resolveValue_resolves frames c ref) ?_
    rintro _ ref ⟨rfl, located⟩
    exact Resolves.pure ⟨rfl, .expr [] (fun _ => rfl) (by rintro p rfl _; exact located) (by simp)⟩
  | .super ref method, formed => by
    have named : ref.name.text = "super" := formed.regular
    refine Resolves.bind (resolveSuper_resolves frames c ref) ?_
    rintro _ ref ⟨rfl, located, same, derived⟩
    refine Resolves.pure ⟨rfl, .expr [] (fun _ => rfl) ?_ (by simp)⟩
    rintro p rfl rfl
    exact ⟨located, same ▸ named, derived⟩
  | .assign ref site operand, formed => by
    have parts := formed.exprs operand.toList rfl
    refine Resolves.bind (resolveOption_fits frames c operand (by simpa using parts)) ?_
    rintro _ operand ⟨rfl, fits⟩
    have proper : ref.name.Proper := formed.regular
    refine Resolves.bind (locate_keeps _ ref) ?_
    rintro _ ref ⟨rfl, located, same⟩
    refine Resolves.pure ⟨rfl, .expr operand.toList (fun _ => rfl) ?_ (by simpa using fits)⟩
    rintro p rfl _
    exact ⟨located, same ▸ proper⟩
  | .call callee line args generics nullSafe, formed => by
    have parts := formed.exprs (callee :: (args ++ generics)) rfl
    refine Resolves.bind (resolveExpr_fits frames c callee (parts _ (by simp))) ?_
    rintro _ callee ⟨rfl, calleeFits⟩
    refine Resolves.bind (resolveExprs_fits _ c args fun e member => parts e (by simp [member])) ?_
    rintro _ args ⟨rfl, argsFit⟩
    refine Resolves.bind
      (resolveExprs_fits _ c generics fun e member => parts e (by simp [member])) ?_
    rintro _ generics ⟨rfl, genericsFit⟩
    refine Resolves.pure ⟨rfl, .expr (callee :: (args ++ generics)) (fun _ => rfl)
      (fun _ _ _ => trivial) ?_⟩
    simp only [List.mem_cons, List.mem_append]
    rintro e (rfl | member | member)
    · exact calleeFits
    · exact argsFit e member
    · exact genericsFit e member
  | .set object name site operand, formed => by
    have parts := formed.exprs (object :: operand.toList) rfl
    refine Resolves.bind (resolveExpr_fits frames c object (parts _ (by simp))) ?_
    rintro _ object ⟨rfl, objectFits⟩
    refine Resolves.bind (resolveOption_fits _ c operand fun e member => parts e (by
      simp [Option.mem_def.mp member])) ?_
    rintro _ operand ⟨rfl, fits⟩
    exact Resolves.pure ⟨rfl, .expr (object :: operand.toList) (fun _ => rfl) (fun _ _ _ => trivial)
      (by simpa using ⟨objectFits, fits⟩)⟩
  | .staticSet object name site operand, formed => by
    have parts := formed.exprs (object :: operand.toList) rfl
    refine Resolves.bind (resolveExpr_fits frames c object (parts _ (by simp))) ?_
    rintro _ object ⟨rfl, objectFits⟩
    refine Resolves.bind (resolveOption_fits _ c operand fun e member => parts e (by
      simp [Option.mem_def.mp member])) ?_
    rintro _ operand ⟨rfl, fits⟩
    exact Resolves.pure ⟨rfl, .expr (object :: operand.toList) (fun _ => rfl) (fun _ _ _ => trivial)
      (by simpa using ⟨objectFits, fits⟩)⟩
  | .indexSet object line position site operand, formed => by
    have parts := formed.exprs (object :: position :: operand.toList) rfl
    refine Resolves.bind (resolveExpr_fits frames c object (parts _ (by simp))) ?_
    rintro _ object ⟨rfl, objectFits⟩
    refine Resolves.bind (resolveExpr_fits _ c position (parts _ (by simp))) ?_
    rintro _ position ⟨rfl, positionFits⟩
    refine Resolves.bind (resolveOption_fits _ c operand fun e member => parts e (by
      simp [Option.mem_def.mp member])) ?_
    rintro _ operand ⟨rfl, fits⟩
    exact Resolves.pure ⟨rfl, .expr (object :: position :: operand.toList) (fun _ => rfl)
      (fun _ _ _ => trivial) (by simpa using ⟨objectFits, positionFits, fits⟩)⟩
  | .array line elementType elements, formed => by
    have parts := formed.exprs elements rfl
    refine Resolves.bind (resolveExprs_fits frames c elements parts) ?_
    rintro _ elements ⟨rfl, fits⟩
    exact Resolves.pure ⟨rfl, .expr elements (fun _ => rfl) (fun _ _ _ => formed.regular) fits⟩
  | .lambda decl, formed => by
    have part : Formed (.function .function decl) :=
      formed.part (by simp [Item.parts, Expr.parts])
    refine Resolves.bind (resolveFunction_fits frames c .function decl part) ?_
    rintro _ decl ⟨rfl, -, fits⟩
    refine Resolves.pure ⟨rfl, fun p same context => .intro trivial ?_⟩
    simpa [Item.parts, Expr.parts] using fits p same context
termination_by structural e => e

theorem resolveOption_fits (frames : List Frame) (c : Context) :
    (e : Option Expr) → (∀ x ∈ e, Formed (.expr x)) →
      Resolves frames (fun after e => after = frames ∧ ∀ x ∈ e, FitsAt frames c (.expr x))
        (resolveOption c e)
  | none, _ => Resolves.pure ⟨rfl, by simp⟩
  | some e, formed => by
    refine Resolves.bind (resolveExpr_fits frames c e (formed e rfl)) ?_
    rintro _ e ⟨rfl, fits⟩
    exact Resolves.pure ⟨rfl, by simpa using fits⟩
termination_by structural e => e

theorem resolveExprs_fits (frames : List Frame) (c : Context) :
    (es : List Expr) → (∀ x ∈ es, Formed (.expr x)) →
      Resolves frames (fun after es => after = frames ∧ ∀ x ∈ es, FitsAt frames c (.expr x))
        (resolveExprs c es)
  | [], _ => Resolves.pure ⟨rfl, by simp⟩
  | e :: rest, formed => by
    refine Resolves.bind (resolveExpr_fits frames c e (formed e (by simp))) ?_
    rintro _ e ⟨rfl, fits⟩
    refine Resolves.bind (resolveExprs_fits _ c rest fun x member => formed x (by simp [member])) ?_
    rintro _ rest ⟨rfl, others⟩
    exact Resolves.pure ⟨rfl, by simpa using ⟨fits, others⟩⟩
termination_by structural es => es

theorem resolveStmt_fits (frames : List Frame) (c : Context) :
    (s : Stmt) → Formed (.stmt s) → (∀ name ∈ s.loopNames, ReadyIn frames name.text) →
      Resolves frames (StmtResolved frames c s) (resolveStmt c s)
  | .expr e, formed, _ => by
    have part : Formed (.expr e) := formed.part (by simp [Item.parts, Stmt.parts])
    refine Resolves.bind (resolveExpr_fits frames c e part) ?_
    rintro _ e ⟨rfl, fits⟩
    refine Resolves.pure ⟨rfl, ⟨rfl, rfl⟩, .stmt (by simp [Stmt.declares?]) (by simp [Stmt.loopNames])
      (by simp [Stmt.branches]) trivial ?_⟩
    intro p same context _
    simpa [Stmt.parts] using fits p same context
  | .var decl, formed, _ => by
    have part : ∀ e ∈ decl.initializer, Formed (.expr e) := fun e member =>
      formed.part (by simp [Item.parts, Stmt.parts, VarDecl.parts, Option.mem_def.mp member])
    refine Resolves.bind (resolveVar_fits frames c decl part) ?_
    rintro _ resolved ⟨rfl, name, fresh, fits⟩
    have same : SameForm (.var decl) (.var resolved) := ⟨by simp [Stmt.declares?, name], rfl⟩
    refine Resolves.pure ⟨?_, same, .stmt ?_ (by simp [Stmt.loopNames]) (by simp [Stmt.branches])
      trivial ?_ (same.proper formed)⟩
    · simp [framesAfter, Stmt.declares?, name]
    · simpa [Stmt.declares?, name] using fresh
    · intro p same context _
      simp only [Stmt.parts, VarDecl.parts, List.mem_map, Option.mem_toList]
      rintro _ ⟨e, member, rfl⟩
      exact fits e member _ (by simp [same, name]) context
  | .property decl, formed, _ => by
    have getter : Formed (.function .accessor decl.getter) :=
      formed.part (by simp [Item.parts, Stmt.parts, PropertyDecl.parts])
    have setter : ∀ f ∈ decl.setter, Formed (.function .accessor f) := fun f member =>
      formed.part (by simp [Item.parts, Stmt.parts, PropertyDecl.parts, Option.mem_def.mp member])
    refine Resolves.bind (declareDefined_resolves frames decl.name) ?_
    rintro _ _ ⟨rfl, fresh⟩
    refine Resolves.bind (resolveProperty_fits _ c decl getter setter) ?_
    rintro _ resolved ⟨rfl, name, fits⟩
    have same : SameForm (.property decl) (.property resolved) := ⟨by simp [Stmt.declares?, name], rfl⟩
    refine Resolves.pure ⟨?_, same, .stmt ?_ (by simp [Stmt.loopNames]) (by simp [Stmt.branches])
      trivial ?_ (same.proper formed)⟩
    · simp [framesAfter, Stmt.declares?, name]
    · simpa [Stmt.declares?, name] using fresh
    · intro p same context _
      exact fits _ (by simp [same, name]) context
  | .function decl, formed, _ => by
    have part : Formed (.function .function decl) :=
      formed.part (by simp [Item.parts, Stmt.parts])
    refine Resolves.bind (declareDefined_resolves frames decl.name) ?_
    rintro _ _ ⟨rfl, fresh⟩
    refine Resolves.bind (resolveFunction_fits _ c .function decl part) ?_
    rintro _ resolved ⟨rfl, name, fits⟩
    have same : SameForm (.function decl) (.function resolved) := ⟨by simp [Stmt.declares?, name], rfl⟩
    refine Resolves.pure ⟨?_, same, .stmt ?_ (by simp [Stmt.loopNames]) (by simp [Stmt.branches])
      trivial ?_ (same.proper formed)⟩
    · simp [framesAfter, Stmt.declares?, name]
    · simpa [Stmt.declares?, name] using fresh
    · intro p same context _
      simp only [Stmt.parts, List.mem_singleton]
      rintro _ rfl
      exact fits _ (by simp [same, name]) context
  | .classDecl decl, formed, _ => by
    refine Resolves.bind (resolveClass_fits frames c decl fun q member =>
      formed.part (List.mem_map.mpr ⟨q, member, rfl⟩)) ?_
    rintro _ resolved ⟨rfl, name, templates, fresh, fits⟩
    have same : SameForm (.classDecl decl) (.classDecl resolved) := ⟨by simp [Stmt.declares?, name], rfl⟩
    refine Resolves.pure ⟨?_, same, .stmt ?_ (by simp [Stmt.loopNames]) (by simp [Stmt.branches])
      trivial (fun p same context _ => fits p same context) (same.proper formed templates)⟩
    · simp [framesAfter, Stmt.declares?, name]
    · simpa [Stmt.declares?, name] using fresh
  | .interfaceDecl decl, formed, _ => by
    refine Resolves.bind (resolveInterface_fits frames c decl fun q member =>
      formed.part (List.mem_map.mpr ⟨q, member, rfl⟩)) ?_
    rintro _ resolved ⟨rfl, name, fresh, fits⟩
    have same : SameForm (.interfaceDecl decl) (.interfaceDecl resolved) := ⟨by simp [Stmt.declares?, name], rfl⟩
    refine Resolves.pure ⟨?_, same, .stmt ?_ (by simp [Stmt.loopNames]) (by simp [Stmt.branches])
      trivial (fun p same context _ => fits p same context) (same.proper formed)⟩
    · simp [framesAfter, Stmt.declares?, name]
    · simpa [Stmt.declares?, name] using fresh
  | .enumDecl name elements, formed, _ => by
    refine Resolves.bind (declareDefined_resolves frames name) ?_
    rintro _ _ ⟨rfl, fresh⟩
    exact Resolves.pure ⟨rfl, ⟨rfl, rfl⟩, .stmt (by simpa [Stmt.declares?] using fresh)
      (by simp [Stmt.loopNames]) (by simp [Stmt.branches]) trivial (by simp [Stmt.parts])
      formed.regular.2⟩
  | .block body, formed, _ => by
    have part : Formed (.body body) := formed.part (by simp [Item.parts, Stmt.parts])
    refine Resolves.bind (Resolves.inScope
      (resolveStmts_fits _ frames c none body part.regular part.body (by simp))) ?_
    rintro _ body ⟨rfl, fits⟩
    refine Resolves.pure ⟨rfl, ⟨rfl, rfl⟩, .stmt (by simp [Stmt.declares?]) (by simp [Stmt.loopNames])
      (by simp [Stmt.branches]) trivial ?_⟩
    intro p same context _
    simp only [Stmt.parts, List.mem_singleton]
    rintro _ rfl
    exact fits _ (by simp [Place.block, Place.inside, Place.frames, ← same, frameOf]) context
      (.inside p rfl _)
  | .ifElse condition yes no, formed, _ => by
    have plain := formed.regular.1
    simp only [Stmt.branches, List.mem_cons, Option.mem_toList, forall_eq_or_imp] at plain
    have conditionFormed : Formed (.expr condition) :=
      formed.part (by simp [Item.parts, Stmt.parts])
    have yesFormed : Formed (.stmt yes) :=
      formed.part (by simp [Item.parts, Stmt.parts])
    have noFormed : ∀ s ∈ no, Formed (.stmt s) := fun s member =>
      formed.part (by simp [Item.parts, Stmt.parts, Option.mem_def.mp member])
    refine Resolves.bind (resolveExpr_fits frames c condition conditionFormed) ?_
    rintro _ condition ⟨rfl, conditionFits⟩
    refine Resolves.bind (Resolves.branch plain.1 (resolveStmt_fits _ c yes yesFormed)) ?_
    rintro _ yes ⟨rfl, yesPlain, yesFits⟩
    refine Resolves.bind (resolveStmtOption_fits _ c no plain.2 noFormed) ?_
    rintro _ no ⟨rfl, noPlain, noFits⟩
    refine Resolves.pure ⟨rfl, ⟨rfl, rfl⟩, .stmt (by simp [Stmt.declares?]) (by simp [Stmt.loopNames])
      (by simpa [Stmt.branches] using ⟨yesPlain, noPlain⟩) trivial ?_⟩
    intro p same context runs
    simp only [Stmt.parts, List.mem_cons, List.mem_map, Option.mem_toList]
    rintro _ (rfl | rfl | ⟨s, member, rfl⟩)
    · exact conditionFits p same context
    · exact yesFits p same context runs
    · exact noFits s member p same context runs
  | .whileLoop condition body increment names, formed, ready => by
    obtain ⟨plain, proper⟩ := formed.regular
    simp only [Stmt.branches, List.mem_singleton, forall_eq] at plain
    simp only [Stmt.boundNames, Stmt.declares?, Stmt.loopNames, Stmt.openedNames, Option.toList_none,
      List.nil_append, List.append_nil] at proper
    have conditionFormed : Formed (.expr condition) := formed.part (by simp [Item.parts, Stmt.parts])
    have bodyFormed : Formed (.stmt body) := formed.part (by simp [Item.parts, Stmt.parts])
    have incrementFormed : ∀ e ∈ increment, Formed (.expr e) := fun e member =>
      formed.part (by simp [Item.parts, Stmt.parts, Option.mem_def.mp member])
    refine Resolves.bind (resolveExpr_fits frames c condition conditionFormed) ?_
    rintro _ condition ⟨rfl, conditionFits⟩
    refine Resolves.bind (resolveOption_fits _ c increment incrementFormed) ?_
    rintro frames increment ⟨rfl, incrementFits⟩
    -- The body stands in a scope of its own exactly when there are names to copy.
    cases names with
    | nil =>
      refine Resolves.bind (Resolves.branch plain (resolveStmt_fits frames _ body bodyFormed)) ?_
      rintro _ body ⟨rfl, bodyPlain, bodyFits⟩
      refine Resolves.pure ⟨rfl, ⟨rfl, rfl⟩, .whileLoop ready proper bodyPlain conditionFits incrementFits ?_⟩
      intro p same context runs
      exact bodyFits p.inLoop same (by simp [Place.inLoop, context]) runs
    | cons first others =>
      refine Resolves.bind (Q := fun after resolved => after = frames ∧ resolved.Plain ∧
        FitsToRun (declaredAll .empty (first :: others) :: frames) { c with inLoop := true }
          (.stmt resolved)) (Resolves.inScope ?_) ?_
      · refine Resolves.bind (declareAll_resolves (first :: others) (frameOf []) frames) ?_
        rintro _ _ rfl
        refine (Resolves.branch plain (resolveStmt_fits _ _ body bodyFormed)).mono ?_
        rintro _ resolved ⟨rfl, resolvedPlain, fits⟩
        exact ⟨rfl, resolvedPlain, fits⟩
      · rintro _ body ⟨rfl, bodyPlain, bodyFits⟩
        refine Resolves.pure
          ⟨rfl, ⟨rfl, rfl⟩, .whileLoop ready proper bodyPlain conditionFits incrementFits ?_⟩
        intro p same context _
        refine bodyFits _ ?_ (by simp [Place.loopBody, Place.inLoop, Place.inside, context])
          (.inside _ rfl _)
        simp [Place.loopBody, Place.inLoop, Place.inside, Place.frames, ← same]
  | .whenLoop condition body finish, formed, _ => by
    have plain := formed.regular.1
    simp only [Stmt.branches, List.mem_cons, Option.mem_toList, forall_eq_or_imp] at plain
    have conditionFormed : Formed (.expr condition) := formed.part (by simp [Item.parts, Stmt.parts])
    have bodyFormed : Formed (.stmt body) := formed.part (by simp [Item.parts, Stmt.parts])
    have finishFormed : ∀ s ∈ finish, Formed (.stmt s) := fun s member =>
      formed.part (by simp [Item.parts, Stmt.parts, Option.mem_def.mp member])
    refine Resolves.bind (resolveExpr_fits frames c condition conditionFormed) ?_
    rintro _ condition ⟨rfl, conditionFits⟩
    refine Resolves.bind (Resolves.branch plain.1 (resolveStmt_fits _ _ body bodyFormed)) ?_
    rintro _ body ⟨rfl, bodyPlain, bodyFits⟩
    refine Resolves.bind (resolveStmtOption_fits _ c finish plain.2 finishFormed) ?_
    rintro _ finish ⟨rfl, finishPlain, finishFits⟩
    refine Resolves.pure ⟨rfl, ⟨rfl, rfl⟩, .stmt (by simp [Stmt.declares?]) (by simp [Stmt.loopNames])
      (by simpa [Stmt.branches] using ⟨bodyPlain, finishPlain⟩) trivial ?_⟩
    intro p same context runs
    simp only [Stmt.parts, List.mem_cons, List.mem_map, Option.mem_toList]
    rintro _ (rfl | rfl | ⟨s, member, rfl⟩)
    · exact conditionFits p same context
    · exact bodyFits p.inLoop same (by simp [Place.inLoop, context]) runs
    · exact finishFits s member p same context runs
  | .switch line value cases default, formed, _ => by
    have plain := formed.regular.1
    simp only [Stmt.branches, List.mem_append, Option.mem_toList] at plain
    have valueFormed : Formed (.expr value) := formed.part (by simp [Item.parts, Stmt.parts])
    have casesFormed : ∀ x ∈ cases, Formed (.expr x.1) ∧ x.2.Plain ∧ Formed (.stmt x.2) := by
      intro x member
      refine ⟨formed.part ?_, plain x.2 (.inl (List.mem_map_of_mem member)), formed.part ?_⟩
      · simp only [Item.parts, Stmt.parts, List.map_cons, List.map_append, List.map_flatMap,
          List.mem_cons, List.mem_append, List.mem_flatMap]
        exact .inl (.inr ⟨x, member, by simp⟩)
      · simp only [Item.parts, Stmt.parts, List.map_cons, List.map_append, List.map_flatMap,
          List.mem_cons, List.mem_append, List.mem_flatMap]
        exact .inl (.inr ⟨x, member, by simp⟩)
    have defaultFormed : ∀ s ∈ default, Formed (.stmt s) := fun s member =>
      formed.part (by simp [Item.parts, Stmt.parts, Option.mem_def.mp member])
    refine Resolves.bind (resolveExpr_fits frames c value valueFormed) ?_
    rintro _ value ⟨rfl, valueFits⟩
    refine Resolves.bind (resolveCases_fits _ _ cases casesFormed) ?_
    rintro _ cases ⟨rfl, casesFit⟩
    refine Resolves.bind
      (resolveStmtOption_fits _ _ default (fun s member => plain s (.inr member)) defaultFormed) ?_
    rintro _ default ⟨rfl, defaultPlain, defaultFits⟩
    refine Resolves.pure ⟨rfl, ⟨rfl, rfl⟩, .stmt (by simp [Stmt.declares?]) (by simp [Stmt.loopNames])
      ?_ trivial ?_⟩
    · simp only [Stmt.branches, List.mem_append, List.mem_map, Option.mem_toList]
      rintro _ (⟨x, member, rfl⟩ | member)
      · exact (casesFit x member).2.1
      · exact defaultPlain _ member
    · intro p same context runs
      have inside : p.inSwitch.context = { c with inSwitch := true } := by
        simp [Place.inSwitch, context]
      simp only [Stmt.parts, List.mem_cons, List.mem_append, List.mem_flatMap, List.mem_map,
        Option.mem_toList, List.not_mem_nil, or_false]
      rintro _ ((rfl | ⟨x, member, rfl | rfl⟩) | ⟨s, member, rfl⟩)
      · exact valueFits p same context
      · exact (casesFit x member).1 p.inSwitch same inside
      · exact (casesFit x member).2.2 p.inSwitch same inside runs
      · exact defaultFits s member p.inSwitch same inside runs
  | .tryCatch body name handler, formed, _ => by
    have plain := formed.regular.1
    simp only [Stmt.branches, List.mem_singleton, forall_eq] at plain
    have bodyFormed : Formed (.stmt body) := formed.part (by simp [Item.parts, Stmt.parts])
    have handlerFormed : Formed (.body handler) := formed.part (by simp [Item.parts, Stmt.parts])
    refine Resolves.bind (Resolves.branch plain (resolveStmt_fits frames c body bodyFormed)) ?_
    rintro frames body ⟨rfl, bodyPlain, bodyFits⟩
    refine Resolves.bind (Resolves.inScope (P := fun handler =>
      FitsToRun (declaredAll .empty name.toList :: frames) c (.body handler))
      (Resolves.bind (declareAll_resolves name.toList (frameOf []) frames) ?_)) ?_
    · rintro _ _ rfl
      exact resolveStmts_fits _ frames c none handler handlerFormed.regular handlerFormed.body (by simp)
    rintro _ handler ⟨rfl, handlerFits⟩
    refine Resolves.pure ⟨rfl, ⟨rfl, rfl⟩, .stmt (by simp [Stmt.declares?]) (by simp [Stmt.loopNames])
      (by simpa [Stmt.branches] using bodyPlain) trivial ?_ formed.regular.2⟩
    intro p same context runs
    simp only [Stmt.parts, List.mem_cons, List.not_mem_nil, or_false]
    rintro _ (rfl | rfl)
    · exact bodyFits p same context runs
    · refine handlerFits _ ?_ context (.inside p rfl _)
      simp [Place.handler, Place.inside, Place.frames, ← same]
  | .test line name body, formed, _ => by
    have plain := formed.regular.1
    simp only [Stmt.branches, List.mem_singleton, forall_eq] at plain
    have nameFormed : Formed (.expr name) := formed.part (by simp [Item.parts, Stmt.parts])
    have bodyFormed : Formed (.stmt body) := formed.part (by simp [Item.parts, Stmt.parts])
    refine Resolves.bind (resolveExpr_fits frames c name nameFormed) ?_
    rintro _ name ⟨rfl, nameFits⟩
    refine Resolves.bind (Resolves.branch plain (resolveStmt_fits _ _ body bodyFormed)) ?_
    rintro _ body ⟨rfl, bodyPlain, bodyFits⟩
    refine Resolves.pure ⟨rfl, ⟨rfl, rfl⟩, .stmt (by simp [Stmt.declares?]) (by simp [Stmt.loopNames])
      (by simpa [Stmt.branches] using bodyPlain) trivial ?_⟩
    intro p same context runs
    simp only [Stmt.parts, List.mem_cons, List.not_mem_nil, or_false]
    rintro _ (rfl | rfl)
    · exact nameFits p same context
    · exact bodyFits p.inTest same (by simp [Place.inTest, context]) runs
  | .expect line value, formed, _ => by
    have part : Formed (.expr value) := formed.part (by simp [Item.parts, Stmt.parts])
    simp only [resolveStmt]
    split
    · rename_i inTest
      refine Resolves.bind (resolveExpr_fits frames c value part) ?_
      rintro _ value ⟨rfl, fits⟩
      refine Resolves.pure ⟨rfl, ⟨rfl, rfl⟩, .stmt (by simp [Stmt.declares?])
        (by simp [Stmt.loopNames]) (by simp [Stmt.branches]) inTest ?_⟩
      intro p same context _
      simpa [Stmt.parts] using fits p same context
    · exact Resolves.mistake _ _
  | .returning line value, formed, _ => by
    have part : ∀ e ∈ value, Formed (.expr e) := fun e member =>
      formed.part (by simp [Item.parts, Stmt.parts, Option.mem_def.mp member])
    simp only [resolveStmt]
    split
    · exact Resolves.mistake _ _
    · rename_i inFunction
      split
      · exact Resolves.mistake _ _
      · refine Resolves.bind (resolveOption_fits frames c value part) ?_
        rintro _ value ⟨rfl, fits⟩
        refine Resolves.pure ⟨rfl, ⟨rfl, rfl⟩, .stmt (by simp [Stmt.declares?])
          (by simp [Stmt.loopNames]) (by simp [Stmt.branches]) inFunction ?_⟩
        intro p same context _
        simp only [Stmt.parts, List.mem_map, Option.mem_toList]
        rintro _ ⟨e, member, rfl⟩
        exact fits e member p same context
  | .breaking line, _, _ => by
    simp only [resolveStmt]
    split
    · rename_i inside
      exact Resolves.pure ⟨rfl, ⟨rfl, rfl⟩, .stmt (by simp [Stmt.declares?]) (by simp [Stmt.loopNames])
        (by simp [Stmt.branches]) (by simpa [Stmt.Permitted] using inside) (by simp [Stmt.parts])⟩
    · exact Resolves.mistake _ _
  | .continuing line, _, _ => by
    simp only [resolveStmt]
    split
    · rename_i inside
      exact Resolves.pure ⟨rfl, ⟨rfl, rfl⟩, .stmt (by simp [Stmt.declares?]) (by simp [Stmt.loopNames])
        (by simp [Stmt.branches]) inside (by simp [Stmt.parts])⟩
    · exact Resolves.mistake _ _
  | .moduleName line name, _, _ => by
    refine Resolves.get ?_
    rintro s rfl
    split
    · exact Resolves.mistake _ _
    · intro t _ after same done
      cases done
      exact ⟨same, ⟨rfl, rfl⟩, .stmt (by simp [Stmt.declares?]) (by simp [Stmt.loopNames])
        (by simp [Stmt.branches]) trivial (by simp [Stmt.parts])⟩
termination_by structural s => s

theorem resolveStmtOption_fits (frames : List Frame) (c : Context) :
    (s : Option Stmt) → (∀ x ∈ s, x.Plain) → (∀ x ∈ s, Formed (.stmt x)) →
      Resolves frames (fun after resolved => after = frames ∧ (∀ x ∈ resolved, x.Plain) ∧
        ∀ x ∈ resolved, FitsToRun frames c (.stmt x)) (resolveStmtOption c s)
  | none, _, _ => Resolves.pure ⟨rfl, by simp⟩
  | some s, plain, formed => by
    refine Resolves.bind (Resolves.branch (plain s rfl) (resolveStmt_fits frames c s (formed s rfl))) ?_
    rintro _ s ⟨rfl, resolvedPlain, fits⟩
    exact Resolves.pure ⟨rfl, by simpa using resolvedPlain, by simpa using fits⟩
termination_by structural s => s

theorem resolveCases_fits (frames : List Frame) (c : Context) :
    (cases : List (Expr × Stmt)) →
      (∀ x ∈ cases, Formed (.expr x.1) ∧ x.2.Plain ∧ Formed (.stmt x.2)) →
      Resolves frames (fun after cases => after = frames ∧
        ∀ x ∈ cases, FitsAt frames c (.expr x.1) ∧ x.2.Plain ∧ FitsToRun frames c (.stmt x.2))
        (resolveCases c cases)
  | [], _ => Resolves.pure ⟨rfl, by simp⟩
  | (candidate, body) :: rest, formed => by
    obtain ⟨candidateFormed, plain, bodyFormed⟩ := formed (candidate, body) (by simp)
    refine Resolves.bind (resolveExpr_fits frames c candidate candidateFormed) ?_
    rintro _ candidate ⟨rfl, candidateFits⟩
    refine Resolves.bind (Resolves.branch plain (resolveStmt_fits _ c body bodyFormed)) ?_
    rintro _ body ⟨rfl, bodyPlain, bodyFits⟩
    refine Resolves.bind (resolveCases_fits _ c rest fun x member => formed x (by simp [member])) ?_
    rintro _ rest ⟨rfl, others⟩
    refine Resolves.pure ⟨rfl, ?_⟩
    simp only [List.mem_cons]
    rintro x (rfl | member)
    · exact ⟨candidateFits, bodyPlain, bodyFits⟩
    · exact others x member
termination_by structural cases => cases

theorem resolveVar_fits (frames : List Frame) (c : Context) :
    (decl : VarDecl) → (∀ e ∈ decl.initializer, Formed (.expr e)) →
      Resolves frames (fun after resolved => after = frames.modifyHead (declared · decl.name.text) ∧
        resolved.name = decl.name ∧ FreshIn frames decl.name.text ∧
        ∀ e ∈ resolved.initializer,
          FitsAt (frames.modifyHead (·.insert decl.name.text false)) c (.expr e)) (resolveVar c decl)
  | ⟨name, modifiers, declared, initializer⟩, formed => by
    refine Resolves.bind (declare_resolves frames name) ?_
    rintro _ _ ⟨rfl, fresh⟩
    refine Resolves.bind (resolveOption_fits _ c initializer formed) ?_
    rintro _ initializer ⟨rfl, fits⟩
    refine Resolves.bind (define_resolves _ name) ?_
    rintro _ _ rfl
    refine Resolves.pure ⟨?_, rfl, fresh, fits⟩
    cases frames <;> rfl
termination_by structural decl => decl

theorem resolveStmts_fits (frame : Frame) (outer : List Frame) (c : Context) (before : Option Name) :
    (ss : List Stmt) → LoopsFollow before ss → (∀ s ∈ ss, Formed (.stmt s)) →
      (∀ name ∈ before, ReadyIn (frame :: outer) name.text) →
      Resolves (frame :: outer) (fun after ss => after.tail = outer ∧
        FitsToRun (frame :: outer) c (.body ss)) (resolveStmts c ss)
  | [], _, _, _ => Resolves.pure ⟨rfl, fun _ _ _ _ => .intro trivial (by simp [Item.parts, bodyParts])⟩
  | s :: rest, follow, formed, ready => by
    have found : ∀ name ∈ s.loopNames, ReadyIn (frame :: outer) name.text :=
      fun name member => ready name (follow.1 name member)
    refine Resolves.bind (resolveStmt_fits (frame :: outer) c s (formed s (by simp)) found) ?_
    rintro _ s ⟨rfl, same, fits⟩
    obtain ⟨frame', shape, next⟩ : ∃ frame', framesAfter (frame :: outer) s = frame' :: outer ∧
        ∀ name ∈ s.declares?, ReadyIn (frame' :: outer) name.text := by
      unfold framesAfter
      cases s.declares? with
      | none => exact ⟨frame, rfl, by simp⟩
      | some name => exact ⟨_, rfl, by simpa using ReadyIn.declared frame outer name.text⟩
    rw [shape]
    refine Resolves.bind (resolveStmts_fits frame' outer c s.declares? rest (same.1 ▸ follow.2)
      (fun s member => formed s (by simp [member])) next) ?_
    rintro _ rest ⟨left, others⟩
    exact Resolves.pure ⟨left, fits.cons (shape ▸ others)⟩
termination_by structural ss => ss

theorem resolveFunction_fits (frames : List Frame) (c : Context) (role : FunctionRole) :
    (decl : FunctionDecl) → Formed (.function role decl) →
      Resolves frames (fun after resolved => after = frames ∧ resolved.name = decl.name ∧
        FitsAt frames c (.function role resolved)) (resolveFunction c role decl)
  | ⟨name, params, returns, modifiers, body⟩, formed => by
    have part : ∀ ss ∈ body, Formed (.body ss) := fun ss member =>
      formed.part (by simp [Item.parts, Option.mem_def.mp member])
    refine Resolves.bind (resolveBody_fits frames (c.inFunction role) (params.map Param.name) body part) ?_
    rintro _ body ⟨rfl, fits⟩
    refine Resolves.pure ⟨rfl, rfl, fun p same context => .intro formed.regular ?_⟩
    simp only [Item.parts, List.mem_map, Option.mem_toList]
    rintro _ ⟨ss, member, rfl⟩
    refine fits ss member _ ?_ (by simp [Place.callee, context]) ?_
    · simp [Place.callee, Place.frames, ← same]
    · simp [Place.Runs, Place.callee, Site.runs]
termination_by structural decl => decl

theorem resolveBody_fits (frames : List Frame) (c : Context) (params : List Name) :
    (body : Option (List Stmt)) → (∀ ss ∈ body, Formed (.body ss)) →
      Resolves frames (fun after body => after = frames ∧
        ∀ ss ∈ body, FitsToRun (declaredAll .empty params :: frames) c (.body ss))
        (resolveBody c params body)
  | none, _ => Resolves.pure ⟨rfl, by simp⟩
  | some ss, formed => by
    have part := formed ss rfl
    refine Resolves.inScope (Resolves.bind (declareAll_resolves params (frameOf []) frames) ?_)
    rintro _ _ rfl
    refine Resolves.bind (resolveStmts_fits _ _ c none ss part.regular part.body (by simp)) ?_
    rintro _ ss ⟨left, fits⟩
    refine Resolves.pure ⟨left, ?_⟩
    rintro _ ⟨⟩
    exact fits
termination_by structural body => body

theorem resolveFunctionOption_fits (frames : List Frame) (c : Context) (role : FunctionRole) :
    (decl : Option FunctionDecl) → (∀ f ∈ decl, Formed (.function role f)) →
      Resolves frames (fun after resolved => after = frames ∧
        ∀ f ∈ resolved, FitsAt frames c (.function role f)) (resolveFunctionOption c role decl)
  | none, _ => Resolves.pure ⟨rfl, by simp⟩
  | some decl, formed => by
    refine Resolves.bind (resolveFunction_fits frames c role decl (formed decl rfl)) ?_
    rintro _ decl ⟨rfl, -, fits⟩
    exact Resolves.pure ⟨rfl, by simpa using fits⟩
termination_by structural decl => decl

theorem resolveMethods_fits (frames : List Frame) (c : Context) (role : Name → FunctionRole) :
    (decls : List FunctionDecl) → (∀ decl ∈ decls, Formed (.function (role decl.name) decl)) →
      Resolves frames (fun after decls => after = frames ∧
        ∀ decl ∈ decls, FitsAt frames c (.function (role decl.name) decl)) (resolveMethods c role decls)
  | [], _ => Resolves.pure ⟨rfl, by simp⟩
  | decl :: rest, formed => by
    refine Resolves.bind (resolveFunction_fits frames c (role decl.name) decl (formed decl (by simp))) ?_
    rintro _ resolved ⟨rfl, name, fits⟩
    refine Resolves.bind
      (resolveMethods_fits _ c role rest fun decl member => formed decl (by simp [member])) ?_
    rintro _ rest ⟨rfl, others⟩
    rw [← name] at fits
    exact Resolves.pure ⟨rfl, by simpa using ⟨fits, others⟩⟩
termination_by structural decls => decls

theorem resolveProperty_fits (frames : List Frame) (c : Context) :
    (decl : PropertyDecl) → Formed (.function .accessor decl.getter) →
      (∀ f ∈ decl.setter, Formed (.function .accessor f)) →
      Resolves frames (fun after resolved => after = frames ∧ resolved.name = decl.name ∧
        ∀ p : Place, p.frames = frames → p.context = c →
          ∀ q ∈ resolved.parts p, WellPlaced q.1 q.2) (resolveProperty c decl)
  | ⟨name, modifiers, declared, getter, setter⟩, getterFormed, setterFormed => by
    refine Resolves.bind (resolveFunction_fits frames c .accessor getter getterFormed) ?_
    rintro _ getter ⟨rfl, -, getterFits⟩
    refine Resolves.bind (resolveFunctionOption_fits _ c .accessor setter setterFormed) ?_
    rintro _ setter ⟨rfl, setterFits⟩
    refine Resolves.pure ⟨rfl, rfl, fun p same context => ?_⟩
    simp only [PropertyDecl.parts, List.mem_cons, List.mem_map, Option.mem_toList]
    rintro _ (rfl | ⟨f, member, rfl⟩)
    · exact getterFits p same context
    · exact setterFits f member p same context
termination_by structural decl => decl

theorem resolveFieldVar_fits (frames : List Frame) (c : Context) :
    (decl : VarDecl) → (∀ e ∈ decl.initializer, Formed (.expr e)) →
      Resolves frames (fun after resolved => after = frames ∧
        ∀ e ∈ resolved.initializer, FitsAt frames c (.expr e)) (resolveFieldVar c decl)
  | ⟨name, modifiers, declared, initializer⟩, formed => by
    refine Resolves.bind (resolveOption_fits frames c initializer formed) ?_
    rintro _ initializer ⟨rfl, fits⟩
    exact Resolves.pure ⟨rfl, fits⟩
termination_by structural decl => decl

theorem resolveFields_fits (frames : List Frame) (c : Context) :
    (fields : List Field) → (∀ field ∈ fields, ∀ q ∈ field.parts {} {}, Formed q.2) →
      Resolves frames (fun after fields => after = frames ∧
        ∀ field ∈ fields, FieldFits frames (frameOf ["this"] :: frames) c field) (resolveFields c fields)
  | [], _ => Resolves.pure ⟨rfl, by simp⟩
  | .var decl :: rest, formed => by
    have part : ∀ e ∈ decl.initializer, Formed (.expr e) := fun e member =>
      formed (.var decl) (by simp) ({}, .expr e)
        (by simp [Field.parts, VarDecl.parts, Option.mem_def.mp member])
    refine Resolves.bind (resolveFieldVar_fits frames c decl part) ?_
    rintro _ decl ⟨rfl, fits⟩
    refine Resolves.bind (resolveFields_fits _ c rest fun field member =>
      formed field (by simp [member])) ?_
    rintro _ rest ⟨rfl, others⟩
    refine Resolves.pure ⟨rfl, ?_⟩
    simp only [List.mem_cons]
    rintro field (rfl | member)
    · exact fieldFits_var fits
    · exact others field member
  | .property decl :: rest, formed => by
    have parts := formed (.property decl) (by simp)
    have getter : Formed (.function .accessor decl.getter) :=
      parts ({}, .function .accessor decl.getter) (by simp [Field.parts, PropertyDecl.parts])
    have setter : ∀ f ∈ decl.setter, Formed (.function .accessor f) := fun f member =>
      parts ({}, .function .accessor f)
        (by simp [Field.parts, PropertyDecl.parts, Option.mem_def.mp member])
    refine Resolves.bind (Resolves.within (resolveProperty_fits _ c decl getter setter)) ?_
    rintro _ decl ⟨rfl, -, fits⟩
    refine Resolves.bind (resolveFields_fits _ c rest fun field member =>
      formed field (by simp [member])) ?_
    rintro _ rest ⟨rfl, others⟩
    refine Resolves.pure ⟨rfl, ?_⟩
    simp only [List.mem_cons]
    rintro field (rfl | member)
    · exact fun _ q _ _ same context => fits q same context
    · exact others field member
termination_by structural fields => fields

theorem resolveInterfaceVars_fits (frames : List Frame) (c : Context) :
    (fields : List Field) → (∀ field ∈ fields, ∀ q ∈ field.parts {} {}, Formed q.2) →
      Resolves frames (fun after vars => after = frames ∧
        ∀ decl, some decl ∈ vars → ∀ e ∈ decl.initializer, FitsAt frames c (.expr e))
        (resolveInterfaceVars c fields)
  | [], _ => Resolves.pure ⟨rfl, by simp⟩
  | .var decl :: rest, formed => by
    have part : ∀ e ∈ decl.initializer, Formed (.expr e) := fun e member =>
      formed (.var decl) (by simp) ({}, .expr e)
        (by simp [Field.parts, VarDecl.parts, Option.mem_def.mp member])
    refine Resolves.bind (resolveFieldVar_fits frames c decl part) ?_
    rintro _ decl ⟨rfl, fits⟩
    refine Resolves.bind (resolveInterfaceVars_fits _ c rest fun field member =>
      formed field (by simp [member])) ?_
    rintro _ vars ⟨rfl, others⟩
    refine Resolves.pure ⟨rfl, ?_⟩
    simp only [List.mem_cons, Option.some.injEq]
    rintro other (rfl | member)
    · exact fits
    · exact others other member
  | .property _ :: rest, formed => by
    refine Resolves.bind (resolveInterfaceVars_fits frames c rest fun field member =>
      formed field (by simp [member])) ?_
    rintro _ vars ⟨rfl, others⟩
    exact Resolves.pure ⟨rfl, by simpa using others⟩
termination_by structural fields => fields

/-- The variables of an interface fit the place outside, and its properties the one inside. -/
theorem resolveInterfaceProperties_fits (frames outside : List Frame) (c : Context) :
    (fields : List Field) → (vars : List (Option VarDecl)) →
      (∀ field ∈ fields, ∀ q ∈ field.parts {} {}, Formed q.2) →
      (∀ decl, some decl ∈ vars → ∀ e ∈ decl.initializer, FitsAt outside c (.expr e)) →
      Resolves frames (fun after fields => after = frames ∧
        ∀ field ∈ fields, FieldFits outside frames c field) (resolveInterfaceProperties c fields vars)
  | .property decl :: rest, _ :: vars, formed, varsFit => by
    have parts := formed (.property decl) (by simp)
    have getter : Formed (.function .accessor decl.getter) :=
      parts ({}, .function .accessor decl.getter) (by simp [Field.parts, PropertyDecl.parts])
    have setter : ∀ f ∈ decl.setter, Formed (.function .accessor f) := fun f member =>
      parts ({}, .function .accessor f)
        (by simp [Field.parts, PropertyDecl.parts, Option.mem_def.mp member])
    refine Resolves.bind (resolveProperty_fits frames c decl getter setter) ?_
    rintro _ decl ⟨rfl, -, fits⟩
    refine Resolves.bind (resolveInterfaceProperties_fits _ outside c rest vars
      (fun field member => formed field (by simp [member]))
      (fun decl member => varsFit decl (by simp [member]))) ?_
    rintro _ rest ⟨rfl, others⟩
    refine Resolves.pure ⟨rfl, ?_⟩
    simp only [List.mem_cons]
    rintro field (rfl | member)
    · exact fun _ q _ _ same context => fits q same context
    · exact others field member
  | .var _ :: rest, some decl :: vars, formed, varsFit => by
    refine Resolves.bind (resolveInterfaceProperties_fits frames outside c rest vars
      (fun field member => formed field (by simp [member]))
      (fun decl member => varsFit decl (by simp [member]))) ?_
    rintro _ rest ⟨rfl, others⟩
    refine Resolves.pure ⟨rfl, ?_⟩
    simp only [List.mem_cons]
    rintro field (rfl | member)
    · exact fieldFits_var (varsFit decl (by simp))
    · exact others field member
  | [], _, _, _ => Resolves.pure ⟨rfl, by simp⟩
  | .var _ :: _, none :: _, _, _ => Resolves.pure ⟨rfl, by simp⟩
  | .var _ :: _, [], _, _ => Resolves.pure ⟨rfl, by simp⟩
  | .property _ :: _, [], _, _ => Resolves.pure ⟨rfl, by simp⟩
termination_by structural fields => fields

theorem resolveClass_fits (frames : List Frame) (c : Context) :
    (decl : ClassDecl) → (∀ q ∈ decl.parts {}, Formed q.2) →
      Resolves frames (fun after resolved => after = frames.modifyHead (declared · decl.name.text) ∧
        resolved.name = decl.name ∧ resolved.templates = decl.templates ∧ FreshIn frames decl.name.text ∧
        ∀ p : Place, p.frames = frames → p.context = c →
          ∀ q ∈ resolved.parts p, WellPlaced q.1 q.2) (resolveClass c decl)
  | ⟨name, superclass, interfaces, templates, fields, methods⟩, formed => by
    simp only [ClassDecl.parts, List.mem_append, List.mem_flatMap, List.mem_map] at formed
    have fieldsFormed : ∀ field ∈ fields, ∀ q ∈ field.parts {} {}, Formed q.2 :=
      fun field member => Formed.field fun part found => formed part (.inl (.inr ⟨field, member, found⟩))
    have methodsFormed : ∀ method ∈ methods, Formed (.function (methodRole method.name) method) :=
      fun method member => formed _ (.inr ⟨method, member, rfl⟩)
    refine Resolves.bind (declareDefined_resolves frames name) ?_
    rintro _ _ ⟨rfl, fresh⟩
    refine Resolves.bind (resolveSuperclass_resolves _ name superclass) ?_
    rintro _ superclass ⟨rfl, superclassLocated⟩
    refine Resolves.bind (resolveUses_resolves _ interfaces) ?_
    rintro inside interfaces ⟨rfl, interfacesLocated⟩
    refine Resolves.bind (Resolves.inScope (P := MembersFit
      (declaredAll (frameOf ["super"]) templates :: frames.modifyHead (declared · name.text))
      { c with owner := if superclass.isSome then .derived else .base })
      (Resolves.bind (declareAll_resolves templates _ _) ?_)) ?_
    · rintro _ _ rfl
      refine Resolves.bind (resolveFields_fits _ _ fields fieldsFormed) ?_
      rintro _ fields ⟨rfl, fieldsFit⟩
      refine Resolves.bind
        (Resolves.within (resolveMethods_fits _ _ methodRole methods methodsFormed)) ?_
      rintro _ methods ⟨rfl, methodsFit⟩
      exact Resolves.pure ⟨rfl, fieldsFit, methodsFit⟩
    · rintro _ ⟨fields, methods⟩ ⟨rfl, fieldsFit, methodsFit⟩
      refine Resolves.pure ⟨rfl, rfl, rfl, fresh, ?_⟩
      rintro p rfl rfl
      have outside : (p.binding name.text).frames = p.frames.modifyHead (declared · name.text) :=
        p.binding_frames name.text
      simp only [ClassDecl.parts, referenceParts, List.mem_append, List.mem_flatMap, List.mem_map,
        Option.mem_toList]
      rintro q ((⟨ref, member, rfl⟩ | ⟨field, member, found⟩) | ⟨method, member, rfl⟩)
      · refine wellPlaced_use (outside ▸ ?_)
        rcases member with member | member
        · exact superclassLocated ref member
        · exact interfacesLocated ref member
      · refine fieldsFit field member _ _ ?_ rfl ?_ rfl q found
        · rw [← outside]
          rfl
        · rw [← outside]
          rfl
      · refine methodsFit method member _ ?_ rfl
        rw [← outside]
        rfl
termination_by structural decl => decl

theorem resolveInterface_fits (frames : List Frame) (c : Context) :
    (decl : InterfaceDecl) → (∀ q ∈ decl.parts {}, Formed q.2) →
      Resolves frames (fun after resolved => after = frames.modifyHead (declared · decl.name.text) ∧
        resolved.name = decl.name ∧ FreshIn frames decl.name.text ∧
        ∀ p : Place, p.frames = frames → p.context = c →
          ∀ q ∈ resolved.parts p, WellPlaced q.1 q.2) (resolveInterface c decl)
  | ⟨name, fields, methods⟩, formed => by
    simp only [InterfaceDecl.parts, List.mem_append, List.mem_flatMap, List.mem_map] at formed
    have fieldsFormed : ∀ field ∈ fields, ∀ q ∈ field.parts {} {}, Formed q.2 :=
      fun field member => Formed.field fun part found => formed part (.inl ⟨field, member, found⟩)
    have methodsFormed : ∀ method ∈ methods, Formed (.function .method method) :=
      fun method member => formed _ (.inr ⟨method, member, rfl⟩)
    refine Resolves.bind (declareDefined_resolves frames name) ?_
    rintro _ _ ⟨rfl, fresh⟩
    refine Resolves.bind (resolveInterfaceVars_fits _ { c with owner := .interface } fields fieldsFormed) ?_
    rintro _ vars ⟨rfl, varsFit⟩
    refine (Resolves.within (P := fun resolved : InterfaceDecl => resolved.name = name ∧
      (∀ field ∈ resolved.fields, FieldFits (frames.modifyHead (declared · name.text))
        (frameOf ["this"] :: frames.modifyHead (declared · name.text))
        { c with owner := .interface } field) ∧
      ∀ method ∈ resolved.methods, FitsAt (frameOf ["this"] :: frames.modifyHead (declared · name.text))
        { c with owner := .interface } (.function .method method))
      (Resolves.bind (resolveInterfaceProperties_fits _ _ _ fields vars fieldsFormed varsFit) ?_)).mono ?_
    · rintro _ fields ⟨rfl, fieldsFit⟩
      refine Resolves.bind (resolveMethods_fits _ _ (fun _ => .method) methods methodsFormed) ?_
      rintro _ methods ⟨rfl, methodsFit⟩
      exact Resolves.pure ⟨rfl, rfl, fieldsFit, methodsFit⟩
    · rintro _ ⟨name, fields, methods⟩ ⟨rfl, rfl, fieldsFit, methodsFit⟩
      refine ⟨rfl, rfl, fresh, ?_⟩
      rintro p rfl rfl
      have outside : (p.binding name.text).frames = p.frames.modifyHead (declared · name.text) :=
        p.binding_frames name.text
      simp only [InterfaceDecl.parts, List.mem_append, List.mem_flatMap, List.mem_map]
      rintro q (⟨field, member, found⟩ | ⟨method, member, rfl⟩)
      · refine fieldsFit field member (p.binding name.text).inInterface _ outside rfl ?_ rfl q found
        rw [← outside]
        rfl
      · refine methodsFit method member _ ?_ rfl
        rw [← outside]
        rfl
termination_by structural decl => decl

end

/-- A statement that the resolver takes at the outermost level is well placed there. -/
theorem resolveEach_wellPlaced (moduleName : Option String) (program : List Stmt)
    (formed : ∀ s ∈ program, Formed (.stmt s) ∧ s.loopNames = []) :
    ∀ s ∈ (resolveEach moduleName program).1, WellPlaced {} (.stmt s) := by
  induction program generalizing moduleName with
  | nil => simp [resolveEach]
  | cons first rest ih =>
    have others := fun moduleName => ih moduleName fun s member => formed s (by simp [member])
    obtain ⟨firstFormed, noNames⟩ := formed first (by simp)
    simp only [resolveEach, EStateM.run]
    split
    · rename_i resolved after done
      obtain ⟨-, -, fits⟩ := resolveStmt_fits [] {} first firstFormed (by simp [noNames]) _ _ _ rfl done
      simp only [List.mem_cons]
      rintro s (rfl | member)
      · exact fits {} rfl rfl (by simp [Place.Runs])
      · exact others _ s member
    · exact others _

end Scoping

theorem resolve_wellPlaced {program resolved : List Stmt}
    (formed : ∀ s ∈ program, Scoping.Formed (.stmt s) ∧ s.loopNames = [])
    (done : resolve program = .ok resolved) : ∀ s ∈ resolved, Scoping.WellPlaced {} (.stmt s) := by
  unfold resolve at done
  split at done
  · rename_i found accepted
    cases done
    have placed := Scoping.resolveEach_wellPlaced none program formed
    rwa [accepted] at placed
  · cases done

end Treewalk
