import Treewalk.References
import Treewalk.Proofs.Place

/-!
Trees with their references changed. Such a tree has the parts of the first one, changed in the same way and at
places that differ in nothing but what is written in them; so whatever is asked of a place is kept by changes to
ids.
-/

namespace Treewalk

def Reference.unnumbered (ref : Reference) : Reference :=
  { ref with id := 0 }

section

variable (f g : Reference → Reference)

@[simp]
theorem Expr.relabelOption_eq (e : Option Expr) : Expr.relabelOption f e = e.map (Expr.relabel f) := by
  cases e <;> rfl

@[simp]
theorem Expr.relabelAll_eq (es : List Expr) : Expr.relabelAll f es = es.map (Expr.relabel f) := by
  induction es with
  | nil => rfl
  | cons e rest ih => simp [Expr.relabelAll, ih]

@[simp]
theorem Stmt.relabelOption_eq (s : Option Stmt) : Stmt.relabelOption f s = s.map (Stmt.relabel f) := by
  cases s <;> rfl

@[simp]
theorem Stmt.relabelAll_eq (ss : List Stmt) : Stmt.relabelAll f ss = ss.map (Stmt.relabel f) := by
  induction ss with
  | nil => rfl
  | cons s rest ih => simp [Stmt.relabelAll, ih]

@[simp]
theorem Stmt.relabelCases_eq (cases : List (Expr × Stmt)) :
    Stmt.relabelCases f cases = cases.map fun (candidate, body) => (candidate.relabel f, body.relabel f) := by
  induction cases with
  | nil => rfl
  | cons first rest ih => simp [Stmt.relabelCases, ih]

@[simp]
theorem Stmt.relabelBody_eq (body : Option (List Stmt)) :
    Stmt.relabelBody f body = body.map (List.map (Stmt.relabel f)) := by
  cases body <;> simp [Stmt.relabelBody]

@[simp]
theorem FunctionDecl.relabelOption_eq (decl : Option FunctionDecl) :
    FunctionDecl.relabelOption f decl = decl.map (FunctionDecl.relabel f) := by
  cases decl <;> rfl

@[simp]
theorem FunctionDecl.relabelAll_eq (decls : List FunctionDecl) :
    FunctionDecl.relabelAll f decls = decls.map (FunctionDecl.relabel f) := by
  induction decls with
  | nil => rfl
  | cons decl rest ih => simp [FunctionDecl.relabelAll, ih]

@[simp]
theorem Field.relabelAll_eq (fields : List Field) : Field.relabelAll f fields = fields.map (Field.relabel f) := by
  induction fields with
  | nil => rfl
  | cons field rest ih => simp [Field.relabelAll, ih]

/-! Declarations, part by part. -/

theorem VarDecl.relabel_eq (decl : VarDecl) :
    decl.relabel f = ⟨decl.name, decl.modifiers, decl.declared, decl.initializer.map (Expr.relabel f)⟩ := by
  cases decl
  simp [VarDecl.relabel]

theorem FunctionDecl.relabel_eq (decl : FunctionDecl) :
    decl.relabel f =
      ⟨decl.name, decl.params, decl.returns, decl.modifiers, decl.body.map (List.map (Stmt.relabel f))⟩ := by
  cases decl
  simp [FunctionDecl.relabel]

theorem PropertyDecl.relabel_eq (decl : PropertyDecl) :
    decl.relabel f = ⟨decl.name, decl.modifiers, decl.declared, decl.getter.relabel f,
      decl.setter.map (FunctionDecl.relabel f)⟩ := by
  cases decl
  simp [PropertyDecl.relabel]

theorem ClassDecl.relabel_eq (decl : ClassDecl) :
    decl.relabel f = ⟨decl.name, decl.superclass.map f, decl.interfaces.map f, decl.templates,
      decl.fields.map (Field.relabel f), decl.methods.map (FunctionDecl.relabel f)⟩ := by
  cases decl
  simp [ClassDecl.relabel]

theorem InterfaceDecl.relabel_eq (decl : InterfaceDecl) :
    decl.relabel f =
      ⟨decl.name, decl.fields.map (Field.relabel f), decl.methods.map (FunctionDecl.relabel f)⟩ := by
  cases decl
  simp [InterfaceDecl.relabel]

/-! Two changes one after the other. -/

mutual

theorem Expr.relabel_relabel : (e : Expr) → (e.relabel g).relabel f = e.relabel (f ∘ g)
  | .literal _ | .type .. | .use _ | .this _ | .value _ | .super .. => rfl
  | .group e | .unary _ _ e | .get e _ _ | .staticGet e _ | .sizedArray _ _ e | .length _ e | .typeOf _ e => by
    simp only [Expr.relabel, e.relabel_relabel]
  | .binary _ _ left right | .logical _ _ left right | .index left _ right | .cast left _ right => by
    simp only [Expr.relabel, left.relabel_relabel, right.relabel_relabel]
  | .ternary _ condition yes no => by
    simp only [Expr.relabel, condition.relabel_relabel, yes.relabel_relabel, no.relabel_relabel]
  | .assign _ _ value => by
    simp only [Expr.relabel, Expr.relabelOption_relabel value, Function.comp_apply]
  | .call callee _ args generics _ => by
    simp only [Expr.relabel, callee.relabel_relabel, Expr.relabelAll_relabel args, Expr.relabelAll_relabel generics]
  | .set object _ _ value | .staticSet object _ _ value => by
    simp only [Expr.relabel, object.relabel_relabel, Expr.relabelOption_relabel value]
  | .indexSet object _ position _ value => by
    simp only [Expr.relabel, object.relabel_relabel, position.relabel_relabel, Expr.relabelOption_relabel value]
  | .array _ _ elements => by simp only [Expr.relabel, Expr.relabelAll_relabel elements]
  | .lambda decl => by simp only [Expr.relabel, decl.relabel_relabel]
termination_by structural e => e

theorem Expr.relabelOption_relabel : (e : Option Expr) →
    Expr.relabelOption f (Expr.relabelOption g e) = Expr.relabelOption (f ∘ g) e
  | none => rfl
  | some e => by simp only [Expr.relabelOption, e.relabel_relabel]
termination_by structural e => e

theorem Expr.relabelAll_relabel : (es : List Expr) →
    Expr.relabelAll f (Expr.relabelAll g es) = Expr.relabelAll (f ∘ g) es
  | [] => rfl
  | e :: rest => by simp only [Expr.relabelAll, e.relabel_relabel, Expr.relabelAll_relabel rest]
termination_by structural es => es

theorem Stmt.relabel_relabel : (s : Stmt) → (s.relabel g).relabel f = s.relabel (f ∘ g)
  | .enumDecl .. | .breaking _ | .continuing _ | .moduleName .. => rfl
  | .expr e | .expect _ e => by simp only [Stmt.relabel, e.relabel_relabel]
  | .var decl => by simp only [Stmt.relabel, decl.relabel_relabel]
  | .property decl => by simp only [Stmt.relabel, decl.relabel_relabel]
  | .function decl => by simp only [Stmt.relabel, decl.relabel_relabel]
  | .classDecl decl => by simp only [Stmt.relabel, decl.relabel_relabel]
  | .interfaceDecl decl => by simp only [Stmt.relabel, decl.relabel_relabel]
  | .block body => by simp only [Stmt.relabel, Stmt.relabelAll_relabel body]
  | .ifElse condition body other | .whenLoop condition body other => by
    simp only [Stmt.relabel, condition.relabel_relabel, body.relabel_relabel, Stmt.relabelOption_relabel other]
  | .whileLoop condition body increment _ => by
    simp only [Stmt.relabel, condition.relabel_relabel, body.relabel_relabel, Expr.relabelOption_relabel increment]
  | .switch _ value cases default => by
    simp only [Stmt.relabel, value.relabel_relabel, Stmt.relabelCases_relabel cases,
      Stmt.relabelOption_relabel default]
  | .tryCatch body _ handler => by
    simp only [Stmt.relabel, body.relabel_relabel, Stmt.relabelAll_relabel handler]
  | .test _ name body => by simp only [Stmt.relabel, name.relabel_relabel, body.relabel_relabel]
  | .returning _ value => by simp only [Stmt.relabel, Expr.relabelOption_relabel value]
termination_by structural s => s

theorem Stmt.relabelOption_relabel : (s : Option Stmt) →
    Stmt.relabelOption f (Stmt.relabelOption g s) = Stmt.relabelOption (f ∘ g) s
  | none => rfl
  | some s => by simp only [Stmt.relabelOption, s.relabel_relabel]
termination_by structural s => s

theorem Stmt.relabelAll_relabel : (ss : List Stmt) →
    Stmt.relabelAll f (Stmt.relabelAll g ss) = Stmt.relabelAll (f ∘ g) ss
  | [] => rfl
  | s :: rest => by simp only [Stmt.relabelAll, s.relabel_relabel, Stmt.relabelAll_relabel rest]
termination_by structural ss => ss

theorem Stmt.relabelCases_relabel : (cases : List (Expr × Stmt)) →
    Stmt.relabelCases f (Stmt.relabelCases g cases) = Stmt.relabelCases (f ∘ g) cases
  | [] => rfl
  | (candidate, body) :: rest => by
    simp only [Stmt.relabelCases, candidate.relabel_relabel, body.relabel_relabel, Stmt.relabelCases_relabel rest]
termination_by structural cases => cases

theorem Stmt.relabelBody_relabel : (body : Option (List Stmt)) →
    Stmt.relabelBody f (Stmt.relabelBody g body) = Stmt.relabelBody (f ∘ g) body
  | none => rfl
  | some body => by simp only [Stmt.relabelBody, Stmt.relabelAll_relabel body]
termination_by structural body => body

theorem VarDecl.relabel_relabel : (decl : VarDecl) → (decl.relabel g).relabel f = decl.relabel (f ∘ g)
  | ⟨_, _, _, initializer⟩ => by simp only [VarDecl.relabel, Expr.relabelOption_relabel initializer]
termination_by structural decl => decl

theorem FunctionDecl.relabel_relabel : (decl : FunctionDecl) → (decl.relabel g).relabel f = decl.relabel (f ∘ g)
  | ⟨_, _, _, _, body⟩ => by simp only [FunctionDecl.relabel, Stmt.relabelBody_relabel body]
termination_by structural decl => decl

theorem FunctionDecl.relabelOption_relabel : (decl : Option FunctionDecl) →
    FunctionDecl.relabelOption f (FunctionDecl.relabelOption g decl) = FunctionDecl.relabelOption (f ∘ g) decl
  | none => rfl
  | some decl => by simp only [FunctionDecl.relabelOption, decl.relabel_relabel]
termination_by structural decl => decl

theorem FunctionDecl.relabelAll_relabel : (decls : List FunctionDecl) →
    FunctionDecl.relabelAll f (FunctionDecl.relabelAll g decls) = FunctionDecl.relabelAll (f ∘ g) decls
  | [] => rfl
  | decl :: rest => by
    simp only [FunctionDecl.relabelAll, decl.relabel_relabel, FunctionDecl.relabelAll_relabel rest]
termination_by structural decls => decls

theorem PropertyDecl.relabel_relabel : (decl : PropertyDecl) → (decl.relabel g).relabel f = decl.relabel (f ∘ g)
  | ⟨_, _, _, getter, setter⟩ => by
    simp only [PropertyDecl.relabel, getter.relabel_relabel, FunctionDecl.relabelOption_relabel setter]
termination_by structural decl => decl

theorem Field.relabel_relabel : (field : Field) → (field.relabel g).relabel f = field.relabel (f ∘ g)
  | .var decl => by simp only [Field.relabel, decl.relabel_relabel]
  | .property decl => by simp only [Field.relabel, decl.relabel_relabel]
termination_by structural field => field

theorem Field.relabelAll_relabel : (fields : List Field) →
    Field.relabelAll f (Field.relabelAll g fields) = Field.relabelAll (f ∘ g) fields
  | [] => rfl
  | field :: rest => by simp only [Field.relabelAll, field.relabel_relabel, Field.relabelAll_relabel rest]
termination_by structural fields => fields

theorem ClassDecl.relabel_relabel : (decl : ClassDecl) → (decl.relabel g).relabel f = decl.relabel (f ∘ g)
  | ⟨_, _, _, _, fields, methods⟩ => by
    simp only [ClassDecl.relabel, Option.map_map, List.map_map, Field.relabelAll_relabel fields,
      FunctionDecl.relabelAll_relabel methods]
termination_by structural decl => decl

theorem InterfaceDecl.relabel_relabel : (decl : InterfaceDecl) →
    (decl.relabel g).relabel f = decl.relabel (f ∘ g)
  | ⟨_, fields, methods⟩ => by
    simp only [InterfaceDecl.relabel, Field.relabelAll_relabel fields, FunctionDecl.relabelAll_relabel methods]
termination_by structural decl => decl

end

end

/-! Statements, apart from their parts. -/

section

variable (f : Reference → Reference) (s : Stmt)

@[simp]
theorem Stmt.relabel_declares? : (s.relabel f).declares? = s.declares? := by
  cases s <;> simp [Stmt.relabel, Stmt.declares?, VarDecl.relabel_eq, PropertyDecl.relabel_eq,
    FunctionDecl.relabel_eq, ClassDecl.relabel_eq, InterfaceDecl.relabel_eq]

@[simp]
theorem Stmt.relabel_loopNames : (s.relabel f).loopNames = s.loopNames := by
  cases s <;> rfl

@[simp]
theorem Stmt.relabel_boundNames : (s.relabel f).boundNames = s.boundNames := by
  have opened : (s.relabel f).openedNames = s.openedNames := by
    cases s <;> simp [Stmt.relabel, Stmt.openedNames, ClassDecl.relabel_eq]
  simp [Stmt.boundNames, opened]

theorem Stmt.relabel_branches : (s.relabel f).branches = s.branches.map (Stmt.relabel f) := by
  cases s <;> simp [Stmt.relabel, Stmt.branches, Option.toList_map, Function.comp_def]

@[simp]
theorem Stmt.relabel_plain : (s.relabel f).Plain ↔ s.Plain := by
  simp [Stmt.Plain]

theorem Stmt.relabel_permitted {c : Scoping.Context} : (s.relabel f).Permitted c ↔ s.Permitted c := by
  cases s <;> exact Iff.rfl

end

namespace Scoping

section

variable (f : Reference → Reference)

def Site.relabel : Site → Site
  | .block body => .block (body.map (Stmt.relabel f))
  | .function decl => .function (decl.relabel f)
  | .cls decl => .cls (decl.relabel f)
  | .receiver owner => .receiver owner
  | .iteration names body => .iteration names (body.relabel f)
  | .handler name body => .handler name (body.map (Stmt.relabel f))

def Level.relabel (l : Level) : Level :=
  { l with site := l.site.relabel f }

def Place.relabel (p : Place) : Place :=
  { p with levels := p.levels.map (Level.relabel f) }

def Item.relabel : Item → Item
  | .expr e => .expr (e.relabel f)
  | .stmt s => .stmt (s.relabel f)
  | .body ss => .body (ss.map (Stmt.relabel f))
  | .function role decl => .function role (decl.relabel f)

def relabelPart (q : Place × Item) : Place × Item :=
  (q.1.relabel f, q.2.relabel f)

namespace Place

variable (p : Place) (name : String)

@[simp]
theorem relabel_context : (p.relabel f).context = p.context := rfl

@[simp]
theorem relabel_frames : (p.relabel f).frames = p.frames := by
  simp [Place.relabel, Place.frames, Level.relabel, Function.comp_def]

@[simp]
theorem relabel_reserving : (p.relabel f).reserving name = (p.reserving name).relabel f := by
  obtain ⟨levels, context⟩ := p
  cases levels <;> rfl

@[simp]
theorem relabel_binding : (p.relabel f).binding name = (p.binding name).relabel f := by
  obtain ⟨levels, context⟩ := p
  cases levels <;> rfl

@[simp]
theorem relabel_bound : (p.relabel f).bound name = (p.bound name).relabel f := by
  obtain ⟨levels, context⟩ := p
  cases levels <;> rfl

@[simp]
theorem relabel_after (s : Stmt) : (p.relabel f).after (s.relabel f) = (p.after s).relabel f := by
  simp only [after, Stmt.relabel_declares?]
  cases s.declares? <;> simp

@[simp]
theorem relabel_inLoop : (p.relabel f).inLoop = p.inLoop.relabel f := rfl

@[simp]
theorem relabel_inSwitch : (p.relabel f).inSwitch = p.inSwitch.relabel f := rfl

@[simp]
theorem relabel_inTest : (p.relabel f).inTest = p.inTest.relabel f := rfl

@[simp]
theorem relabel_inInterface : (p.relabel f).inInterface = p.inInterface.relabel f := rfl

@[simp]
theorem relabel_receiver (owner : Name) : (p.relabel f).receiver owner = (p.receiver owner).relabel f := rfl

@[simp]
theorem relabel_block (body : List Stmt) :
    (p.relabel f).block (body.map (Stmt.relabel f)) = (p.block body).relabel f := rfl

@[simp]
theorem relabel_handler (name : Option Name) (body : List Stmt) :
    (p.relabel f).handler name (body.map (Stmt.relabel f)) = (p.handler name body).relabel f := rfl

@[simp]
theorem relabel_loopBody (names : List Name) (body : Stmt) :
    (p.relabel f).loopBody names (body.relabel f) = (p.loopBody names body).relabel f := by
  cases names <;> rfl

@[simp]
theorem relabel_callee (role : FunctionRole) (decl : FunctionDecl) :
    (p.relabel f).callee role (decl.relabel f) = (p.callee role decl).relabel f := by
  simp [callee, Place.relabel, Level.relabel, Site.relabel, FunctionDecl.relabel_eq]

@[simp]
theorem relabel_cls (decl : ClassDecl) : (p.relabel f).cls (decl.relabel f) = (p.cls decl).relabel f := by
  simp [Place.cls, Place.relabel, Level.relabel, Site.relabel, classFrame, classRole, ClassDecl.relabel_eq]

end Place

/-! The parts of an item with its references changed are the parts of the item, with theirs changed. -/

theorem fieldParts_relabel (p q : Place) (fields : List Field) :
    (fields.map (Field.relabel f)).flatMap (Field.parts (p.relabel f) (q.relabel f)) =
      (fields.flatMap (Field.parts p q)).map (relabelPart f) := by
  have each (field : Field) :
      (field.relabel f).parts (p.relabel f) (q.relabel f) = (field.parts p q).map (relabelPart f) := by
    cases field <;> simp [Field.relabel, Field.parts, VarDecl.parts, PropertyDecl.parts, VarDecl.relabel_eq,
      PropertyDecl.relabel_eq, Option.toList_map, relabelPart, Item.relabel]
  simp [List.flatMap_map, List.map_flatMap, each]

theorem methodParts_relabel (p : Place) (role : Name → FunctionRole) (methods : List FunctionDecl) :
    ((methods.map (FunctionDecl.relabel f)).map fun method =>
        (p.relabel f, Item.function (role method.name) method)) =
      (methods.map fun method => (p, Item.function (role method.name) method)).map (relabelPart f) := by
  simp [relabelPart, Item.relabel, FunctionDecl.relabel_eq]

theorem exprParts_relabel (p : Place) (e : Expr) :
    (e.relabel f).parts (p.relabel f) = (e.parts p).map (relabelPart f) := by
  cases e <;> simp [Expr.relabel, Expr.parts, Option.toList_map, relabelPart, Item.relabel, Function.comp_def]

theorem classParts_relabel (p : Place) (decl : ClassDecl) :
    (decl.relabel f).parts (p.relabel f) = (decl.parts p).map (relabelPart f) := by
  have name : (decl.relabel f).name = decl.name := by rw [ClassDecl.relabel_eq]
  have references (q : Place) (refs : List Reference) :
      referenceParts (q.relabel f) (refs.map f) = (referenceParts q refs).map (relabelPart f) := by
    simp [referenceParts, relabelPart, Item.relabel, Expr.relabel]
  simp only [ClassDecl.parts, name, Place.relabel_binding, Place.relabel_cls, Place.relabel_receiver]
  simp only [ClassDecl.relabel_eq, Option.toList_map, ← List.map_append, references, fieldParts_relabel,
    methodParts_relabel]

theorem interfaceParts_relabel (p : Place) (decl : InterfaceDecl) :
    (decl.relabel f).parts (p.relabel f) = (decl.parts p).map (relabelPart f) := by
  have name : (decl.relabel f).name = decl.name := by rw [InterfaceDecl.relabel_eq]
  simp only [InterfaceDecl.parts, name, Place.relabel_binding, Place.relabel_inInterface, Place.relabel_receiver]
  simp only [InterfaceDecl.relabel_eq, fieldParts_relabel, methodParts_relabel f _ (fun _ => .method), List.map_append]

theorem stmtParts_relabel (p : Place) (s : Stmt) :
    (s.relabel f).parts (p.relabel f) = (s.parts p).map (relabelPart f) := by
  cases s with
  | classDecl decl => exact classParts_relabel f p decl
  | interfaceDecl decl => exact interfaceParts_relabel f p decl
  | switch line value cases default =>
    simp [Stmt.relabel, Stmt.parts, Option.toList_map, relabelPart, Item.relabel, List.flatMap_map,
      List.map_flatMap, Function.comp_def]
  | _ =>
    simp [Stmt.relabel, Stmt.parts, VarDecl.parts, PropertyDecl.parts, VarDecl.relabel_eq, PropertyDecl.relabel_eq,
      FunctionDecl.relabel_eq, Option.toList_map, relabelPart, Item.relabel]

theorem bodyParts_relabel (p : Place) (ss : List Stmt) :
    bodyParts (p.relabel f) (ss.map (Stmt.relabel f)) = (bodyParts p ss).map (relabelPart f) := by
  induction ss generalizing p with
  | nil => rfl
  | cons s rest ih =>
    simp only [List.map_cons, bodyParts, Place.relabel_after, ih]
    rfl

theorem Item.parts_relabel (p : Place) (item : Item) :
    (item.relabel f).parts (p.relabel f) = (item.parts p).map (relabelPart f) := by
  cases item with
  | expr e => exact exprParts_relabel f p e
  | stmt s => exact stmtParts_relabel f p s
  | body ss => exact bodyParts_relabel f p ss
  | function role decl =>
    simp only [Item.relabel, Item.parts, Place.relabel_callee]
    simp [FunctionDecl.relabel_eq, Option.toList_map, relabelPart, Item.relabel]

end

/-! What is asked of a place. -/

section

variable {f : Reference → Reference} (name : ∀ ref, (f ref).name = ref.name)
  (depth : ∀ ref, (f ref).depth = ref.depth)

include name depth

theorem exprFits_relabel {p : Place} {e : Expr} : (e.relabel f).Fits (p.relabel f) ↔ e.Fits p := by
  cases e <;>
    simp only [Expr.relabel, Expr.Fits, Reference.LocatedIn, name, depth, Place.relabel_frames,
      Place.relabel_context]

omit name depth in
theorem stmtFits_relabel {p : Place} {s : Stmt} : (s.relabel f).Fits (p.relabel f) ↔ s.Fits p := by
  have runs : (p.relabel f).Runs ↔ p.Runs := by
    have same (l : Level) : (l.relabel f).site.runs = l.site.runs ∧ (l.relabel f).pending = l.pending := by
      cases site : l.site <;> simp [Level.relabel, Site.relabel, Site.runs, site]
    cases found : p.levels <;> simp [Place.Runs, Place.relabel, found, same]
  have plain : (∀ branch ∈ (s.relabel f).branches, branch.Plain) ↔ ∀ branch ∈ s.branches, branch.Plain := by
    simp [Stmt.relabel_branches]
  constructor
  · rintro ⟨standing, fresh, ready, proper, branches, permitted⟩
    simp only [Stmt.relabel_declares?, Stmt.relabel_loopNames, Stmt.relabel_boundNames, Place.Fresh, Place.Ready,
      Place.relabel_frames] at fresh ready proper
    exact ⟨runs.mp standing, fresh, ready, proper, plain.mp branches, (s.relabel_permitted f).mp permitted⟩
  · rintro ⟨standing, fresh, ready, proper, branches, permitted⟩
    refine ⟨runs.mpr standing, ?_, ?_, ?_, plain.mpr branches, (s.relabel_permitted f).mpr permitted⟩
    all_goals simpa [Place.Fresh, Place.Ready]

theorem Item.fits_relabel {p : Place} {item : Item} : (item.relabel f).Fits (p.relabel f) ↔ item.Fits p := by
  cases item with
  | expr e => exact exprFits_relabel name depth
  | stmt s => exact stmtFits_relabel
  | body ss => exact Iff.rfl
  | function role decl => simp [Item.relabel, Item.Fits, FunctionDecl.relabel_eq]

/-- Whether an item is well placed does not depend on the ids in it. -/
theorem wellPlaced_relabel {p : Place} {item : Item} :
    WellPlaced (p.relabel f) (item.relabel f) ↔ WellPlaced p item := by
  constructor
  · intro placed
    generalize here : p.relabel f = q at placed
    generalize changed : item.relabel f = other at placed
    induction placed generalizing p item with
    | intro fits _ ih =>
      subst here changed
      refine .intro ((Item.fits_relabel name depth).mp fits) fun q member => ih (relabelPart f q) ?_ rfl rfl
      rw [Item.parts_relabel]
      exact List.mem_map_of_mem member
  · intro placed
    induction placed with
    | intro fits _ ih =>
      refine .intro ((Item.fits_relabel name depth).mpr fits) ?_
      rw [Item.parts_relabel]
      exact List.forall_mem_map.mpr ih

end

/-- If a change of references does not touch an item, it touches none of its parts. -/
theorem Item.relabel_part {f : Reference → Reference} {item : Item} (same : item.relabel f = item) {p : Place}
    {q : Place × Item} (member : q ∈ item.parts p) : q.2.relabel f = q.2 := by
  have all : (item.parts p).map (fun q => q.2.relabel f) = (item.parts p).map Prod.snd := by
    have parts := congrArg (List.map Prod.snd) (Item.parts_relabel f p item)
    rw [same, item.parts_snd _ p] at parts
    simpa [Function.comp_def, relabelPart] using parts.symm
  exact List.map_inj_left.mp all q member

theorem Within.relabel_item {f : Reference → Reference} {root : Stmt} {p : Place} {item : Item}
    (within : Within root p item) (same : root.relabel f = root) : item.relabel f = item := by
  induction within with
  | root => exact congrArg Item.stmt same
  | part _ member ih => exact Item.relabel_part ih member

end Scoping

end Treewalk
