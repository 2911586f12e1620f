import Treewalk.Proofs.TypeNames
import Treewalk.Proofs.Words
import Treewalk.Scoping.Resolve

/-!
Places in a program. A place is described by the scopes around it, innermost first, each with the
construct that opens it and the names it has so far, and by what else surrounds it. Every part of a
program stands at the place that its surroundings give it; `WellPlaced` says that a part and all parts
of it fit the places where they stand.
-/

namespace Treewalk

def Stmt.declares? : Stmt → Option Name
  | .var decl => some decl.name
  | .property decl => some decl.name
  | .function decl => some decl.name
  | .classDecl decl => some decl.name
  | .interfaceDecl decl => some decl.name
  | .enumDecl name _ => some name
  | _ => none

def Stmt.loopNames : Stmt → List Name
  | .whileLoop _ _ _ names => names
  | _ => []

/-- The names with which a statement opens a scope of a class or of a handler. -/
def Stmt.openedNames : Stmt → List Name
  | .classDecl decl => decl.templates
  | .tryCatch _ name _ => name.toList
  | _ => []

/-- The names that a statement writes to in the scope where it runs or in one that it opens. -/
def Stmt.boundNames (s : Stmt) : List Name :=
  s.declares?.toList ++ s.loopNames ++ s.openedNames

/-- The statements of which a statement runs one, once or again and again. -/
def Stmt.branches : Stmt → List Stmt
  | .ifElse _ yes no => yes :: no.toList
  | .whileLoop _ body _ _ => [body]
  | .whenLoop _ body finish => body :: finish.toList
  | .switch _ _ cases default => cases.map Prod.snd ++ default.toList
  | .tryCatch body _ _ => [body]
  | .test _ _ body => [body]
  | _ => []

/-- A statement that may be a branch: it declares nothing, and copies nothing. -/
def Stmt.Plain (s : Stmt) : Prop :=
  s.declares? = none ∧ s.loopNames = []

/-- A loop copies at most the name that the statement before it declares. -/
def LoopsFollow : Option Name → List Stmt → Prop
  | _, [] => True
  | before, s :: rest => (∀ name ∈ s.loopNames, before = some name) ∧ LoopsFollow s.declares? rest

namespace Scoping

inductive Site where
  | block (body : List Stmt)
  | function (decl : FunctionDecl)
  | cls (decl : ClassDecl)
  | receiver (owner : Name)
  | iteration (names : List Name) (body : Stmt)
  | handler (name : Option Name) (body : List Stmt)

/-- Whether statements run in the scope itself, and not only in scopes inside it. -/
def Site.runs : Site → Bool
  | .cls _ | .receiver _ => false
  | _ => true

def declared (frame : Frame) (name : String) : Frame :=
  (frame.insert name false).insert name true

def declaredAll (frame : Frame) (names : List Name) : Frame :=
  names.foldl (fun frame name => declared frame name.text) frame

theorem contains_declared {frame : Frame} {name x : String} :
    (declared frame name).contains x = true ↔ x = name ∨ frame.contains x = true := by
  simp only [declared, NameMap.contains_insert, Bool.or_eq_true, decide_eq_true_eq]
  grind

theorem contains_reserved {frame : Frame} {name x : String} :
    (frame.insert name false).contains x = true ↔ x = name ∨ frame.contains x = true := by
  simp [NameMap.contains_insert]

theorem contains_declaredAll {frame : Frame} {names : List Name} {x : String} :
    (declaredAll frame names).contains x = true ↔
      frame.contains x = true ∨ ∃ name ∈ names, name.text = x := by
  induction names generalizing frame with
  | nil => simp [declaredAll]
  | cons name rest ih =>
    change (declaredAll (declared frame name.text) rest).contains x = true ↔ _
    rw [ih, contains_declared]
    grind

def Frame.Ordinary (frame : Frame) : Prop :=
  ∀ name, frame.contains name = true → Treewalk.Ordinary name

theorem ordinary_empty : Frame.Ordinary .empty :=
  fun _ absent => by cases absent

theorem ordinary_declaredAll {names : List Name} (ordinary : ∀ name ∈ names, Treewalk.Ordinary name.text) :
    Frame.Ordinary (declaredAll .empty names) := by
  intro x found
  rcases contains_declaredAll.mp found with absent | ⟨name, member, rfl⟩
  · cases absent
  · exact ordinary name member

def frameOf (names : List String) : Frame :=
  names.foldl (fun frame name => frame.insert name true) NameMap.empty

structure Level where
  site : Site
  frame : Frame
  /-- The name in whose declaration the place lies. -/
  pending : Option String := none

structure Place where
  levels : List Level := []
  context : Context := {}

namespace Place

def frames (p : Place) : List Frame :=
  p.levels.map Level.frame

def reserving (p : Place) (name : String) : Place :=
  { p with levels := p.levels.modifyHead fun l =>
      { l with frame := l.frame.insert name false, pending := some name } }

/-- A place inside a declaration whose name may already be mentioned. -/
def binding (p : Place) (name : String) : Place :=
  { p with levels := p.levels.modifyHead fun l =>
      { l with frame := declared l.frame name, pending := some name } }

def bound (p : Place) (name : String) : Place :=
  { p with levels := p.levels.modifyHead fun l =>
      { l with frame := declared l.frame name, pending := none } }

def after (p : Place) (s : Stmt) : Place :=
  match s.declares? with
  | some name => p.bound name.text
  | none => p

def inside (p : Place) (site : Site) (frame : Frame) : Place :=
  { p with levels := ⟨site, frame, none⟩ :: p.levels }

def inLoop (p : Place) : Place :=
  { p with context := { p.context with inLoop := true } }

def inSwitch (p : Place) : Place :=
  { p with context := { p.context with inSwitch := true } }

def inTest (p : Place) : Place :=
  { p with context := { p.context with inTest := true } }

def block (p : Place) (body : List Stmt) : Place :=
  p.inside (.block body) .empty

def loopBody (p : Place) (names : List Name) (body : Stmt) : Place :=
  match names with
  | [] => p.inLoop
  | names => p.inLoop.inside (.iteration names body) (declaredAll .empty names)

def handler (p : Place) (name : Option Name) (body : List Stmt) : Place :=
  p.inside (.handler name body) (declaredAll .empty name.toList)

def callee (p : Place) (role : FunctionRole) (decl : FunctionDecl) : Place :=
  { levels := ⟨.function decl, declaredAll .empty (decl.params.map Param.name), none⟩ :: p.levels
    context := p.context.inFunction role }

def classFrame (decl : ClassDecl) : Frame :=
  declaredAll (frameOf ["super"]) decl.templates

def classRole (decl : ClassDecl) : ClassRole :=
  if decl.superclass.isSome then .derived else .base

def cls (p : Place) (decl : ClassDecl) : Place :=
  { levels := ⟨.cls decl, classFrame decl, none⟩ :: p.levels
    context := { p.context with owner := classRole decl } }

def receiver (p : Place) (owner : Name) : Place :=
  p.inside (.receiver owner) (frameOf ["this"])

def inInterface (p : Place) : Place :=
  { p with context := { p.context with owner := .interface } }

def Runs (p : Place) : Prop :=
  ∀ l ∈ p.levels.head?, l.site.runs = true ∧ l.pending = none

def Fresh (p : Place) (name : String) : Prop :=
  ∀ frame ∈ p.frames.head?, frame.contains name = false

def Ready (p : Place) (name : String) : Prop :=
  ∃ frame ∈ p.frames.head?, frame.contains name = true

theorem frames_modifyHead (levels : List Level) (f : Level → Level) (g : Frame → Frame)
    (same : ∀ l, (f l).frame = g l.frame) :
    (levels.modifyHead f).map Level.frame = (levels.map Level.frame).modifyHead g := by
  cases levels with
  | nil => rfl
  | cons l rest => simp [same]

@[simp]
theorem reserving_frames (p : Place) (name : String) :
    (p.reserving name).frames = p.frames.modifyHead (·.insert name false) :=
  frames_modifyHead p.levels _ _ fun _ => rfl

@[simp]
theorem binding_frames (p : Place) (name : String) :
    (p.binding name).frames = p.frames.modifyHead (declared · name) :=
  frames_modifyHead p.levels _ _ fun _ => rfl

@[simp]
theorem bound_frames (p : Place) (name : String) :
    (p.bound name).frames = p.frames.modifyHead (declared · name) :=
  frames_modifyHead p.levels _ _ fun _ => rfl

end Place

inductive Item where
  | expr (e : Expr)
  | stmt (s : Stmt)
  /-- All statements that run in one scope. -/
  | body (ss : List Stmt)
  /-- A function, at the place that it closes over. -/
  | function (role : FunctionRole) (decl : FunctionDecl)

end Scoping

open Scoping

def Expr.parts (p : Place) : Expr → List (Place × Item)
  | .literal _ | .use _ | .this _ | .value _ | .super .. | .type .. => []
  | .group e | .unary _ _ e | .sizedArray _ _ e | .length _ e | .typeOf _ e | .get e _ _
  | .staticGet e _ => [(p, .expr e)]
  | .binary _ _ left right | .logical _ _ left right | .index left _ right | .cast left _ right =>
    [(p, .expr left), (p, .expr right)]
  | .ternary _ condition yes no => [(p, .expr condition), (p, .expr yes), (p, .expr no)]
  | .assign _ _ operand => operand.toList.map fun e => (p, .expr e)
  | .call callee _ args generics _ =>
    (p, .expr callee) :: (args ++ generics).map fun e => (p, .expr e)
  | .set object _ _ operand | .staticSet object _ _ operand =>
    (p, .expr object) :: operand.toList.map fun e => (p, .expr e)
  | .indexSet object _ position _ operand =>
    (p, .expr object) :: (p, .expr position) :: operand.toList.map fun e => (p, .expr e)
  | .array _ _ elements => elements.map fun e => (p, .expr e)
  | .lambda decl => [(p, .function .function decl)]

def VarDecl.parts (p : Place) (decl : VarDecl) : List (Place × Item) :=
  decl.initializer.toList.map fun e => (p, .expr e)

def PropertyDecl.parts (p : Place) (decl : PropertyDecl) : List (Place × Item) :=
  (p, .function .accessor decl.getter) ::
    decl.setter.toList.map fun setter => (p, .function .accessor setter)

/-- A field of a class: initializers at one place and accessors at another. -/
def Field.parts (p q : Place) : Field → List (Place × Item)
  | .var decl => decl.parts p
  | .property decl => decl.parts q

def referenceParts (p : Place) (refs : List Reference) : List (Place × Item) :=
  refs.map fun ref => (p, .expr (.use ref))

def ClassDecl.parts (p : Place) (decl : ClassDecl) : List (Place × Item) :=
  let q := p.binding decl.name.text
  let inside := (q.cls decl).receiver decl.name
  referenceParts q (decl.superclass.toList ++ decl.interfaces) ++
    decl.fields.flatMap (Field.parts (q.cls decl) inside) ++
    decl.methods.map fun method => (inside, .function (methodRole method.name) method)

def InterfaceDecl.parts (p : Place) (decl : InterfaceDecl) : List (Place × Item) :=
  let q := (p.binding decl.name.text).inInterface
  let inside := q.receiver decl.name
  decl.fields.flatMap (Field.parts q inside) ++
    decl.methods.map fun method => (inside, .function .method method)

def Stmt.parts (p : Place) : Stmt → List (Place × Item)
  | .expr e | .expect _ e => [(p, .expr e)]
  | .var decl => decl.parts (p.reserving decl.name.text)
  | .property decl => decl.parts (p.binding decl.name.text)
  | .function decl => [(p.binding decl.name.text, .function .function decl)]
  | .classDecl decl => decl.parts p
  | .interfaceDecl decl => decl.parts p
  | .block body => [(p.block body, .body body)]
  | .ifElse condition yes no =>
    (p, .expr condition) :: (p, .stmt yes) :: no.toList.map fun s => (p, .stmt s)
  | .whileLoop condition body increment names =>
    (p, .expr condition) :: (p.loopBody names body, .stmt body) ::
      increment.toList.map fun e => (p, .expr e)
  | .whenLoop condition body finish =>
    (p, .expr condition) :: (p.inLoop, .stmt body) :: finish.toList.map fun s => (p, .stmt s)
  | .switch _ value cases default =>
    (p, .expr value) :: (cases.flatMap fun (candidate, body) =>
      [(p.inSwitch, .expr candidate), (p.inSwitch, .stmt body)]) ++
      default.toList.map fun s => (p.inSwitch, .stmt s)
  | .tryCatch body name handler =>
    [(p, .stmt body), (p.handler name handler, .body handler)]
  | .test _ name body => [(p, .expr name), (p.inTest, .stmt body)]
  | .returning _ value => value.toList.map fun e => (p, .expr e)
  | .enumDecl .. | .breaking _ | .continuing _ | .moduleName .. => []

/-- Statements in their order, each after the declarations before it. -/
def bodyParts (p : Place) : List Stmt → List (Place × Item)
  | [] => []
  | s :: rest => (p, .stmt s) :: bodyParts (p.after s) rest

/-- The depth of a reference is that of the nearest frame with its name. -/
def Reference.LocatedIn (frames : List Frame) (ref : Reference) : Prop :=
  ref.depth = depthOf frames ref.name.text

/-- The references of an expression itself are located, what is assigned to has a proper name, `super`
stands in a class that has a superclass, and the types are denotable. -/
def Expr.Fits (p : Place) : Expr → Prop
  | .use ref | .this ref | .value ref => ref.LocatedIn p.frames
  | .super ref _ => ref.LocatedIn p.frames ∧ ref.name.text = "super" ∧ p.context.owner = .derived
  | .assign ref _ _ => ref.LocatedIn p.frames ∧ ref.name.Proper
  | .type _ t | .sizedArray _ t _ => t.Denotable
  | .array _ declared _ => ∀ t ∈ declared, t.Denotable
  | _ => True

def Stmt.Permitted (c : Context) : Stmt → Prop
  | .expect .. => c.inTest = true
  | .returning .. => c.function ≠ .none
  | .breaking _ => c.inLoop = true ∨ c.inSwitch = true
  | .continuing _ => c.inLoop = true
  | _ => True

structure Stmt.Fits (p : Place) (s : Stmt) : Prop where
  runs : p.Runs
  fresh : ∀ name ∈ s.declares?, p.Fresh name.text
  ready : ∀ name ∈ s.loopNames, p.Ready name.text
  proper : ∀ name ∈ s.boundNames, name.Proper
  plain : ∀ branch ∈ s.branches, branch.Plain
  permitted : s.Permitted p.context

namespace Scoping

def Item.parts (p : Place) : Item → List (Place × Item)
  | .expr e => e.parts p
  | .stmt s => s.parts p
  | .body ss => bodyParts p ss
  | .function role decl => decl.body.toList.map fun body => (p.callee role decl, .body body)

def Item.Fits (p : Place) : Item → Prop
  | .expr e => e.Fits p
  | .stmt s => s.Fits p
  | .body _ => True
  | .function _ decl => ∀ param ∈ decl.params, Ordinary param.name.text

/-- An item and all its parts fit their places. -/
inductive WellPlaced : Place → Item → Prop where
  | intro {p : Place} {item : Item} (fits : item.Fits p)
      (parts : ∀ q ∈ item.parts p, WellPlaced q.1 q.2) : WellPlaced p item

/-- The form that the grammar gives to an item, apart from its parts. -/
def Item.Regular : Item → Prop
  | .stmt s => (∀ branch ∈ s.branches, branch.Plain) ∧ ∀ name ∈ s.boundNames, name.Proper
  | .body ss => LoopsFollow none ss
  | .expr (.use ref) | .expr (.assign ref _ _) => ref.name.Proper
  | .expr (.super ref _) => ref.name.text = "super"
  | .expr (.type _ t) | .expr (.sizedArray _ t _) => t.Denotable
  | .expr (.array _ declared _) => ∀ t ∈ declared, t.Denotable
  | .expr _ => True
  | .function _ decl => ∀ param ∈ decl.params, Ordinary param.name.text

/-- An item and all its parts have the form that the grammar gives them. What an item has for parts does
not depend on its place. -/
inductive Formed : Item → Prop where
  | intro {item : Item} (regular : item.Regular)
      (parts : ∀ q ∈ item.parts {}, Formed q.2) : Formed item

inductive Within (root : Stmt) : Place → Item → Prop where
  | root : Within root {} (.stmt root)
  | part {p q : Place} {item part : Item} (within : Within root p item)
      (member : (q, part) ∈ item.parts p) : Within root q part

theorem WellPlaced.fits {p : Place} {item : Item} : WellPlaced p item → item.Fits p
  | .intro fits _ => fits

theorem WellPlaced.part {p : Place} {item : Item} {q : Place × Item} :
    WellPlaced p item → q ∈ item.parts p → WellPlaced q.1 q.2
  | .intro _ parts, member => parts q member

theorem WellPlaced.within {root : Stmt} {p : Place} {item : Item}
    (placed : WellPlaced {} (.stmt root)) (within : Within root p item) : WellPlaced p item := by
  induction within with
  | root => exact placed
  | part _ member ih => exact ih.part member

theorem Formed.regular {item : Item} : Formed item → item.Regular
  | .intro regular _ => regular

theorem Formed.part {item part : Item} (formed : Formed item)
    (member : part ∈ (item.parts {}).map Prod.snd) : Formed part := by
  obtain ⟨q, found, rfl⟩ := List.mem_map.mp member
  cases formed with
  | intro _ parts => exact parts q found

end Scoping

/-! What an item has for parts does not depend on its place. -/

theorem Expr.parts_snd (e : Expr) (p q : Place) : (e.parts p).map Prod.snd = (e.parts q).map Prod.snd := by
  cases e <;> simp [Expr.parts, Function.comp_def]

theorem Field.parts_snd (field : Field) (p p' q q' : Place) :
    (field.parts p p').map Prod.snd = (field.parts q q').map Prod.snd := by
  cases field <;> simp [Field.parts, VarDecl.parts, PropertyDecl.parts]

theorem Stmt.parts_snd (s : Stmt) (p q : Place) : (s.parts p).map Prod.snd = (s.parts q).map Prod.snd := by
  have fields (fields : List Field) (p p' q q' : Place) :
      (fields.flatMap (Field.parts p p')).map Prod.snd = (fields.flatMap (Field.parts q q')).map Prod.snd := by
    simp only [List.map_flatMap, Field.parts_snd _ p p' q q']
  cases s with
  | classDecl decl =>
    simp only [Stmt.parts, ClassDecl.parts, referenceParts, List.map_append, List.map_map, Function.comp_def]
    rw [fields]
  | interfaceDecl decl =>
    simp only [Stmt.parts, InterfaceDecl.parts, List.map_append, List.map_map, Function.comp_def]
    rw [fields]
  | _ => simp [Stmt.parts, VarDecl.parts, PropertyDecl.parts, List.map_flatMap, Function.comp_def]

theorem bodyParts_snd (ss : List Stmt) (p q : Place) :
    (bodyParts p ss).map Prod.snd = (bodyParts q ss).map Prod.snd := by
  induction ss generalizing p q with
  | nil => rfl
  | cons s rest ih => simp [bodyParts, ih (p.after s) (q.after s)]

theorem Scoping.Item.parts_snd (item : Item) (p q : Place) :
    (item.parts p).map Prod.snd = (item.parts q).map Prod.snd := by
  cases item with
  | expr e => exact e.parts_snd p q
  | stmt s => exact s.parts_snd p q
  | body ss => exact bodyParts_snd ss p q
  | function role decl => simp [Item.parts]

theorem Scoping.Formed.within {root : Stmt} {p : Place} {item : Item} (formed : Formed (.stmt root))
    (within : Within root p item) : Formed item := by
  induction within with
  | root => exact formed
  | @part p q item part _ member ih =>
    refine ih.part ?_
    rw [item.parts_snd {} p]
    exact List.mem_map_of_mem member

end Treewalk
