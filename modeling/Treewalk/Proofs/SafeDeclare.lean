import Treewalk.Eval.Declare
import Treewalk.Proofs.SafeExpr

/-!
Declarations. A name is declared in the current scope, where nothing constant has it: a scope inside
others does not have the name at all before its declaration begins.
-/

namespace Treewalk

open Scoping Plan

structure Declarable (k : Permit) (w : World) (scope : Ref .scope) (name : String) : Prop where
  allows : k.Allows scope name
  inside : scope.index < w.heap.scopes.size
  plain : ∀ decl, w.siteOf? scope ≠ some (.cls decl)
  free : scope = .globals ∨ ∀ old, w.heap.here? scope name = some old → old.modifiers.const = false
  named : Ordinary name

namespace Declarable

variable {view : View} {k k' : Permit} {w w' : World} {m : Machine} {scope : Ref .scope} {name : String}

theorem mono (open' : Declarable k w scope name) (sound : w.Sound view) (leads : w.Leads k' w')
    (shut : ¬k'.Allows scope name) : Declarable k w' scope name where
  allows := open'.allows
  inside := Nat.lt_of_lt_of_le open'.inside leads.size
  plain decl found := by
    have inside : scope.index < w.sites.length := by
      rw [sound.sites]
      exact open'.inside
    have old := List.getElem?_eq_getElem inside
    have same := (leads.sites scope _ old).symm.trans found
    exact open'.plain decl (old.trans same)
  free := by
    refine open'.free.imp id fun free held found => ?_
    cases before : w.heap.here? scope name with
    | none =>
      rw [leads.grows.fresh scope name open'.inside shut before] at found
      cases found
    | some old =>
      obtain ⟨later, there, same⟩ := leads.grows.modifiers scope name old shut before
      rw [found] at there
      cases there
      rw [same]
      exact free old before
  named := open'.named

/-- What runs quietly in the current scope leaves the name open. -/
theorem calm (open' : Declarable k w scope name) (stage : Stage view k w m) (leads : w.Leads m.calm w') :
    Declarable k w' scope name :=
  open'.mono stage.sound leads (Machine.calm_shut (stage.heap ▸ open'.inside) name)

theorem grows (open' : Declarable k w scope name) (cell : Cell) :
    w.heap.Grows k.Allows (w.heap.define scope name cell) := by
  refine .define open'.named.1 (.inl open'.allows) fun old found constant shut => ?_
  rcases open'.free with global | free
  · exact absurd ⟨global, open'.allows⟩ shut
  · rw [free old found] at constant
    cases constant

theorem sound (open' : Declarable k w scope name) (sound : w.Sound view) {cell : Cell}
    (known : w.CellKnown view (w.Closed view) cell) (admits : w.heap.Admits cell)
    (dynamic : scope = .globals → cell.modifiers.static = false) :
    (w.set (w.heap.define scope name cell)).Sound view :=
  sound.define (open'.grows cell) known admits open'.named dynamic (.inr open'.plain)

theorem bound (open' : Declarable k w scope name) (cell : Cell) :
    (w.set (w.heap.define scope name cell)).heap.here? scope name = some cell := by
  rw [World.set, Heap.here?_define, if_pos ⟨rfl, rfl, open'.inside⟩]

/-- A name that has been declared as a variable may be declared over. -/
theorem again (open' : Declarable k w scope name) {cell : Cell} (plain : cell.modifiers.const = false) :
    Declarable k (w.set (w.heap.define scope name cell)) scope name where
  allows := open'.allows
  inside := by simpa [World.set, Heap.define] using open'.inside
  plain := open'.plain
  free := by
    refine .inr fun old found => ?_
    rw [open'.bound cell] at found
    cases found
    exact plain
  named := open'.named

end Declarable

namespace Evaluator

variable {view : View} {k : Permit} {w : World} {m : Machine} {p : Place} {name : String}

/-- A name may be declared where its declaration stands. -/
theorem declarable {s : Stmt} (stage : Stage view k w m) (stands : At view p (.stmt s))
    (placed : w.Placed view p.levels m.scope) (allows : k.Allows m.scope name) (fresh : p.Fresh name)
    (named : Ordinary name) :
    Declarable k w m.scope name := by
  obtain ⟨begins, roomy, -⟩ := placed
  have runs : p.Runs := Stmt.Fits.runs stands.fits
  cases levels : p.levels with
  | nil =>
    rw [levels] at begins
    have global : m.scope = .globals := begins
    refine ⟨allows, ?_, ?_, .inl global, named⟩
    · rw [global]
      exact stage.sound.globals
    · rw [global]
      exact stage.sound.outside
  | cons l rest =>
    rw [levels] at begins roomy
    have real : w.Realizes l m.scope := begins
    refine ⟨allows, stage.sound.inside real.site, fun decl found => ?_, .inr fun old found => ?_, named⟩
    · have opens := (runs l (by simp [levels])).1
      rw [Option.some.inj (real.site.symm.trans found)] at opens
      cases opens
    · have has := roomy l rfl name (by rw [found]; rfl)
      rw [fresh l.frame (by simp [Place.frames, levels])] at has
      cases has

theorem define_safe {cell : Cell} (stage : Stage view k w m) (open' : Declarable k w m.scope name)
    (known : w.CellKnown view (w.Closed view) cell) (admits : w.heap.Admits cell)
    (dynamic : m.scope = .globals → cell.modifiers.static = false) :
    Safe view k m.scope (fun w' _ => (w'.heap.here? m.scope name).isSome = true) w
      (Run.update (·.define m.scope name cell) m) := by
  refine .updated (.set (open'.grows cell) rfl) (open'.sound stage.sound known admits dynamic) ?_ ?_
  · rw [stage.heap]
    rfl
  · rw [open'.bound cell]
    rfl

theorem defineChecked_safe {name : Name} {cell : Cell} (stage : Stage view k w m)
    (open' : Declarable k w m.scope name.text) (known : w.CellKnown view (w.Closed view) cell)
    (admits : w.heap.Admits cell) :
    Safe view k m.scope (fun w' _ => (w'.heap.here? m.scope name.text).isSome = true) w
      (defineChecked name cell m) := by
  refine .inGlobalScope (.demand stage name.line _ fun checked => .currentScope ?_)
  refine define_safe stage open' known admits fun global => ?_
  have outermost : m.heap.isGlobal m.scope = true := by
    rw [← stage.heap, global, Heap.isGlobal, stage.sound.outermost]
    rfl
  simpa [outermost] using checked

theorem initialValue_safe {decl : VarDecl} (stage : Stage view k w m)
    (stands : ∀ e ∈ decl.initializer, At view p (.expr e)) (around : view.strict → w.Stands p.levels m.scope)
    (scope : Ref .scope) :
    Safe view k m.scope (fun w' made => w'.Known view made.1 ∧ w'.heap.Admits
      { content := .plain made.1, modifiers := decl.modifiers, declared := made.2 }) w
      (initialValue decl scope m) := by
  refine .bind stage (option_safe stage.calm stands around) ?_
  rintro w₁ m₁ value stage₁ - - ⟨-, known⟩
  refine .heap ?_
  cases value with
  | none => exact .pure stage₁ ⟨trivial, Heap.admits_nil _ _ _⟩
  | some value =>
    refine .orRaise stage₁ _ fun _ typed => .orRaise stage₁ _ fun _ ranged => .pure stage₁ ?_
    rw [← stage₁.heap] at typed ⊢
    refine ⟨known value rfl, ?_⟩
    exact Heap.admits_of_checks typed ranged

theorem declareVariable_safe {decl : VarDecl} (stage : Stage view k w m) (stands : At view p (.stmt (.var decl)))
    (open' : Declarable k w m.scope decl.name.text) (around : view.strict → w.Stands p.levels m.scope) :
    Safe view k m.scope (fun w' _ => (w'.heap.here? m.scope decl.name.text).isSome = true) w
      (declareVariable decl m) := by
  have runs : p.Runs := Stmt.Fits.runs stands.fits
  refine .currentScope (.bind stage (initialValue_safe stage.calm (fun e member => stands.part ?_)
    (fun asked => (around asked).reserving runs decl.name.text) m.scope) ?_)
  · simp_all [Item.parts, Stmt.parts, VarDecl.parts]
  · rintro w₁ m₁ ⟨value, declared⟩ stage₁ leads₁ same₁ ⟨known, admits⟩
    rw [← same₁] at open' ⊢
    exact defineChecked_safe stage₁ (open'.calm stage leads₁) known admits

theorem addFunction_is {ready : World → Function → Prop} (w : World) (f : Function)
    (held : ready (w.set (w.heap.addFunction f).2) f) :
    (w.set (w.heap.addFunction f).2).FunctionIs (ready (w.set (w.heap.addFunction f).2))
      ⟨w.heap.functions.size⟩ := by
  refine ⟨by simp [World.set, Heap.addFunction], ?_⟩
  rw [World.set, Heap.function_addFunction, if_pos rfl]
  exact held

theorem made_safe {ready : World → Function → Prop}
    (still : World.Lasting ready) {f : Function}
    (rooted : f.Rooted view) (stage : Stage view k w m) (held : ready w f) :
    Safe view k m.scope (fun w' r => w'.FunctionIs (ready w') r) w
      (Run.allocate (·.addFunction f) m) := by
  have leads : w.Leads k (w.set (w.heap.addFunction f).2) := .set (.addFunction _ _ f) rfl
  refine .allocated leads (stage.sound.addFunction rooted) (by rw [stage.heap]; rfl) ?_
  rw [← stage.heap]
  exact addFunction_is w f (still _ _ _ f leads held)

theorem declaredProperty_safe {ready : World → Function → Prop}
    (still : World.Lasting ready) (rooted : ∀ w f, ready w f → f.Rooted view) {decl : PropertyDecl}
    {closure : Ref .scope} (stage : Stage view k w m)
    (getter : ready w (.ofDecl decl.getter closure false))
    (setter : ∀ f ∈ decl.setter, ready w (.ofDecl f closure false)) (declared : TypeDesc) :
    Safe view k m.scope (fun w' made => w'.FunctionIs (ready w') made.getter ∧
      (∀ f ∈ made.setter, w'.FunctionIs (ready w') f) ∧ made.cache = .nil) w
      (declaredProperty decl closure declared m) := by
  refine .bind stage (made_safe still (rooted _ _ getter) stage.calm getter) ?_
  intro w₁ m₁ get stage₁ leads₁ _ getReady
  refine .bind (P := fun w' (made : Option (Ref .function)) => ∀ f ∈ made, w'.FunctionIs (ready w') f)
    stage₁ (.mapM stage₁.calm (by simp) fun f member => ?_) ?_
  · exact (made_safe still (rooted _ _ (setter f member)) stage₁.calm
      (still _ _ _ _ leads₁ (setter f member))).weaken (by simp)
  · intro w₂ m₂ set stage₂ leads₂ _ setReady
    exact .pure stage₂ ⟨getReady.mono leads₂ fun f => still _ _ _ f leads₂, setReady, rfl⟩

theorem declaredCell_safe {ready : World → Function → Prop}
    (still : World.Lasting ready) (rooted : ∀ w f, ready w f → f.Rooted view) {decl : PropertyDecl}
    {closure : Ref .scope} (stage : Stage view k w m)
    (getter : ready w (.ofDecl decl.getter closure false))
    (setter : ∀ f ∈ decl.setter, ready w (.ofDecl f closure false)) (declared : TypeDesc) :
    Safe view k m.scope (fun w' cell => w'.CellKnown view (ready w') cell ∧
      ∃ p, cell.content = .computed p) w ((declaredProperty decl closure declared >>= propertyCell) m) := by
  refine .bind stage (declaredProperty_safe still rooted stage.calm getter setter declared) ?_
  rintro w₁ m₁ made stage₁ leads₁ - ⟨getReady, setReady, cache⟩
  refine (propertyCell_safe still stage₁ getReady setReady (by rw [cache]; trivial)).weaken ?_
  exact fun w₂ cell held => ⟨held.1, held.2.2.1⟩

theorem admits_computed (h : Heap) {cell : Cell} {q : Ref .property} (computed : cell.content = .computed q) :
    h.Admits cell := by
  intro value plain
  rw [computed] at plain
  cases plain

theorem mem_propertyParts {q : Place} {decl : PropertyDecl} {f : FunctionDecl}
    (member : f = decl.getter ∨ f ∈ decl.setter) :
    (q, Item.function .accessor f) ∈ decl.parts q := by
  rcases member with rfl | member
  · simp [PropertyDecl.parts]
  · simp_all [PropertyDecl.parts]

theorem declareProperty_safe {decl : PropertyDecl} (stage : Stage view k w m)
    (stands : At view p (.stmt (.property decl))) (open' : Declarable k w m.scope decl.name.text)
    (around : view.strict → w.Stands p.levels m.scope) :
    Safe view k m.scope (fun w' _ => (w'.heap.here? m.scope decl.name.text).isSome = true) w
      (declareProperty decl m) := by
  have runs : p.Runs := Stmt.Fits.runs stands.fits
  have within (asked : view.strict) := (around asked).binding runs decl.name.text
  have accessor (f : FunctionDecl) (member : f = decl.getter ∨ f ∈ decl.setter) :
      At view (p.binding decl.name.text) (.function .accessor f) :=
    stands.part (mem_propertyParts member)
  refine .currentScope (.bind stage (.reading (declaredCell_safe (World.closed_lasting view)
    (fun _ _ => World.Closed.rooted) stage.calm ?_ ?_ _)) ?_)
  · exact World.closed_ofDecl (accessor decl.getter (.inl rfl)) within false
  · exact fun f member => World.closed_ofDecl (accessor f (.inr member)) within false
  · rintro w₁ m₁ cell stage₁ leads₁ same₁ ⟨known, q, computed⟩
    rw [← same₁] at open' ⊢
    exact defineChecked_safe stage₁ (open'.calm stage leads₁) known (admits_computed _ computed)

theorem declareFunction_safe {decl : FunctionDecl} (stage : Stage view k w m)
    (stands : At view p (.stmt (.function decl))) (open' : Declarable k w m.scope decl.name.text)
    (around : view.strict → w.Stands p.levels m.scope) :
    Safe view k m.scope (fun w' _ => (w'.heap.here? m.scope decl.name.text).isSome = true) w
      (declareFunction decl m) := by
  have runs : p.Runs := Stmt.Fits.runs stands.fits
  have inner : At view (p.binding decl.name.text) (.function .function decl) :=
    stands.part (by simp [Item.parts, Stmt.parts])
  have closed := World.closed_ofDecl inner
    (fun asked : view.strict => (around asked).binding runs decl.name.text) false
  refine .currentScope (.bind stage (made_safe (World.closed_lasting view)
    closed.rooted stage.calm closed) ?_)
  intro w₁ m₁ f stage₁ leads₁ same₁ known
  rw [← same₁] at open' ⊢
  refine defineChecked_safe stage₁ (open'.calm stage leads₁) known (Heap.admits_untyped _ rfl ?_)
  intro value same n number
  cases same
  cases number

theorem declareEnum_safe (stage : Stage view k w m) {name : Name}
    (open' : Declarable k w m.scope name.text) (elements : List Name) :
    Safe view k m.scope (fun w' _ => (w'.heap.here? m.scope name.text).isSome = true) w
      (declareEnum name elements m) := by
  let made : Enumeration := ⟨name.text, elements.map Name.text⟩
  have leads (k : Permit) : w.Leads k (w.set (w.heap.addEnumeration made).2) :=
    .set (.addEnumeration _ _ made) rfl
  refine .allocate stage (leads k) (stage.sound.addEnumeration made) (by rw [stage.heap]; rfl) ?_
  intro stage₁
  refine .currentScope (define_safe stage₁ (open'.calm stage (leads m.calm)) ?_ ?_ fun _ => rfl)
  · rw [← stage.heap]
    simp [World.CellKnown, World.Known, World.set, Heap.addEnumeration]
  · exact Heap.admits_free _ rfl rfl rfl

end Evaluator

end Treewalk
