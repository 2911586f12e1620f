import Treewalk.Eval.Stmt
import Treewalk.Proofs.SafeClass

/-!
Statements, and the activities as a whole: whatever is ready to be performed has a safe plan.
-/

namespace Treewalk

open Scoping Plan

/-- The cells of some names in one scope are copies of those in another, as far as constants and modifiers
go. -/
def World.Mirrors (w : World) (scope outer : Ref .scope) (names : List Name) : Prop :=
  ∀ name ∈ names, ∀ cell, w.heap.here? scope name.text = some cell →
    ∃ old, w.heap.here? outer name.text = some old ∧ cell.modifiers = old.modifiers ∧
      (old.modifiers.const = true → cell = old)

/-- The body of a loop is not a declaration, and so the copies stay copies. -/
theorem World.Mirrors.mono {k : Permit} {w w' : World} {scope outer : Ref .scope} {names : List Name}
    (mirrors : w.Mirrors scope outer names) (leads : w.Leads k w')
    (inside : scope.index < w.heap.scopes.size) (shut : ∀ name, ¬k.Allows scope name)
    (shutOuter : ∀ name, ¬k.Allows outer name) : w'.Mirrors scope outer names := by
  intro name member cell found
  cases before : w.heap.here? scope name.text with
  | none =>
    rw [leads.grows.fresh scope name.text inside (shut _) before] at found
    cases found
  | some copy =>
    obtain ⟨old, there, same, constant⟩ := mirrors name member copy before
    obtain ⟨later, thereLater, sameLater⟩ := leads.grows.modifiers outer _ old (shutOuter _) there
    obtain ⟨held, heldThere, sameHeld⟩ := leads.grows.modifiers scope _ copy (shut _) before
    rw [found] at heldThere
    cases heldThere
    refine ⟨later, thereLater, by rw [sameHeld, same, sameLater], fun const => ?_⟩
    rw [sameLater] at const
    have kept := leads.grows.constant outer _ old there const fun ⟨_, allowed⟩ => shutOuter _ allowed
    rw [constant const] at before
    have keptCopy := leads.grows.constant scope _ old before const fun ⟨_, allowed⟩ => shut _ allowed
    rw [kept] at thereLater
    rw [keptCopy] at found
    cases found
    cases thereLater
    rfl

namespace Heap

/-- A copied name is one of those asked for, with the cell that it has in the scope. -/
theorem copies_find? {h : Heap} {r : Ref .scope} {names : List Name} {name : String} {cell : Cell}
    (found : (h.copies r names).find? name = some cell) :
    h.here? r name = some cell ∧ ∃ x ∈ names, x.text = name := by
  induction names with
  | nil => cases found
  | cons first rest ih =>
    unfold copies at found
    split at found
    · rename_i held here
      rw [NameMap.find?_insert] at found
      split at found
      · rename_i same
        cases found
        exact ⟨same ▸ here, first, by simp, same.symm⟩
      · obtain ⟨bound, x, member, same⟩ := ih found
        exact ⟨bound, x, by simp [member], same⟩
    · obtain ⟨bound, x, member, same⟩ := ih found
      exact ⟨bound, x, by simp [member], same⟩

theorem copies_isSome {h : Heap} {r : Ref .scope} {names : List Name} {name : Name}
    (member : name ∈ names) (bound : (h.here? r name.text).isSome = true) :
    ((h.copies r names).find? name.text).isSome = true := by
  induction names with
  | nil => cases member
  | cons first rest ih =>
    unfold copies
    rcases List.mem_cons.mp member with rfl | member
    · obtain ⟨cell, here⟩ := Option.isSome_iff_exists.mp bound
      simp [here]
    · split
      · rw [NameMap.find?_insert]
        split
        · rfl
        · exact ih member
      · exact ih member

end Heap

def Machine.copying (m : Machine) (names : List Name) : Machine :=
  { m with heap := (m.heap.addScope ⟨some m.scope, m.heap.copies m.scope names⟩).2 }

namespace Evaluator

variable {view : View} {k : Permit} {w : World} {m : Machine} {p : Place}

theorem copyNames_safe {source : Ref .scope} {names : List Name} (stage : Stage view k w m)
    (proper : ∀ name ∈ names, name.Proper) (mirrors : w.Mirrors source m.scope names)
    (apart : source ≠ m.scope) :
    Safe view k m.scope (fun _ _ => True) w (copyNames source m.scope names m) := by
  induction names generalizing w m with
  | nil => exact .pure stage trivial
  | cons name rest ih =>
    refine .reading ?_
    rw [← stage.heap]
    cases found : w.heap.here? source name.text with
    | none =>
      exact ih stage (fun x member => proper x (by simp [member]))
        (fun x member => mirrors x (by simp [member])) apart
    | some cell =>
      obtain ⟨old, there, same, constant⟩ := mirrors name (by simp) cell found
      obtain ⟨known, admits⟩ := stage.sound.cells source _ cell found
      have grows : w.heap.Grows k.Allows (w.heap.define m.scope name.text cell) := by
        refine .define (proper name (by simp)).ordinary.1 (.inr ⟨old, there, same⟩) fun held here const _ => ?_
        rw [there] at here
        cases here
        exact constant const
      have sound := stage.sound.define grows known admits (proper name (by simp)).ordinary
        (fun global => by rw [same]; exact stage.sound.dynamic _ old (global ▸ there))
        (.inl (by rw [there]; rfl))
      refine .update stage (.set grows rfl) sound (by rw [stage.heap]; rfl) fun stage₁ => ?_
      refine ih stage₁ (fun x member => proper x (by simp [member])) (fun x member copy copied => ?_) apart
      have before : w.heap.here? source x.text = some copy := by
        simpa [World.set, Heap.here?_define, apart.symm] using copied
      change ∃ old, (w.heap.define m.scope name.text cell).here? m.scope x.text = some old ∧ _
      rw [Heap.here?_define]
      by_cases again : x.text = name.text
      · rw [again, found] at before
        cases before
        have inside := Heap.lt_of_here? (by rw [there]; rfl : (w.heap.here? m.scope name.text).isSome = true)
        exact ⟨cell, by rw [if_pos ⟨rfl, again, inside⟩], rfl, fun _ => rfl⟩
      · rw [if_neg (fun target => again target.2.1)]
        exact mirrors x (by simp [member]) copy before

theorem single_safe {s : Stmt} (stage : Stage view k w m) (stands : At view p (.stmt s)) (plain : s.Plain)
    (placed : w.Placed view p.levels m.scope) :
    Safe view k m.scope (fun w' signal => signal.Known view w') w (stmts [s] m) := by
  refine .bind stage (.branch stage.calm stands plain placed) ?_
  intro w₁ m₁ signal stage₁ _ _ known
  cases signal with
  | normal => exact .pure stage₁ trivial
  | _ => exact .pure stage₁ known

theorem loopBody_levels {names : List Name} (some : names ≠ []) (body : Stmt) :
    (p.loopBody names body).levels =
      ⟨.iteration names body, declaredAll .empty names, none⟩ :: p.levels := by
  cases names with
  | nil => exact absurd rfl some
  | cons name rest => rfl

theorem iteration_eq (body : Stmt) (names : List Name) (m : Machine) :
    iteration body names m =
      (block ⟨m.heap.scopes.size⟩ [body] >>= fun signal =>
        copyNames ⟨m.heap.scopes.size⟩ m.scope names >>= fun _ => pure signal) (m.copying names) :=
  rfl

/-- One time round a loop, from the world on in which its scope has been opened. -/
theorem iteration_opened_safe {body : Stmt} {names : List Name} (stage : Stage view k w m)
    (some : names ≠ []) (proper : ∀ name ∈ names, name.Proper)
    (stands : At view (p.loopBody names body) (.stmt body)) (plain : body.Plain)
    (placed : w.Placed view p.levels m.scope)
    (bound : ∀ name ∈ names, (w.heap.here? m.scope name.text).isSome = true) :
    Safe view k m.scope (fun w' signal => signal.Known view w')
      (w.opened (.iteration names body) ⟨Option.some m.scope, w.heap.copies m.scope names⟩)
      (iteration body names m) := by
  let l : Scoping.Level := ⟨.iteration names body, declaredAll .empty names, none⟩
  let s : Scope := ⟨Option.some m.scope, w.heap.copies m.scope names⟩
  have ordinary : l.frame.Ordinary := ordinary_declaredAll fun name member => (proper name member).ordinary
  have has (name : String) : (s.names.find? name).isSome = true ↔ l.frame.contains name = true := by
    rw [contains_declaredAll]
    constructor
    · intro copied
      obtain ⟨cell, found⟩ := Option.isSome_iff_exists.mp copied
      exact .inr (Heap.copies_find? found).2
    · rintro (absent | ⟨x, member, rfl⟩)
      · cases absent
      · exact Heap.copies_isSome member (bound x member)
  have sound : (w.opened l.site s).Sound view :=
    stage.sound.opened rfl (fun name cell found => stage.sound.cells _ _ cell (Heap.copies_find? found).1)
      (fun name cell found => Site.serves_ordinary (ordinary name ((has name).mp (by rw [found]; rfl))))
      fun _ same => by cases same
  have inside := placed.begins.inside stage.sound
  have stage₁ : Stage view k (w.opened l.site s) (m.copying names) :=
    stage.step (World.leads_opened k w l.site s) sound (by rw [Machine.copying, ← stage.heap]; rfl)
  rw [iteration_eq, ← stage.heap]
  have grown : (w.opened l.site s).heap.scopes.size = w.heap.scopes.size + 1 := by
    simp [World.opened, Heap.addScope]
  have apart : (⟨w.heap.scopes.size⟩ : Ref .scope) ≠ m.scope := fun same =>
    absurd (congrArg Ref.index same) (Nat.ne_of_gt inside)
  have mirrors : (w.opened l.site s).Mirrors ⟨w.heap.scopes.size⟩ m.scope names := by
    intro name member cell found
    rw [World.here?_opened] at found
    refine ⟨cell, ?_, rfl, fun _ => rfl⟩
    rw [World.opened, Heap.here?_addScope, if_neg (Nat.ne_of_lt inside)]
    exact (Heap.copies_find? found).1
  refine .bind (P := fun w' signal => signal.Known view w') stage₁ (.inScope ?_) ?_
  · refine single_safe (stage₁.calm.inScope _) stands plain ?_
    rw [loopBody_levels some]
    exact ⟨World.realizes_opened stage.sound fun name found => (has name).mpr found,
      World.roomy_opened fun name found => (has name).mp found,
      fun asked => World.stands_opened stage.sound rfl (placed.around asked)
        fun name found => (has name).mpr found⟩
  · intro w₂ m₂ signal stage₂ leads₂ same₂ known
    have shut (r : Ref .scope) (old : r.index < (w.opened l.site s).heap.scopes.size) (name : String) :=
      Machine.calm_shut (stage₁.heap ▸ old) name
    have still := mirrors.mono leads₂ (by rw [grown]; exact Nat.lt_succ_self _)
      (shut _ (by rw [grown]; exact Nat.lt_succ_self _)) (shut _ (by rw [grown]; omega))
    rw [show m.scope = m₂.scope from same₂.symm] at still apart ⊢
    refine .bind stage₂ (copyNames_safe stage₂.calm proper still apart) ?_
    intro w₃ m₃ _ stage₃ leads₃ _ _
    exact .pure stage₃ (known.mono leads₃)

def resume (condition : Expr) (body : Run Signal) (increment : Option Expr) (fuel : Nat) : Signal → Run Signal
  | .breaking => return .normal
  | .normal | .continuing => do
    let _ ← option increment
    whileLoop condition body increment fuel
  | signal => return signal

theorem whileLoop_succ (condition : Expr) (body : Run Signal) (increment : Option Expr) (fuel : Nat) :
    whileLoop condition body increment (fuel + 1) = Run.eval condition >>= fun decided =>
      if decided.isTruthy then body >>= resume condition body increment fuel else return .normal :=
  rfl

theorem resume_safe {condition : Expr} {body : Run Signal} {increment : Option Expr} {fuel : Nat}
    (standsIncrement : ∀ e ∈ increment, At view p (.expr e)) (stage : Stage view k w m)
    (placed : w.Placed view p.levels m.scope) {signal : Signal} (known : signal.Known view w)
    (loop : ∀ w m, Stage view k w m → w.Placed view p.levels m.scope →
      Safe view k m.scope (fun w' signal => signal.Known view w') w (whileLoop condition body increment fuel m)) :
    Safe view k m.scope (fun w' signal => signal.Known view w') w
      (resume condition body increment fuel signal m) := by
  have goOn : Safe view k m.scope (fun w' signal => signal.Known view w') w
      ((option increment >>= fun _ => whileLoop condition body increment fuel) m) := by
    refine .bind stage (option_safe stage.calm standsIncrement placed.around) ?_
    intro w₁ m₁ _ stage₁ leads₁ same₁ _
    exact loop w₁ m₁ stage₁ (same₁ ▸ placed.calm stage leads₁)
  cases signal with
  | breaking => exact .pure stage trivial
  | normal | continuing => exact goOn
  | returning value | expecting value => exact .pure stage known

/-- A loop is safe if its body is, whenever it is run. -/
theorem whileLoop_safe {condition : Expr} {body : Run Signal} {increment : Option Expr}
    (standsCondition : At view p (.expr condition)) (standsIncrement : ∀ e ∈ increment, At view p (.expr e))
    (bodySafe : ∀ w m, Stage view m.calm w m → w.Placed view p.levels m.scope →
      Safe view m.calm m.scope (fun w' signal => signal.Known view w') w (body m))
    (fuel : Nat) (stage : Stage view k w m) (placed : w.Placed view p.levels m.scope) :
    Safe view k m.scope (fun w' signal => signal.Known view w') w
      (whileLoop condition body increment fuel m) := by
  induction fuel generalizing w m with
  | zero => exact .stop stage _
  | succ fuel ih =>
    rw [whileLoop_succ]
    refine .bind stage (.eval stage.calm standsCondition placed.around) ?_
    intro w₁ m₁ decided stage₁ leads₁ same₁ _
    have placed₁ := same₁ ▸ placed.calm stage leads₁
    refine .ite (fun _ => ?_) fun _ => .pure stage₁ trivial
    refine .bind stage₁ (bodySafe w₁ m₁ stage₁.calm placed₁) ?_
    intro w₂ m₂ signal stage₂ leads₂ same₂ known
    exact resume_safe standsIncrement stage₂ (same₂ ▸ placed₁.calm stage₁ leads₂) known fun w m => ih

theorem untilLoop_safe {condition : Expr} {body : Stmt} (standsCondition : At view p (.expr condition))
    (standsBody : At view p.inLoop (.stmt body)) (plain : body.Plain) (fuel : Nat) (stage : Stage view k w m)
    (placed : w.Placed view p.levels m.scope) :
    Safe view k m.scope (fun w' signal => signal.Known view w') w
      (untilLoop condition body fuel m) := by
  induction fuel generalizing w m with
  | zero => exact .stop stage _
  | succ fuel ih =>
    refine .bind stage (.eval stage.calm standsCondition placed.around) ?_
    intro w₁ m₁ decided stage₁ leads₁ same₁ _
    have placed₁ := same₁ ▸ placed.calm stage leads₁
    refine .ite (fun _ => .pure stage₁ trivial) fun _ => ?_
    refine .bind stage₁ (.branch stage₁.calm standsBody plain placed₁) ?_
    intro w₂ m₂ signal stage₂ leads₂ same₂ known
    have goOn := ih stage₂ (same₂ ▸ placed₁.calm stage₁ leads₂)
    cases signal with
    | breaking => exact .pure stage₂ trivial
    | normal | continuing => exact goOn
    | returning value | expecting value => exact .pure stage₂ known

theorem ready_bound {name : String} (runs : p.Runs) (begins : w.Begins p.levels m.scope)
    (ready : p.Ready name) : (w.heap.here? m.scope name).isSome = true := by
  obtain ⟨frame, first, has⟩ := ready
  cases levels : p.levels with
  | nil => simp [Place.frames, levels] at first
  | cons l rest =>
    simp only [Place.frames, levels, List.map_cons, List.head?_cons, Option.mem_def,
      Option.some.injEq] at first
    subst first
    rw [levels] at begins
    have settled := (runs l (by simp [levels])).2
    exact World.Realizes.binds begins name has (by simp [settled])

theorem iteration_safe {condition : Expr} {body : Stmt} {increment : Option Expr} {names : List Name}
    (stage : Stage view k w m) (stands : At view p (.stmt (.whileLoop condition body increment names)))
    (placed : w.Placed view p.levels m.scope) (some : names ≠ []) :
    Safe view k m.scope (fun w' signal => signal.Known view w')
      (w.opened (.iteration names body) ⟨Option.some m.scope, w.heap.copies m.scope names⟩)
      (iteration body names m) := by
  have fits := Stmt.Fits.plain stands.fits body (by simp [Stmt.branches])
  have runs : p.Runs := Stmt.Fits.runs stands.fits
  have ready := Stmt.Fits.ready stands.fits
  have proper : ∀ name ∈ names, name.Proper := by
    simpa [Stmt.boundNames, Stmt.declares?, Stmt.loopNames, Stmt.openedNames] using Stmt.Fits.proper stands.fits
  have standsBody : At view (p.loopBody names body) (.stmt body) :=
    stands.part (by simp [Item.parts, Stmt.parts])
  exact iteration_opened_safe stage some proper standsBody fits placed fun name member =>
    ready_bound runs placed.begins (ready name member)

theorem runWhile_safe {condition : Expr} {body : Stmt} {increment : Option Expr} {names : List Name}
    (stage : Stage view k w m) (stands : At view p (.stmt (.whileLoop condition body increment names)))
    (placed : w.Placed view p.levels m.scope) (fuel : Nat) :
    Safe view k m.scope (fun w' signal => signal.Known view w') w
      (runWhile fuel condition body increment names m) := by
  have standsCondition : At view p (.expr condition) := stands.part (by simp [Item.parts, Stmt.parts])
  have standsIncrement (e : Expr) (member : e ∈ increment) : At view p (.expr e) :=
    stands.part (by simp_all [Item.parts, Stmt.parts])
  refine .ite (fun none => ?_) fun some => ?_
  · obtain rfl := List.isEmpty_iff.mp none
    have fits := Stmt.Fits.plain stands.fits body (by simp [Stmt.branches])
    have standsBody : At view (p.loopBody [] body) (.stmt body) := stands.part (by simp [Item.parts, Stmt.parts])
    refine whileLoop_safe standsCondition standsIncrement (fun w m stage placed => ?_) fuel stage placed
    exact .branch stage standsBody fits placed
  · refine whileLoop_safe standsCondition standsIncrement (fun w m stage placed => ?_) fuel stage placed
    exact .after (World.leads_opened ..) (iteration_safe stage stands placed fun none => some (by simp [none]))

theorem runWhen_safe {condition : Expr} {body : Stmt} {finish : Option Stmt}
    (stage : Stage view k w m) (stands : At view p (.stmt (.whenLoop condition body finish)))
    (placed : w.Placed view p.levels m.scope) (fuel : Nat) :
    Safe view k m.scope (fun w' signal => signal.Known view w') w
      (runWhen fuel condition body finish m) := by
  have plain := Stmt.Fits.plain stands.fits
  refine .bind stage (untilLoop_safe (p := p) (stands.part (by simp [Item.parts, Stmt.parts]))
    (stands.part (by simp [Item.parts, Stmt.parts])) (plain body (by simp [Stmt.branches])) fuel stage.calm
    placed) ?_
  intro w₁ m₁ signal stage₁ leads₁ same₁ known
  cases signal with
  | normal =>
    cases finish with
    | none => exact .pure stage₁ trivial
    | some last =>
      have standsLast : At view p (.stmt last) := stands.part (by simp [Item.parts, Stmt.parts])
      exact .branch stage₁ standsLast (plain last (by simp [Stmt.branches]))
        (same₁ ▸ placed.calm stage leads₁)
  | _ => exact .pure stage₁ known

theorem selectCase_safe {value : Value} {default : Option Stmt} {cases : List (Expr × Stmt)}
    (stage : Stage view k w m) (known : w.Known view value)
    (stands : ∀ c ∈ cases, At view p (.expr c.1)) (around : view.strict → w.Stands p.levels m.scope) (line : Line) :
    Safe view k m.scope (fun _ chosen => ∀ s ∈ chosen, s ∈ cases.map Prod.snd ∨ s ∈ default) w
      (selectCase line value default cases m) := by
  induction cases generalizing k w m with
  | nil => exact .pure stage (by simp)
  | cons first rest ih =>
    obtain ⟨candidate, body⟩ := first
    refine .bind stage (.eval stage.calm (stands (candidate, body) (by simp)) around) ?_
    intro w₁ m₁ other stage₁ leads₁ same₁ knownOther
    refine .bind stage₁ (operation_safe stage₁.calm .equal _ line (known.mono leads₁) knownOther) ?_
    intro w₂ m₂ equal stage₂ leads₂ same₂ _
    refine .ite (fun _ => .pure stage₂ (by simp)) fun _ => ?_
    refine (ih stage₂ ((known.mono leads₁).mono leads₂) (fun c member => stands c (by simp [member]))
      fun asked => ?_).weaken fun _ chosen found s member => ?_
    · rw [same₂, same₁]
      exact ((around asked).mono leads₁).mono leads₂
    · rcases found s member with later | last
      · exact .inl (by simp_all)
      · exact .inr last

theorem mem_switchParts (line : Line) {value : Expr} {cases : List (Expr × Stmt)} {default : Option Stmt}
    {body : Stmt} (listed : body ∈ cases.map Prod.snd ∨ body ∈ default) :
    (p.inSwitch, Item.stmt body) ∈ Stmt.parts p (.switch line value cases default) := by
  rcases listed with chosen | last
  · obtain ⟨c, member, rfl⟩ := List.mem_map.mp chosen
    refine List.mem_append_left _ (List.mem_cons_of_mem _ (List.mem_flatMap.mpr ⟨c, member, ?_⟩))
    simp
  · refine List.mem_append_right _ (List.mem_map.mpr ⟨body, ?_, rfl⟩)
    simpa using last

theorem runSwitch_safe {line : Line} {value : Expr} {cases : List (Expr × Stmt)} {default : Option Stmt}
    (stage : Stage view k w m) (stands : At view p (.stmt (.switch line value cases default)))
    (placed : w.Placed view p.levels m.scope) :
    Safe view k m.scope (fun w' signal => signal.Known view w') w
      (runSwitch line value cases default m) := by
  have plain := Stmt.Fits.plain stands.fits
  refine .bind stage (.eval (p := p) stage.calm (stands.part (by simp [Item.parts, Stmt.parts]))
    placed.around) ?_
  intro w₁ m₁ chosen stage₁ leads₁ same₁ known
  have placed₁ := same₁ ▸ placed.calm stage leads₁
  refine .bind stage₁ (selectCase_safe (p := p.inSwitch) stage₁.calm known (fun c member => stands.part ?_)
    placed₁.around line) ?_
  · refine List.mem_append_left _ (List.mem_cons_of_mem _ (List.mem_flatMap.mpr ⟨c, member, ?_⟩))
    simp
  · intro w₂ m₂ body stage₂ leads₂ same₂ found
    cases body with
    | none => exact .pure stage₂ trivial
    | some body =>
      have listed := found body rfl
      have standsBody : At view p.inSwitch (.stmt body) := stands.part (mem_switchParts line listed)
      refine .bind stage₂ (.branch stage₂.calm standsBody (plain body ?_)
        (same₂ ▸ placed₁.calm stage₁ leads₂)) ?_
      · simpa [Stmt.branches] using listed
      · intro w₃ m₃ signal stage₃ _ _ knownSignal
        cases signal with
        | breaking => exact .pure stage₃ trivial
        | _ => exact .pure stage₃ knownSignal

theorem handle_safe {name : Option Name} {handler : List Stmt} (stage : Stage view k w m)
    (stands : At view (p.handler name handler) (.body handler)) (proper : ∀ x ∈ name, x.Proper)
    (around : view.strict → w.Stands p.levels m.scope) (e : RuntimeError) :
    Safe view k m.scope (fun w' signal => signal.Known view w') w (handle name handler e m) := by
  have ordinary : Frame.Ordinary (declaredAll .empty name.toList) :=
    ordinary_declaredAll fun x member => (proper x (by simpa using member)).ordinary
  refine .currentScope (block_safe stage stands rfl (fun x cell found => ?_) ordinary
    (fun _ other => by cases other) (fun x => ?_) around)
  · cases name with
    | none => cases found
    | some name =>
      rw [NameMap.find?_insert] at found
      split at found
      · cases found
        exact ⟨trivial, Heap.admits_free _ rfl rfl rfl⟩
      · cases found
  · rw [contains_declaredAll]
    cases name with
    | none => simp
    | some name =>
      simp only [NameMap.find?_insert, NameMap.find?_empty, NameMap.contains_empty, Option.toList_some]
      grind

theorem passes_safe (stage : Stage view k w m) (line : Line) (signal : Signal) :
    Safe view k m.scope (fun _ _ => True) w (passes line signal m) := by
  cases signal with
  | returning value => exact .raise stage line _
  | _ => exact .pure stage trivial

theorem runTest_safe {line : Line} {name : Expr} {body : Stmt} (stage : Stage view k w m)
    (stands : At view p (.stmt (.test line name body))) (placed : w.Placed view p.levels m.scope) :
    Safe view k m.scope (fun w' signal => signal.Known view w') w (runTest line name body m) := by
  have plain := Stmt.Fits.plain stands.fits body (by simp [Stmt.branches])
  refine .bind stage (.eval (p := p) stage.calm (stands.part (by simp [Item.parts, Stmt.parts]))
    placed.around) ?_
  intro w₁ m₁ title stage₁ leads₁ same₁ _
  cases title with
  | str title =>
    have standsBody : At view p.inTest (.stmt body) := stands.part (by simp [Item.parts, Stmt.parts])
    refine .bind stage₁ (.branch stage₁.calm standsBody plain (same₁ ▸ placed.calm stage leads₁)) ?_
    intro w₂ m₂ signal stage₂ _ _ _
    refine .bind stage₂ (passes_safe stage₂.calm line signal) ?_
    intro w₃ m₃ passed stage₃ _ _ _
    exact .quietly stage₃ (Run.printOut_quiet _) fun _ _ _ _ stage₄ => .pure stage₄ trivial
  | _ => exact .raise stage₁ line _

theorem declares {s : Stmt} {name : Name} {declare : Run Unit} (found : s.declares? = some name)
    (stage : Stage view k w m) (safe : Safe view k m.scope
      (fun w' _ => (w'.heap.here? m.scope name.text).isSome = true) w (declare m)) :
    Safe view k m.scope ((Activity.stmt s).Good view m.scope) w
      ((declare >>= fun _ => pure Signal.normal) m) := by
  refine .bindWith stage (.refl k) safe fun w₁ m₁ _ stage₁ _ same₁ bound => .pure stage₁ ⟨trivial, ?_⟩
  intro declared member
  rw [found] at member
  cases member
  exact bound

theorem undeclaring {s : Stmt} {c : Run Signal} (none : s.declares? = none)
    (safe : Safe view k m.scope (fun w' signal => signal.Known view w') w (c m)) :
    Safe view k m.scope ((Activity.stmt s).Good view m.scope) w (c m) :=
  safe.weaken fun _ _ known => ⟨known, by simp [none]⟩

theorem evalStmt_safe {s : Stmt} (fuel : Nat) (stage : Stage view k w m) (stands : At view p (.stmt s))
    (placed : w.Placed view p.levels m.scope)
    (allows : ∀ name ∈ s.declares?, k.Allows m.scope name.text) :
    Safe view k m.scope ((Activity.stmt s).Good view m.scope) w (evalStmt fuel s m) := by
  have fits : s.Fits p := stands.fits
  have open' (name : Name) (found : s.declares? = some name) : Declarable k w m.scope name.text :=
    declarable stage stands placed (allows name found) (fits.fresh name found)
      (fits.proper name (by simp [Stmt.boundNames, found])).ordinary
  have around := placed.around
  have here {part : Expr} (member : (p, Item.expr part) ∈ s.parts p) : At view p (.expr part) :=
    stands.part member
  cases s with
  | expr e =>
    refine undeclaring rfl (.bind stage (.eval stage.calm (here (by simp [Stmt.parts])) around) ?_)
    exact fun _ _ _ stage₁ _ _ _ => .pure stage₁ trivial
  | var decl => exact declares rfl stage (declareVariable_safe stage stands (open' _ rfl) around)
  | property decl => exact declares rfl stage (declareProperty_safe stage stands (open' _ rfl) around)
  | function decl => exact declares rfl stage (declareFunction_safe stage stands (open' _ rfl) around)
  | classDecl decl => exact declares rfl stage (declareClass_safe stage stands (open' _ rfl) around)
  | interfaceDecl decl => exact declares rfl stage (declareInterface_safe stage stands (open' _ rfl) around)
  | enumDecl name elements => exact declares rfl stage (declareEnum_safe stage (open' _ rfl) elements)
  | block body =>
    have inner : At view (p.block body) (.body body) := stands.part (by simp [Item.parts, Stmt.parts])
    exact undeclaring rfl (.currentScope (block_safe stage inner rfl (fun _ _ absent => by cases absent)
      ordinary_empty (fun _ other => by cases other) (fun _ => .rfl) around))
  | ifElse condition yes no =>
    refine undeclaring rfl (.bind stage (.eval stage.calm (here (by simp [Stmt.parts])) around) ?_)
    intro w₁ m₁ decided stage₁ leads₁ same₁ _
    have placed₁ := same₁ ▸ placed.calm stage leads₁
    have standsYes : At view p (.stmt yes) := stands.part (by simp [Item.parts, Stmt.parts])
    refine .ite (fun _ => .branch stage₁ standsYes (fits.plain yes (by simp [Stmt.branches])) placed₁)
      fun _ => ?_
    cases no with
    | none => exact .pure stage₁ trivial
    | some no =>
      have standsNo : At view p (.stmt no) := stands.part (by simp [Item.parts, Stmt.parts])
      exact .branch stage₁ standsNo (fits.plain no (by simp [Stmt.branches])) placed₁
  | whileLoop condition body increment names =>
    exact undeclaring rfl (runWhile_safe stage stands placed fuel)
  | whenLoop condition body finish => exact undeclaring rfl (runWhen_safe stage stands placed fuel)
  | switch line value cases default => exact undeclaring rfl (runSwitch_safe stage stands placed)
  | tryCatch body name handler =>
    have standsBody : At view p (.stmt body) := stands.part (by simp [Item.parts, Stmt.parts])
    have standsHandler : At view (p.handler name handler) (.body handler) :=
      stands.part (by simp [Item.parts, Stmt.parts])
    have proper : ∀ x ∈ name, x.Proper := fun x member =>
      fits.proper x (by simp [Stmt.boundNames, Stmt.openedNames, Option.mem_def.mp member])
    refine undeclaring rfl (.catching stage
      (.branch stage.calm standsBody (fits.plain body (by simp [Stmt.branches])) placed) ?_)
    intro e w₁ m₁ stage₁ leads₁ same₁
    exact handle_safe stage₁ standsHandler proper (same₁ ▸ (placed.calm stage leads₁).around) e
  | test line name body => exact undeclaring rfl (runTest_safe stage stands placed)
  | expect line value =>
    refine undeclaring rfl (.bind stage (.eval stage.calm (here (by simp [Stmt.parts])) around) ?_)
    exact fun _ _ _ stage₁ _ _ known => .pure stage₁ known
  | returning line value =>
    refine undeclaring rfl (.bind stage (option_safe stage.calm
      (fun e member => here (by simp_all [Stmt.parts])) around) ?_)
    exact fun _ _ _ stage₁ _ _ known => .pure stage₁ (getD_known known.2)
  | breaking line | continuing line => exact undeclaring rfl (.pure stage trivial)
  | moduleName => exact undeclaring rfl (.pure stage trivial)

end Evaluator

theorem World.Awaits.closed {view : View} {w : World} {f : Function} (awaits : w.Awaits view f)
    (lax : ¬view.strict) : w.Closed view f := by
  unfold Awaits at awaits
  unfold Closed
  split
  · rename_i body closure found
    rw [found] at awaits
    obtain ⟨p, role, decl, -, -, stands, same, params, -, -⟩ := awaits
    exact ⟨p, role, decl, stands, same, params, fun asked => absurd asked lax⟩
  · rename_i found
    rw [found] at awaits
    exact fun _ => awaits
  · trivial

/-- Every callable function can be called, if only those need all the scopes of their place that have
them. -/
theorem World.Callable.closed {view : View} {w : World} {f : Function} (callable : w.Callable view f)
    (sound : w.Sound view) (bound : view.strict → ¬w.heap.Unbound f) : w.Closed view f := by
  rcases callable with closed | ⟨c, name, cell, p, member, own, computed, which⟩
  · exact closed
  · by_cases asked : view.strict
    · exact absurd ⟨c, name, cell, p, member, own, computed, which⟩ (bound asked)
    · have known := (sound.classes c (Heap.lt_of_classField member)).fields _ member
      unfold FieldKnown CellKnown at known
      simp only [own, Bool.false_eq_true, if_false, computed] at known
      obtain ⟨-, -, getter, setter⟩ := known
      rcases which with rfl | ⟨f, listed, rfl⟩
      · exact getter.2.closed asked
      · exact (setter f listed).2.closed asked

open Evaluator in
/-- What is ready to be performed has a safe plan. -/
theorem Activity.plan_safe {view : View} {w : World} {m : Machine} (a : Activity) (fuel : Nat)
    (sound : w.Sound view) (heap : w.heap = m.heap) (ready : a.Ready view w m)
    (bound : view.strict → ∀ f args generics line, a = .call f args generics line → ¬w.heap.Unbound f) :
    Safe view (a.permit m) m.scope (a.Good view m.scope) w (a.plan fuel m) := by
  have stage : Stage view (a.permit m) w m := ⟨sound, heap, Nat.le_refl _⟩
  cases a with
  | expr e =>
    obtain ⟨p, stands, around⟩ := ready
    exact evalExpr_safe stage stands around
  | stmt s =>
    obtain ⟨p, stands, placed⟩ := ready
    refine evalStmt_safe fuel stage stands placed fun name found => .inr ?_
    simp [permit, declares?, Option.mem_def.mp found]
  | call f args generics line =>
    obtain ⟨callable, known, -⟩ := ready
    exact callFunction_safe stage (callable.closed sound fun asked => bound asked f args generics line rfl)
      known line
  | text value => exact textOf_safe stage ready

end Treewalk
