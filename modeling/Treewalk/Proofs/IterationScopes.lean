import Treewalk.Proofs.Assigned
import Treewalk.Proofs.Chains
import Treewalk.Proofs.SuperAccess
import Treewalk.Proofs.Tasks

/-!
The scopes of the rounds of a loop. The names that the loop copies are there from the start, and the statements that
run in the scope itself are the body of the loop and branches of it, which declare nothing. So code inside the scope
finds these names there or further in, and their variables change by assignments only.
-/

namespace Treewalk

open Scoping

/-! Places in the body of a loop. -/

namespace Scoping

/-- The level of a round has the names that the loop copies. -/
def Level.HasCopies (l : Level) : Prop :=
  ∀ names body, l.site = .iteration names body → ∀ name ∈ names, l.frame.contains name.text = true

def Place.HasCopies (p : Place) : Prop :=
  ∀ l ∈ p.levels, l.HasCopies

def Place.InRound (p : Place) : Prop :=
  ∃ l ∈ p.levels.head?, ∃ names body, l.site = .iteration names body

/-- Right in the scope of a round there are only statements that declare nothing. -/
def Item.Housed (p : Place) : Item → Prop
  | .stmt s => p.InRound → s.Plain
  | .body _ => ¬p.InRound
  | _ => True

namespace Place.HasCopies

variable {p : Place} (copies : p.HasCopies)

include copies

theorem inside {site : Site} (frame : Frame) (other : ∀ names body, site ≠ .iteration names body) :
    (p.inside site frame).HasCopies := by
  intro l member
  rcases List.mem_cons.mp member with rfl | member
  · exact fun names body same => absurd same (other names body)
  · exact copies l member

theorem modifyHead {f : Level → Level} (keeps : ∀ l : Level, l.HasCopies → (f l).HasCopies) :
    HasCopies { p with levels := p.levels.modifyHead f } := by
  intro l member
  cases levels : p.levels with
  | nil => simp [levels] at member
  | cons first rest =>
    simp only [levels, List.modifyHead_cons, List.mem_cons] at member
    rcases member with rfl | member
    · exact keeps first (copies first (by simp [levels]))
    · exact copies l (by simp [levels, member])

theorem reserving (name : String) : (p.reserving name).HasCopies :=
  copies.modifyHead fun _ has names body same x member => contains_reserved.mpr (.inr (has names body same x member))

theorem binding (name : String) : (p.binding name).HasCopies :=
  copies.modifyHead fun _ has names body same x member => contains_declared.mpr (.inr (has names body same x member))

theorem bound (name : String) : (p.bound name).HasCopies :=
  copies.modifyHead fun _ has names body same x member => contains_declared.mpr (.inr (has names body same x member))

theorem after (s : Stmt) : (p.after s).HasCopies := by
  unfold Place.after
  split
  · exact copies.bound _
  · exact copies

theorem loopBody (names : List Name) (body : Stmt) : (p.loopBody names body).HasCopies := by
  cases names with
  | nil => exact copies
  | cons first rest =>
    intro l member
    rcases List.mem_cons.mp member with rfl | member
    · intro names body same name copied
      cases same
      exact contains_declaredAll.mpr (.inr ⟨name, copied, rfl⟩)
    · exact copies l member

theorem callee (role : FunctionRole) (decl : FunctionDecl) : (p.callee role decl).HasCopies :=
  copies.inside _ fun _ _ same => by cases same

theorem cls (decl : ClassDecl) : (p.cls decl).HasCopies :=
  copies.inside _ fun _ _ same => by cases same

theorem receiver (owner : Name) : (p.receiver owner).HasCopies :=
  copies.inside _ fun _ _ same => by cases same

end Place.HasCopies

theorem Place.inRound_after {p : Place} {s : Stmt} : (p.after s).InRound ↔ p.InRound := by
  unfold Place.after Place.InRound
  split
  · cases levels : p.levels <;> simp [Place.bound, levels]
  · exact Iff.rfl

end Scoping

/-! The parts of an item. -/

theorem bodyParts_housed {p : Place} {ss : List Stmt} (copies : p.HasCopies) (outside : ¬p.InRound) :
    ∀ x ∈ bodyParts p ss, x.1.HasCopies ∧ x.2.Housed x.1 := by
  induction ss generalizing p with
  | nil => simp [bodyParts]
  | cons s rest ih =>
    intro x member
    rcases List.mem_cons.mp member with rfl | later
    · exact ⟨copies, fun inside => absurd inside outside⟩
    · exact ih (copies.after s) (fun inside => outside (Place.inRound_after.mp inside)) x later

theorem Field.parts_housed (field : Field) {p q : Place} (here : p.HasCopies) (there : q.HasCopies) :
    ∀ x ∈ field.parts p q, x.1.HasCopies ∧ x.2.Housed x.1 := by
  cases field with
  | var decl => grind [Field.parts, VarDecl.parts, Item.Housed]
  | property decl => grind [Field.parts, PropertyDecl.parts, Item.Housed]

theorem ClassDecl.parts_housed {p : Place} (decl : ClassDecl) (copies : p.HasCopies) :
    ∀ x ∈ decl.parts p, x.1.HasCopies ∧ x.2.Housed x.1 := by
  have outside := copies.binding decl.name.text
  have field := outside.cls decl
  have member := field.receiver decl.name
  simp only [ClassDecl.parts, referenceParts, List.mem_append, List.mem_map, List.mem_flatMap]
  rintro x ((⟨ref, -, rfl⟩ | ⟨part, -, found⟩) | ⟨method, -, rfl⟩)
  · exact ⟨outside, trivial⟩
  · exact part.parts_housed field member x found
  · exact ⟨member, trivial⟩

theorem InterfaceDecl.parts_housed {p : Place} (decl : InterfaceDecl) (copies : p.HasCopies) :
    ∀ x ∈ decl.parts p, x.1.HasCopies ∧ x.2.Housed x.1 := by
  have outside : (p.binding decl.name.text).inInterface.HasCopies := copies.binding decl.name.text
  have member := outside.receiver decl.name
  simp only [InterfaceDecl.parts, List.mem_append, List.mem_map, List.mem_flatMap]
  rintro x (⟨part, -, found⟩ | ⟨method, -, rfl⟩)
  · exact part.parts_housed outside member x found
  · exact ⟨member, trivial⟩

theorem Stmt.parts_housed {p : Place} {s : Stmt} (copies : p.HasCopies) (plain : ∀ branch ∈ s.branches, branch.Plain) :
    ∀ x ∈ s.parts p, x.1.HasCopies ∧ x.2.Housed x.1 := by
  have looping : p.inLoop.HasCopies := copies
  have switching : p.inSwitch.HasCopies := copies
  have testing : p.inTest.HasCopies := copies
  -- What surrounds a place besides its levels does not matter, and branches are plain wherever they stand.
  have expr (q : Place) (e : Expr) (has : q.HasCopies) : q.HasCopies ∧ (Item.expr e).Housed q := ⟨has, trivial⟩
  have branch (q : Place) (b : Stmt) (has : q.HasCopies) (among : b ∈ s.branches) :
      q.HasCopies ∧ (Item.stmt b).Housed q := ⟨has, fun _ => plain b among⟩
  have opened (q : Place) (ss : List Stmt) (site : Site) (frame : Frame) (same : q = p.inside site frame)
      (other : ∀ names body, site ≠ .iteration names body) : q.HasCopies ∧ (Item.body ss).Housed q := by
    subst same
    refine ⟨copies.inside frame other, ?_⟩
    rintro ⟨l, first, names, body, found⟩
    cases first
    exact other names body found
  intro x member
  cases s with
  | var decl =>
    obtain ⟨e, -, rfl⟩ := List.mem_map.mp member
    exact expr _ e (copies.reserving _)
  | property decl =>
    rcases List.mem_cons.mp member with rfl | member
    · exact ⟨copies.binding _, trivial⟩
    · obtain ⟨setter, -, rfl⟩ := List.mem_map.mp member
      exact ⟨copies.binding _, trivial⟩
  | function decl =>
    obtain rfl := List.mem_singleton.mp member
    exact ⟨copies.binding _, trivial⟩
  | classDecl decl => exact decl.parts_housed copies x member
  | interfaceDecl decl => exact decl.parts_housed copies x member
  | block body =>
    obtain rfl := List.mem_singleton.mp member
    exact opened _ body _ _ rfl fun _ _ same => by cases same
  | whileLoop condition body increment names =>
    have around : (p.loopBody names body).HasCopies := copies.loopBody names body
    grind [Stmt.parts, Stmt.branches]
  | tryCatch body name handler =>
    rcases List.mem_cons.mp member with rfl | member
    · exact branch p body copies (by simp [Stmt.branches])
    · obtain rfl := List.mem_singleton.mp member
      exact opened _ handler _ _ rfl fun _ _ same => by cases same
  | _ => grind [Stmt.parts, Stmt.branches]

theorem Scoping.Within.housed {root : Stmt} {p : Place} {item : Item} (placed : WellPlaced {} (.stmt root))
    (within : Within root p item) : p.HasCopies ∧ item.Housed p := by
  induction within with
  | root =>
    refine ⟨by simp [Place.HasCopies], ?_⟩
    rintro ⟨l, first, -⟩
    cases first
  | @part p q item part within member ih =>
    have here := placed.within within
    cases item with
    | expr e =>
      obtain rfl : q = p := e.parts_fst p _ member
      refine ⟨ih.1, ?_⟩
      cases e <;> grind [Item.parts, Expr.parts, Item.Housed]
    | stmt s => exact s.parts_housed ih.1 here.fits.plain _ member
    | body ss => exact bodyParts_housed ih.1 ih.2 _ member
    | function role decl =>
      obtain ⟨body, -, same⟩ := List.mem_map.mp member
      cases same
      refine ⟨ih.1.callee role decl, ?_⟩
      rintro ⟨l, first, names, other, found⟩
      cases first
      cases found

theorem At.housed {view : View} {p : Place} {item : Item} (stands : At view p item) : p.HasCopies ∧ item.Housed p := by
  obtain ⟨root, accepted, -, within⟩ := stands
  exact within.housed accepted.wellPlaced

/-! What comes to be known of the scope of a round. -/

theorem Plan.Safe.bindLater {view : View} {k : Permit} {start w : World} {m : Machine} {P : World → α → Prop}
    {Q : World → β → Prop} {c : Run α} {f : α → Run β} (stage : Stage view k start m) (leads : start.Leads m.calm w)
    (first : Safe view m.calm m.scope P w (c m))
    (next : ∀ w' m' a, Stage view k w' m' → start.Leads m.calm w' → m'.scope = m.scope → P w' a →
      Safe view k m'.scope Q w' (f a m')) : Safe view k m.scope Q w ((c >>= f) m) := by
  refine first.andThen stage.calm_within leads ?_
  intro w' outcome lands
  cases outcome with
  | ok a m' =>
    have same : m'.scope = m.scope := lands.scope
    rw [← same]
    exact next w' m' a (stage.step lands.leads lands.sound lands.heap) lands.leads same (lands.result a m' rfl)
  | error reason m' =>
    exact .done ⟨.refl k w', lands.sound, lands.heap, lands.scope, fun _ _ same => by cases same⟩

namespace Plan.Reveals

variable {view : View} {k : Permit} {w w' : World} {m m' : Machine} {r scope : Ref .scope} {site : Site}
  {perform : (a : Activity) → Machine → Outcome a.Result} {history : Activity → Machine → List Event}
  {α β : Type} {P : World → α → Prop} {Q : World → β → Prop}

theorem after {plan : Plan β} (reveals : plan.Reveals view k scope Q r site perform history w')
    (leads : w.Leads k w') : plan.Reveals view k scope Q r site perform history w := by
  intro bound
  obtain ⟨last, trail, lands, known⟩ := reveals bound
  exact ⟨last, trail.after leads, ⟨leads.trans lands.leads, lands.sound, lands.heap, lands.scope, lands.result⟩, known⟩

theorem bind {c : Run α} {f : α → Run β} {a : α} (stage : Stage view k w m) (each : Leaves view perform history)
    (first : Safe view m.calm m.scope P w (c m)) (done : (c m).outcome perform = .ok a m')
    (next : ∀ w', Stage view k w' m' → w.Leads m.calm w' → m'.scope = m.scope → P w' a →
      (f a m').Reveals view k m'.scope Q r site perform history w') :
    ((c >>= f) m).Reveals view k m.scope Q r site perform history w := by
  intro bound
  have events : ((c >>= f) m).events perform history =
      (c m).events perform history ++ (f a m').events perform history := by rw [Run.events_bind, done]
  have outcome : ((c >>= f) m).outcome perform = (f a m').outcome perform := by rw [Run.outcome_bind, done]
  rw [events] at bound ⊢
  rw [outcome]
  obtain ⟨w₁, trail, lands⟩ := first.leaves each fun strict e member => bound strict e (List.mem_append_left _ member)
  rw [done] at lands
  have same : m'.scope = m.scope := lands.scope
  obtain ⟨w₂, rest, landsRest, known⟩ := next w₁ (stage.step lands.leads lands.sound lands.heap) lands.leads same
    (lands.result a m' rfl) fun strict e member => bound strict e (List.mem_append_right _ member)
  have whole := (trail.mono stage.calm_within).append rest
  exact ⟨w₂, whole, ⟨whole.leads, landsRest.sound, landsRest.heap, landsRest.scope.trans same, landsRest.result⟩, known⟩

theorem weaken {plan : Plan β} {Q' : World → β → Prop}
    (reveals : plan.Reveals view k scope Q r site perform history w) (weaker : ∀ w b, Q w b → Q' w b) :
    plan.Reveals view k scope Q' r site perform history w := by
  intro bound
  obtain ⟨last, trail, lands, known⟩ := reveals bound
  exact ⟨last, trail, ⟨lands.leads, lands.sound, lands.heap, lands.scope,
    fun b m' same => weaker last b (lands.result b m' same)⟩, known⟩

end Plan.Reveals

def Machine.inRound (m : Machine) (names : List Name) : Machine :=
  { m.copying names with scope := ⟨m.heap.scopes.size⟩ }

namespace Evaluator

variable {act : (a : Activity) → Machine → Outcome a.Result} {m : Machine}

theorem asked_copyNames (source target : Ref .scope) (names : List Name) (m : Machine) :
    (copyNames source target names m).asked act = [] := by
  induction names generalizing m with
  | nil => rfl
  | cons name rest ih =>
    unfold copyNames
    rw [Run.reading_bind]
    cases m.heap.here? source name.text <;> exact ih _

theorem stmts_one (s : Stmt) : stmts [s] = Run.exec s := by
  funext m
  change Plan.ask _ _ _ = Plan.ask _ _ _
  congr 1
  funext outcome
  cases outcome with
  | error reason after => rfl
  | ok signal after => cases signal <;> rfl

theorem asked_iteration (body : Stmt) (names : List Name) (m : Machine) :
    (iteration body names m).asked act = [(.stmt body, m.inRound names)] := by
  have inner : (block ⟨m.heap.scopes.size⟩ [body] (m.copying names)).asked act = [(.stmt body, m.inRound names)] := by
    rw [block, stmts_one]
    exact Run.asked_inScope _ _ _
  rw [iteration_eq, Run.asked_bind, inner]
  cases (block ⟨m.heap.scopes.size⟩ [body] (m.copying names)).outcome act with
  | error reason after => rfl
  | ok signal after =>
    simp only [Run.asked_bind, asked_copyNames]
    cases (copyNames ⟨m.heap.scopes.size⟩ m.scope names after).outcome act <;> rfl

theorem asked_option (e : Option Expr) (m : Machine) :
    ∀ x ∈ (option e m).asked act, ∃ e, x = (.expr e, m) := by
  cases e with
  | none => exact fun x absent => by cases absent
  | some e =>
    intro x member
    have only : (option (some e) m).asked act = [(.expr e, m)] := by
      refine (Plan.asked_andThen _ _).trans ?_
      cases (Run.eval e m).outcome act <;> rfl
    rw [only] at member
    exact ⟨e, List.mem_singleton.mp member⟩

section

variable {condition : Expr} {body : Run Signal} {increment : Option Expr} {fuel : Nat} {signal : Signal}

theorem resume_goesOn (goesOn : signal = .normal ∨ signal = .continuing) :
    resume condition body increment fuel signal =
      option increment >>= fun _ => whileLoop condition body increment fuel := by
  rcases goesOn with rfl | rfl <;> rfl

/-- A loop asks for more after a round only if it goes on, and then for the increment first. -/
theorem mem_asked_resume {x : Activity × Machine}
    (asked : x ∈ (resume condition body increment fuel signal m).asked act) :
    (signal = .normal ∨ signal = .continuing) ∧ ((∃ e, x = (.expr e, m)) ∨
      ∃ result after, (option increment m).outcome act = .ok result after ∧
        x ∈ (whileLoop condition body increment fuel after).asked act) := by
  have goesOn : signal = .normal ∨ signal = .continuing := by
    cases signal with
    | breaking | returning | expecting => cases asked
    | normal => exact .inl rfl
    | continuing => exact .inr rfl
  rw [resume_goesOn goesOn] at asked
  exact ⟨goesOn, (Run.mem_asked_bind asked).imp (asked_option increment m x) id⟩

end

variable {view : View} {k : Permit} {w : World} {p : Place} {condition : Expr} {body : Stmt} {increment : Option Expr}
  {names : List Name} {history : Activity → Machine → List Event}

/-- When a loop is over, it is known of the scope of each of its rounds what opened it. -/
theorem whileLoop_reveals (each : Leaves view act history)
    (stands : At view p (.stmt (.whileLoop condition body increment names))) (some : names ≠ []) {s : Stmt}
    {round : Machine} (fuel : Nat) (stage : Stage view k w m) (placed : w.Placed view p.levels m.scope)
    (asked : (.stmt s, round) ∈ (whileLoop condition (iteration body names) increment fuel m).asked act) :
    (whileLoop condition (iteration body names) increment fuel m).Reveals view k m.scope
      (fun w' signal => signal.Known view w') round.scope (.iteration names body) act history w := by
  have standsCondition : At view p (.expr condition) := stands.part (by simp [Item.parts, Stmt.parts])
  have standsIncrement (e : Expr) (member : e ∈ increment) : At view p (.expr e) :=
    stands.part (by simp_all [Item.parts, Stmt.parts])
  have bodySafe (w : World) (m : Machine) (stage : Stage view m.calm w m) (placed : w.Placed view p.levels m.scope) :
      Plan.Safe view m.calm m.scope (fun w' signal => signal.Known view w') w (iteration body names m) :=
    .after (World.leads_opened ..) (iteration_safe stage stands placed some)
  have loop (fuel : Nat) (w : World) (m : Machine) (stage : Stage view k w m) (placed : w.Placed view p.levels m.scope) :
      Plan.Safe view k m.scope (fun w' signal => signal.Known view w') w
        (whileLoop condition (iteration body names) increment fuel m) :=
    whileLoop_safe standsCondition standsIncrement bodySafe fuel stage placed
  induction fuel generalizing w m with
  | zero => cases asked
  | succ fuel ih =>
    rw [whileLoop_succ] at asked ⊢
    rcases Run.mem_asked_bind asked with first | ⟨value, m₁, decided, asked⟩
    · cases List.mem_singleton.mp first
    refine .bind stage each (.eval stage.calm standsCondition placed.around) decided fun w₁ stage₁ leads₁ same₁ _ => ?_
    have placed₁ := same₁ ▸ placed.calm stage leads₁
    by_cases truthy : value.isTruthy = true
    case neg =>
      rw [if_neg truthy] at asked
      cases asked
    rw [if_pos truthy] at asked ⊢
    rcases Run.mem_asked_bind asked with this | ⟨signal, m₂, finished, later⟩
    · -- The round itself, whose scope is known from the moment on when it is opened.
      rw [asked_iteration] at this
      cases List.mem_singleton.mp this
      have opened := World.siteOf?_opened stage₁.sound (.iteration names body)
        ⟨Option.some m₁.scope, w₁.heap.copies m₁.scope names⟩
      rw [stage₁.heap] at opened
      refine .after (Plan.Safe.reveals ?_ each opened) (World.leads_opened ..)
      rw [← stage₁.heap]
      refine .bindLater stage₁ (World.leads_opened ..) (iteration_safe stage₁.calm stands placed₁ some) ?_
      intro w₂ m₂ signal stage₂ leads₂ same₂ known
      exact resume_safe standsIncrement stage₂ (same₂ ▸ placed₁.calm stage₁ leads₂) known (loop fuel)
    · refine .bind stage₁ each (bodySafe w₁ m₁ stage₁.calm placed₁) finished fun w₂ stage₂ leads₂ same₂ known => ?_
      have placed₂ := same₂ ▸ placed₁.calm stage₁ leads₂
      obtain ⟨goesOn, ⟨e, other⟩ | ⟨result, m₃, done, again⟩⟩ := mem_asked_resume later
      · cases other
      rw [resume_goesOn goesOn]
      refine .bind stage₂ each (option_safe stage₂.calm standsIncrement placed₂.around) done
        fun w₃ stage₃ leads₃ same₃ _ => ?_
      exact ih stage₃ (same₃ ▸ placed₂.calm stage₂ leads₃) again

theorem runWhile_eq (some : names ≠ []) (fuel : Nat) :
    runWhile fuel condition body increment names = whileLoop condition (iteration body names) increment fuel := by
  unfold runWhile
  rw [if_neg (by simpa using some)]

end Evaluator

theorem Task.loop_reveals {view : View} {condition : Expr} {body s : Stmt} {increment : Option Expr} {names : List Name}
    {loop round : Task} (isLoop : loop.activity = .stmt (.whileLoop condition body increment names)) (some : names ≠ [])
    (asks : loop.Asks round) (isRound : round.activity = .stmt s) :
    loop.Reveals view round.machine.scope (.iteration names body) := by
  obtain ⟨fuel, a, m⟩ := loop
  obtain ⟨fuel', b, n⟩ := round
  cases isLoop
  cases isRound
  obtain ⟨same, asked⟩ := asks
  cases same
  have plan : (Activity.stmt (.whileLoop condition body increment names)).plan fuel' m =
      Evaluator.whileLoop condition (Evaluator.iteration body names) increment fuel' m :=
    congrFun (Evaluator.runWhile_eq some fuel') m
  refine reveals_of_plan fun w sound heap ready bound => ?_
  obtain ⟨p, stands, placed⟩ := ready
  rw [plan] at asked ⊢
  have stage : Stage view ((Activity.stmt (.whileLoop condition body increment names)).permit m) w m :=
    ⟨sound, heap, Nat.le_refl _⟩
  refine (Evaluator.whileLoop_reveals (history_leaves view fuel') stands some fuel' stage placed asked).weaken ?_
  exact fun _ _ known => ⟨known, fun _ absent => by cases absent⟩

/-! Scopes inside each other. -/

section

variable {h : Heap} {r s : Ref .scope}

theorem Converges.ancestor_le (converges : Converges h.around? h.scopes.size .globals)
    (inside : r.index < h.scopes.size) {distance : Nat} (found : h.ancestor? distance r = some s) :
    s.index ≤ r.index := by
  induction distance generalizing r with
  | zero => exact Nat.le_of_eq (congrArg Ref.index (Option.some.inj found).symm)
  | succ distance ih =>
    rw [Heap.ancestor?] at found
    obtain ⟨outer, around, further⟩ := Option.bind_eq_some_iff.mp found
    have older := converges.older r outer inside around
    exact Nat.le_trans (ih (Nat.lt_trans older inside) further) (Nat.le_of_lt older)

theorem Scoping.Place.depthOf_le {p : Place} {name : String} {distance : Nat} {l : Scoping.Level}
    (level : p.levels[distance]? = some l) (has : l.frame.contains name = true) :
    ∃ depth, depthOf p.frames name = some depth ∧ depth ≤ distance := by
  have frame : p.frames[distance]? = some l.frame := by rw [frames, List.getElem?_map, level, Option.map_some]
  cases found : depthOf p.frames name with
  | none =>
    have lacks := List.findIdx?_eq_none_iff.mp found l.frame (List.mem_of_getElem? frame)
    rw [has] at lacks
    cases lacks
  | some depth =>
    obtain ⟨inside, -, nearer⟩ := List.findIdx?_eq_some_iff_getElem.mp found
    refine ⟨depth, rfl, Nat.le_of_not_lt fun before => nearer distance before ?_⟩
    obtain ⟨_, same⟩ := List.getElem?_eq_some_iff.mp frame
    rw [same, has]

theorem World.Stands.level {w : World} {levels : List Scoping.Level} (stands : w.Stands levels r)
    (outermost : (w.heap.scope .globals).enclosing = none) {distance : Nat}
    (found : w.heap.ancestor? distance r = some s) (inner : s ≠ .globals) :
    ∃ l, levels[distance]? = some l ∧ w.Realizes l s := by
  induction levels generalizing r distance with
  | nil =>
    obtain rfl : r = .globals := stands
    cases distance with
    | zero => exact absurd (Option.some.inj found).symm inner
    | succ distance =>
      rw [Heap.ancestor?, outermost] at found
      cases found
  | cons l rest ih =>
    obtain ⟨here, outer, around, further⟩ := stands
    cases distance with
    | zero =>
      obtain rfl := Option.some.inj found
      exact ⟨l, rfl, here⟩
    | succ distance =>
      rw [Heap.ancestor?, around] at found
      exact ih further found

end

/-! Code in the scope of a round. -/

section

variable {view : View} {k : Permit} {w : World} {H : List Event} {r : Ref .scope} {names : List Name} {body : Stmt}
  (trail : Trail view k .initial H w) (round : w.siteOf? r = some (.iteration names body))

include trail round

theorem Trail.round_inner : r ≠ .globals := by
  rintro rfl
  have outermost : w.siteOf? .globals = some (.block []) := trail.leads.sites _ _ rfl
  rw [outermost] at round
  cases round

/-- Only plain statements begin in the scope of a round. -/
theorem Trail.plainIn : ∀ e ∈ H, e.PlainIn r := by
  intro e member
  unfold Event.PlainIn
  split
  · rename_i s n
    rintro rfl
    obtain ⟨v, seen, -, later⟩ := trail.seen member
    obtain ⟨p, stands, placed⟩ := seen.good
    have begins := placed.begins
    cases levels : p.levels with
    | nil =>
      rw [levels] at begins
      exact absurd begins (trail.round_inner round)
    | cons l rest =>
      rw [levels] at begins
      have realizes : v.Realizes l n.scope := begins
      have site := (later.sites _ _ realizes.site).symm.trans round
      exact stands.housed.2 ⟨l, by simp [levels], names, body, Option.some.inj site⟩
  · trivial

/-- Inside the scope of a round the names that are copied for it are found there or further in. -/
theorem Trail.resolves (strict : view.strict) {e : Expr} {start : Machine} (started : .started (.expr e) start ∈ H)
    {ref : Reference} (named : e.reference? = some ref) (copied : ∃ name ∈ names, name.text = ref.name.text)
    {far : Nat} (found : start.heap.ancestor? far start.scope = some r) :
    ∃ s rest, start.scopeOf? ref = some s ∧ start.heap.ancestor? rest s = some r := by
  obtain ⟨v, seen, -, later⟩ := trail.seen started
  obtain ⟨p, stands, around⟩ := seen.good
  have heap : v.heap = start.heap := seen.heap
  rw [← heap] at found
  obtain ⟨l, level, realizes⟩ := (around strict).level seen.sound.outermost found (trail.round_inner round)
  have site := (later.sites _ _ realizes.site).symm.trans round
  have has : l.frame.contains ref.name.text = true := by
    obtain ⟨name, among, same⟩ := copied
    rw [← same]
    exact stands.housed.1 l (List.mem_of_getElem? level) names body (Option.some.inj site) name among
  obtain ⟨depth, nearest, nearer⟩ := Place.depthOf_le level has
  have located : ref.depth = some depth := (stands.located named).trans nearest
  obtain ⟨rest, rfl⟩ := Nat.exists_eq_add_of_le nearer
  rw [heap, Heap.ancestor?_add] at found
  obtain ⟨s, first, second⟩ := Option.bind_eq_some_iff.mp found
  exact ⟨s, rest, by rw [Machine.scopeOf?, located]; exact first, second⟩

end

end Treewalk
