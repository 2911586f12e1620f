import Treewalk.Proofs.Parallel

/-!
Loops that declare a variable, in two forms. The grammar builds the form that copies the variable for each time
round. The other form shares one variable among all of them and has the body in a block. If the first form
resolves the second one does, and the two differ in the body alone.
-/

namespace Treewalk

open Scoping

structure ForLoop where
  decl : VarDecl
  condition : Expr
  increment : Option Expr
  body : Stmt

namespace ForLoop

def copying (f : ForLoop) : Stmt :=
  .block [.var f.decl, .whileLoop f.condition f.body f.increment [f.decl.name]]

def sharing (f : ForLoop) : Stmt :=
  .block [.var f.decl, .whileLoop f.condition (.block [f.body]) f.increment []]

/-- The parts of a loop stand in it by themselves, and its body is paired with another one. -/
structure PairedWith (f : ForLoop) (body : Stmt) : Prop where
  initializer : Paired (.inside none) (.option f.decl.initializer) (.option f.decl.initializer)
  condition : Paired (.inside none) (.expr f.condition) (.expr f.condition)
  increment : Paired (.inside none) (.option f.increment) (.option f.increment)
  body : Paired (.inside (some (f.decl.name.text, 0))) (.stmt f.body) (.stmt body)

end ForLoop

namespace Scoping

/-- What is resolved twice from the same frames is paired with itself. -/
theorem Tracks.self {R : α → α → Prop} {c : Resolve α} {s after : Scopes} {a : α}
    (tracks : Tracks (.inside none) R c c) (done : c s = .ok a after) : R a a := by
  obtain ⟨a', after', again, -, -, related⟩ := tracks s s (.same _) rfl a after done
  rw [done] at again
  cases again
  exact related

theorem proper_none : (Seat.inside none).Proper :=
  fun _ _ impossible => by cases impossible

theorem resolve_body {body b : Stmt} {name : Name} {c : Context} {s after : Scopes} {home : Frame}
    {outer : List Frame} (frames : s.frames = home :: outer) (bound : home.contains name.text = true)
    (proper : name.Proper) (formed : Formed (.stmt body)) (free : body.closureFree = true) (plain : body.Plain)
    (resolved : inScope [] (do declareAll [name]; resolveStmt c body) s = .ok b after) :
    ∃ b', resolveStmt c (.block [body]) s = .ok (.block [b']) after ∧
      Paired (.inside (some (name.text, 0))) (.stmt b) (.stmt b') := by
  rw [inScope_eq] at resolved
  cases found : (do declareAll [name]; resolveStmt c body : Resolve Stmt)
      { s with frames := frameOf [] :: s.frames } with
  | error e inside =>
    rw [found] at resolved
    cases resolved
  | ok result inside =>
    rw [found] at resolved
    cases resolved
    obtain ⟨_, middle, named, first⟩ := ok_of_bind found
    cases named
    rw [frames] at first
    have marked : (Seat.inside (some (name.text, 0))).Proper := by
      intro mark depth same
      cases same
      exact proper.free
    obtain ⟨b', inside', second, parallel, module, paired⟩ :=
      resolveStmt_paired marked c body formed free (.inr plain)
        ⟨declared .empty name.text :: home :: outer, s.moduleName⟩ ⟨.empty :: home :: outer, s.moduleName⟩
        (.copy bound) rfl b inside first
    have wrapped : inScope [] (resolveStmts c [body]) s = .ok [b'] { inside with frames := inside.frames.tail } := by
      have run : resolveStmts c [body] { s with frames := frameOf [] :: s.frames } = .ok [b'] inside' := by
        rw [frames]
        exact bind_ok second
      rw [inScope_eq, run]
      obtain ⟨frames', name'⟩ := inside'
      obtain ⟨frames, name''⟩ := inside
      cases module
      cases parallel
      rfl
    exact ⟨b', bind_ok wrapped, paired⟩

theorem resolve_loop {condition : Expr} {body l : Stmt} {increment : Option Expr} {name : Name} {c : Context}
    {s after : Scopes} {home : Frame} {outer : List Frame} (frames : s.frames = home :: outer)
    (bound : home.contains name.text = true)
    (formed : Formed (.stmt (.whileLoop condition body increment [name])))
    (free : (Stmt.whileLoop condition body increment [name]).closureFree = true)
    (done : resolveStmt c (.whileLoop condition body increment [name]) s = .ok l after) :
    ∃ condition' increment' b b', l = .whileLoop condition' b increment' [name] ∧
      resolveStmt c (.whileLoop condition (.block [body]) increment []) s =
        .ok (.whileLoop condition' (.block [b']) increment' []) after ∧
      Paired (.inside none) (.expr condition') (.expr condition') ∧
      Paired (.inside none) (.option increment') (.option increment') ∧
      Paired (.inside (some (name.text, 0))) (.stmt b) (.stmt b') := by
  simp only [Stmt.closureFree, Bool.and_eq_true] at free
  have conditionFormed : Formed (.expr condition) := formed.part (by simp [Item.parts, Stmt.parts])
  have bodyFormed : Formed (.stmt body) := formed.part (by simp [Item.parts, Stmt.parts])
  have incrementFormed : ∀ e ∈ increment, Formed (.expr e) := fun e member =>
    formed.part (by simp [Item.parts, Stmt.parts, Option.mem_def.mp member])
  obtain ⟨condition', s₁, first, done⟩ := ok_of_bind done
  obtain ⟨increment', s₂, second, done⟩ := ok_of_bind done
  obtain ⟨b, s₃, third, last⟩ := ok_of_bind done
  cases last
  have kept₁ : s₁.frames = s.frames := (resolveExpr_fits s.frames c _ conditionFormed s _ _ rfl first).1
  have kept₂ : s₂.frames = s₁.frames := (resolveOption_fits s₁.frames c _ incrementFormed s₁ _ _ rfl second).1
  obtain ⟨b', wrapped, paired⟩ := resolve_body (kept₂.trans (kept₁.trans frames)) bound
    (formed.regular.2 name (by simp [Stmt.boundNames, Stmt.loopNames])) bodyFormed free.1.2
    (formed.regular.1 body (by simp [Stmt.branches])) third
  refine ⟨condition', increment', b, b', rfl, ?_, ?_, ?_, paired⟩
  · exact (bind_ok first).trans ((bind_ok second).trans (bind_ok wrapped))
  · exact (resolveExpr_paired proper_none c condition conditionFormed free.1.1).self first
  · exact (resolveOption_paired proper_none c increment incrementFormed free.2).self second

theorem resolve_var {decl : VarDecl} {v : Stmt} {c : Context} {s after : Scopes} {frame : Frame}
    {outer : List Frame} (frames : s.frames = frame :: outer) (formed : Formed (.stmt (.var decl)))
    (free : (Stmt.var decl).closureFree = true) (done : resolveStmt c (.var decl) s = .ok v after) :
    ∃ decl', v = .var decl' ∧ decl'.name = decl.name ∧
      after.frames = declared frame decl.name.text :: outer ∧
      Paired (.inside none) (.option decl'.initializer) (.option decl'.initializer) := by
  obtain ⟨shape, same, -⟩ := resolveStmt_fits s.frames c (.var decl) formed (by simp [Stmt.loopNames]) s v after
    rfl done
  have paired := (resolveStmt_paired proper_none c (.var decl) formed free (.inl trivial)).self done
  obtain ⟨decl', s₁, -, last⟩ := ok_of_bind done
  cases last
  cases paired with
  | var _ initializer =>
    have named := Option.some.inj same.1
    refine ⟨_, rfl, named, ?_, initializer⟩
    rw [shape, frames]
    simp only [framesAfter, Stmt.declares?, List.modifyHead_cons, ← named]

theorem resolveStmts_pair {first second : Stmt} {resolved : List Stmt} {c : Context} {s after : Scopes}
    (done : resolveStmts c [first, second] s = .ok resolved after) :
    ∃ a b middle, resolved = [a, b] ∧ resolveStmt c first s = .ok a middle ∧
      resolveStmt c second middle = .ok b after := by
  obtain ⟨a, middle, one, rest⟩ := ok_of_bind done
  obtain ⟨others, _, rest, last⟩ := ok_of_bind rest
  cases last
  obtain ⟨b, _, two, last⟩ := ok_of_bind rest
  cases last
  exact ⟨a, b, middle, rfl, one, two⟩

end Scoping

/-- If a loop resolves in the one form it does in the other, and the two differ in the body alone. -/
theorem ForLoop.resolve_sharing {f : ForLoop} (formed : Formed (.stmt f.copying))
    (free : f.copying.closureFree = true) {c : Context} {s after : Scopes} {resolved : Stmt}
    (done : resolveStmt c f.copying s = .ok resolved after) :
    ∃ (g : ForLoop) (body : Stmt), resolved = g.copying ∧ g.PairedWith body ∧
      resolveStmt c f.sharing s = .ok ({ g with body := body } : ForLoop).sharing after := by
  have parts : Formed (.body [.var f.decl, .whileLoop f.condition f.body f.increment [f.decl.name]]) :=
    formed.part (by simp [ForLoop.copying, Item.parts, Stmt.parts])
  simp only [ForLoop.copying, Stmt.closureFree.eq_def (.block _), stmtsClosureFree, Bool.and_eq_true] at free
  obtain ⟨rs, _, block, last⟩ := ok_of_bind done
  cases last
  rw [inScope_eq] at block
  cases found : resolveStmts c [.var f.decl, .whileLoop f.condition f.body f.increment [f.decl.name]]
      { s with frames := frameOf [] :: s.frames } with
  | error e inside =>
    rw [found] at block
    cases block
  | ok result inside =>
    rw [found] at block
    cases block
    obtain ⟨v, l, middle, rfl, var, loop⟩ := resolveStmts_pair found
    obtain ⟨decl, rfl, named, frames, initializer⟩ := resolve_var rfl (parts.body _ (by simp)) free.1 var
    have bound : (declared (frameOf []) f.decl.name.text).contains f.decl.name.text = true := by
      simp [declared, NameMap.contains_insert]
    obtain ⟨condition, increment, b, b', rfl, shared, conditionPaired, incrementPaired, paired⟩ :=
      resolve_loop frames bound (parts.body _ (by simp)) free.2.1 loop
    refine ⟨⟨decl, condition, increment, b⟩, b', ?_, ⟨initializer, conditionPaired, incrementPaired, ?_⟩, ?_⟩
    · simp only [ForLoop.copying, named]
    · rw [named]
      exact paired
    · refine bind_ok ?_
      have run : resolveStmts c [.var f.decl, .whileLoop f.condition (.block [f.body]) f.increment []]
          { s with frames := frameOf [] :: s.frames } =
            .ok [.var decl, .whileLoop condition (.block [b']) increment []] inside :=
        (bind_ok var).trans (bind_ok (bind_ok shared))
      rw [inScope_eq, run]

end Treewalk
