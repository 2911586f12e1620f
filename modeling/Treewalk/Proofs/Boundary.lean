import Treewalk.Proofs.Sessions

/-!
Programs split between any two of their statements. The resolver comes back to the account that it had before a
statement, whether it gets to the end of it or comes upon a mistake somewhere inside; only the name of the module is
handed on. Statements that do not name the module are therefore resolved as if they stood alone.
-/

namespace Treewalk

namespace Scoping

/-- An item that is not the declaration of a module and has none among its parts. -/
inductive ModuleFree : Item → Prop where
  | intro {item : Item} (other : ∀ line name, item ≠ .stmt (.moduleName line name))
      (parts : ∀ q ∈ item.parts {}, ModuleFree q.2) : ModuleFree item

namespace ModuleFree

theorem part {item part : Item} (free : ModuleFree item)
    (member : part ∈ (item.parts {}).map Prod.snd) : ModuleFree part := by
  obtain ⟨q, found, rfl⟩ := List.mem_map.mp member
  cases free with
  | intro _ parts => exact parts q found

theorem exprs {e : Expr} (free : ModuleFree (.expr e)) (es : List Expr)
    (same : e.parts {} = es.map fun e => ({}, .expr e)) : ∀ part ∈ es, ModuleFree (.expr part) := by
  intro part member
  apply free.part
  simpa [Item.parts, same] using member

theorem body {ss : List Stmt} (free : ModuleFree (.body ss)) : ∀ s ∈ ss, ModuleFree (.stmt s) := by
  have stands : ∀ (ss : List Stmt) (p : Place), ∀ s ∈ ss, Item.stmt s ∈ (bodyParts p ss).map Prod.snd := by
    intro ss
    induction ss with
    | nil => simp
    | cons first rest ih =>
      intro p s member
      rcases List.mem_cons.mp member with rfl | later
      · simp [bodyParts]
      · have found := ih (p.after first) s later
        simp only [bodyParts, List.map_cons, List.mem_cons]
        exact .inr found
  exact fun s member => free.part (stands ss {} s member)

theorem fields {fields : List Field} {p q : Place} {parts : List (Place × Item)}
    (free : ∀ part ∈ parts, ModuleFree part.2) (among : ∀ part ∈ fields.flatMap (Field.parts p q), part ∈ parts) :
    ∀ field ∈ fields, ∀ part ∈ field.parts {} {}, ModuleFree part.2 := by
  intro field member part found
  have inside : part.2 ∈ (field.parts p q).map Prod.snd := by
    rw [field.parts_snd p q {} {}]
    exact List.mem_map_of_mem found
  obtain ⟨other, stands, same⟩ := List.mem_map.mp inside
  rw [← same]
  exact free other (among other (List.mem_flatMap.mpr ⟨field, member, stands⟩))

end ModuleFree

/-- A computation that neither sets nor loses the name of the module, even when it gives up. -/
def KeepsModule (c : Resolve α) : Prop :=
  ∀ s, (reached (c s)).moduleName = s.moduleName

namespace KeepsModule

variable {α β : Type}

theorem pure {a : α} : KeepsModule (Pure.pure a) :=
  fun _ => rfl

theorem mistake {m : Mistake} {place : Name} : KeepsModule (Scoping.mistake m place : Resolve α) :=
  fun _ => rfl

theorem bind {c : Resolve α} {f : α → Resolve β} (first : KeepsModule c) (next : ∀ a, KeepsModule (f a)) :
    KeepsModule (c >>= f) := by
  intro s
  have kept := first s
  simp only [Bind.bind, EStateM.bind]
  cases found : c s with
  | ok a middle =>
    rw [found] at kept
    exact (next a middle).trans kept
  | error e middle =>
    rw [found] at kept
    exact kept

theorem get {f : Scopes → Resolve β} (next : ∀ s, KeepsModule (f s)) : KeepsModule (MonadState.get >>= f) :=
  fun s => next s s

theorem change {f : Scopes → Scopes} (same : ∀ s, (f s).moduleName = s.moduleName) :
    KeepsModule (modify f : Resolve Unit) :=
  fun s => same s

theorem inScope {names : List String} {body : Resolve α} (inner : KeepsModule body) :
    KeepsModule (Scoping.inScope names body) :=
  bind (change fun _ => rfl) fun _ => bind inner fun _ => bind (change fun _ => rfl) fun _ => pure

end KeepsModule

theorem declare_keeps (name : Name) : KeepsModule (declare name) := by
  intro s
  unfold declare
  rw [get_bind]
  cases s.frames with
  | nil => rfl
  | cons frame outer =>
    dsimp only
    by_cases taken : NameMap.contains frame name.text = true
    · rw [if_pos taken]
      rfl
    · rw [if_neg taken]
      rfl

theorem define_keeps (name : Name) : KeepsModule (define name) := by
  refine .change fun s => ?_
  split <;> rfl

theorem declareDefined_keeps (name : Name) : KeepsModule (declareDefined name) :=
  .bind (declare_keeps name) fun _ => define_keeps name

theorem declareAll_keeps : (names : List Name) → KeepsModule (declareAll names)
  | [] => .pure
  | name :: rest => .bind (declareDefined_keeps name) fun _ => declareAll_keeps rest

theorem locate_keepsModule (ref : Reference) : KeepsModule (locate ref) :=
  .get fun _ => .pure

theorem locateBound_keeps (ref : Reference) (otherwise : Mistake) : KeepsModule (locateBound ref otherwise) := by
  refine .bind (locate_keepsModule ref) fun found => ?_
  split
  · exact .pure
  · exact .mistake

theorem resolveUse_keeps (ref : Reference) : KeepsModule (resolveUse ref) := by
  refine .get fun s => ?_
  split
  · exact .mistake
  · exact locate_keepsModule ref

theorem resolveThis_keeps (c : Context) (ref : Reference) : KeepsModule (resolveThis c ref) := by
  unfold resolveThis
  split
  · exact .mistake
  · exact locateBound_keeps ref _

theorem resolveValue_keeps (c : Context) (ref : Reference) : KeepsModule (resolveValue c ref) := by
  unfold resolveValue
  split
  · exact locateBound_keeps ref _
  · exact .mistake

theorem resolveSuper_keeps (c : Context) (ref : Reference) : KeepsModule (resolveSuper c ref) := by
  unfold resolveSuper
  split
  · exact .mistake
  · exact .mistake
  · exact .mistake
  · exact locateBound_keeps ref _

theorem resolveSuperclass_keeps (name : Name) : (ref : Option Reference) →
    KeepsModule (resolveSuperclass name ref)
  | none => .pure
  | some ref => by
    simp only [resolveSuperclass]
    split
    · exact .mistake
    · exact .bind (resolveUse_keeps ref) fun _ => .pure

theorem resolveUses_keeps : (refs : List Reference) → KeepsModule (resolveUses refs)
  | [] => .pure
  | ref :: rest => .bind (resolveUse_keeps ref) fun _ => .bind (resolveUses_keeps rest) fun _ => .pure

mutual

theorem resolveExpr_keeps (c : Context) :
    (e : Expr) → ModuleFree (.expr e) → KeepsModule (resolveExpr c e)
  | .literal _, _ | .type .., _ => .pure
  | .use ref, _ => .bind (resolveUse_keeps ref) fun _ => .pure
  | .this ref, _ => .bind (resolveThis_keeps c ref) fun _ => .pure
  | .value ref, _ => .bind (resolveValue_keeps c ref) fun _ => .pure
  | .super ref _, _ => .bind (resolveSuper_keeps c ref) fun _ => .pure
  | .group e, free | .unary _ _ e, free | .get e _ _, free | .staticGet e _, free | .sizedArray _ _ e, free
  | .length _ e, free | .typeOf _ e, free =>
    .bind (resolveExpr_keeps c e (free.exprs [e] rfl e (by simp))) fun _ => .pure
  | .binary _ _ left right, free | .logical _ _ left right, free | .index left _ right, free
  | .cast left _ right, free =>
    have parts := free.exprs [left, right] rfl
    .bind (resolveExpr_keeps c left (parts left (by simp))) fun _ =>
      .bind (resolveExpr_keeps c right (parts right (by simp))) fun _ => .pure
  | .ternary _ condition yes no, free =>
    have parts := free.exprs [condition, yes, no] rfl
    .bind (resolveExpr_keeps c condition (parts condition (by simp))) fun _ =>
      .bind (resolveExpr_keeps c yes (parts yes (by simp))) fun _ =>
        .bind (resolveExpr_keeps c no (parts no (by simp))) fun _ => .pure
  | .assign ref _ operand, free =>
    .bind (resolveOption_keeps c operand fun e member => free.part (by
      simp [Item.parts, Expr.parts, Option.mem_def.mp member])) fun _ => .bind (locate_keepsModule ref) fun _ => .pure
  | .call callee _ args generics _, free =>
    have parts := free.exprs (callee :: (args ++ generics)) rfl
    .bind (resolveExpr_keeps c callee (parts callee (by simp))) fun _ =>
      .bind (resolveExprs_keeps c args fun e member => parts e (by simp [member])) fun _ =>
        .bind (resolveExprs_keeps c generics fun e member => parts e (by simp [member])) fun _ => .pure
  | .set object _ _ operand, free | .staticSet object _ _ operand, free =>
    have parts := free.exprs (object :: operand.toList) rfl
    .bind (resolveExpr_keeps c object (parts object (by simp))) fun _ =>
      .bind (resolveOption_keeps c operand fun e member => parts e (by
        simp [Option.mem_def.mp member])) fun _ => .pure
  | .indexSet object _ position _ operand, free =>
    have parts := free.exprs (object :: position :: operand.toList) rfl
    .bind (resolveExpr_keeps c object (parts object (by simp))) fun _ =>
      .bind (resolveExpr_keeps c position (parts position (by simp))) fun _ =>
        .bind (resolveOption_keeps c operand fun e member => parts e (by
          simp [Option.mem_def.mp member])) fun _ => .pure
  | .array _ _ elements, free =>
    .bind (resolveExprs_keeps c elements (free.exprs elements rfl)) fun _ => .pure
  | .lambda decl, free =>
    .bind (resolveFunction_keeps c .function decl (free.part (by simp [Item.parts, Expr.parts]))) fun _ => .pure
termination_by structural e => e

theorem resolveOption_keeps (c : Context) :
    (e : Option Expr) → (∀ x ∈ e, ModuleFree (.expr x)) → KeepsModule (resolveOption c e)
  | none, _ => .pure
  | some e, free => .bind (resolveExpr_keeps c e (free e rfl)) fun _ => .pure
termination_by structural e => e

theorem resolveExprs_keeps (c : Context) :
    (es : List Expr) → (∀ e ∈ es, ModuleFree (.expr e)) → KeepsModule (resolveExprs c es)
  | [], _ => .pure
  | e :: rest, free =>
    .bind (resolveExpr_keeps c e (free e (by simp))) fun _ =>
      .bind (resolveExprs_keeps c rest fun e member => free e (by simp [member])) fun _ => .pure
termination_by structural es => es

theorem resolveStmt_keeps (c : Context) :
    (s : Stmt) → ModuleFree (.stmt s) → KeepsModule (resolveStmt c s)
  | .expr e, free =>
    .bind (resolveExpr_keeps c e (free.part (by simp [Item.parts, Stmt.parts]))) fun _ => .pure
  | .var decl, free =>
    .bind (resolveVar_keeps c decl fun e member => free.part (by
      simp [Item.parts, Stmt.parts, VarDecl.parts, Option.mem_def.mp member])) fun _ => .pure
  | .property decl, free =>
    .bind (declareDefined_keeps decl.name) fun _ =>
      .bind (resolveProperty_keeps c decl fun f member => free.part (by
        simpa [Item.parts, Stmt.parts, PropertyDecl.parts] using member)) fun _ => .pure
  | .function decl, free =>
    .bind (declareDefined_keeps decl.name) fun _ =>
      .bind (resolveFunction_keeps c .function decl (free.part (by simp [Item.parts, Stmt.parts]))) fun _ => .pure
  | .classDecl decl, free =>
    .bind (resolveClass_keeps c decl fun q member => free.part (List.mem_map_of_mem member)) fun _ => .pure
  | .interfaceDecl decl, free =>
    .bind (resolveInterface_keeps c decl fun q member => free.part (List.mem_map_of_mem member)) fun _ => .pure
  | .enumDecl name _, _ => .bind (declareDefined_keeps name) fun _ => .pure
  | .block body, free =>
    have inside : ModuleFree (.body body) := free.part (by simp [Item.parts, Stmt.parts])
    .bind (.inScope (resolveStmts_keeps c body inside.body)) fun _ => .pure
  | .ifElse condition yes no, free =>
    .bind (resolveExpr_keeps c condition (free.part (by simp [Item.parts, Stmt.parts]))) fun _ =>
      .bind (resolveStmt_keeps c yes (free.part (by simp [Item.parts, Stmt.parts]))) fun _ =>
        .bind (resolveStmtOption_keeps c no fun s member => free.part (by
          simp [Item.parts, Stmt.parts, Option.mem_def.mp member])) fun _ => .pure
  | .whileLoop condition body increment names, free => by
    have inside : ModuleFree (.stmt body) := free.part (by simp [Item.parts, Stmt.parts])
    refine .bind (resolveExpr_keeps c condition (free.part (by simp [Item.parts, Stmt.parts]))) fun _ => ?_
    refine .bind (resolveOption_keeps c increment fun e member => free.part (by
      simp [Item.parts, Stmt.parts, Option.mem_def.mp member])) fun _ => ?_
    cases names with
    | nil => exact .bind (resolveStmt_keeps _ body inside) fun _ => .pure
    | cons name names =>
      exact .bind (.inScope (.bind (declareAll_keeps _) fun _ => resolveStmt_keeps _ body inside)) fun _ => .pure
  | .whenLoop condition body finish, free =>
    .bind (resolveExpr_keeps c condition (free.part (by simp [Item.parts, Stmt.parts]))) fun _ =>
      .bind (resolveStmt_keeps _ body (free.part (by simp [Item.parts, Stmt.parts]))) fun _ =>
        .bind (resolveStmtOption_keeps c finish fun s member => free.part (by
          simp [Item.parts, Stmt.parts, Option.mem_def.mp member])) fun _ => .pure
  | .switch _ value cases default, free => by
    have candidates : ∀ x ∈ cases, ModuleFree (.expr x.1) ∧ ModuleFree (.stmt x.2) := fun x member =>
      ⟨free.part (by simpa [Item.parts, Stmt.parts] using .inr ⟨x.2, member⟩),
        free.part (by simpa [Item.parts, Stmt.parts] using .inl ⟨x.1, member⟩)⟩
    refine .bind (resolveExpr_keeps c value (free.part (by simp [Item.parts, Stmt.parts]))) fun _ => ?_
    refine .bind (resolveCases_keeps _ cases candidates) fun _ => ?_
    exact .bind (resolveStmtOption_keeps _ default fun s member => free.part (by
      simp [Item.parts, Stmt.parts, Option.mem_def.mp member])) fun _ => .pure
  | .tryCatch body name handler, free =>
    have inside : ModuleFree (.body handler) := free.part (by simp [Item.parts, Stmt.parts])
    .bind (resolveStmt_keeps c body (free.part (by simp [Item.parts, Stmt.parts]))) fun _ =>
      .bind (.inScope (.bind (declareAll_keeps _) fun _ => resolveStmts_keeps c handler inside.body)) fun _ => .pure
  | .test _ name body, free =>
    .bind (resolveExpr_keeps c name (free.part (by simp [Item.parts, Stmt.parts]))) fun _ =>
      .bind (resolveStmt_keeps _ body (free.part (by simp [Item.parts, Stmt.parts]))) fun _ => .pure
  | .expect _ value, free => by
    unfold resolveStmt
    split
    · exact .bind (resolveExpr_keeps c value (free.part (by simp [Item.parts, Stmt.parts]))) fun _ => .pure
    · exact .mistake
  | .returning _ value, free => by
    unfold resolveStmt
    split
    · exact .mistake
    split
    · exact .mistake
    · exact .bind (resolveOption_keeps c value fun e member => free.part (by
        simp [Item.parts, Stmt.parts, Option.mem_def.mp member])) fun _ => .pure
  | .breaking _, _ | .continuing _, _ => by
    unfold resolveStmt
    split
    · exact .pure
    · exact .mistake
  | .moduleName line name, free => by
    cases free with
    | intro other _ => exact absurd rfl (other line name)
termination_by structural s => s

theorem resolveStmtOption_keeps (c : Context) :
    (s : Option Stmt) → (∀ x ∈ s, ModuleFree (.stmt x)) → KeepsModule (resolveStmtOption c s)
  | none, _ => .pure
  | some s, free => .bind (resolveStmt_keeps c s (free s rfl)) fun _ => .pure
termination_by structural s => s

theorem resolveStmts_keeps (c : Context) :
    (ss : List Stmt) → (∀ s ∈ ss, ModuleFree (.stmt s)) → KeepsModule (resolveStmts c ss)
  | [], _ => .pure
  | s :: rest, free =>
    .bind (resolveStmt_keeps c s (free s (by simp))) fun _ =>
      .bind (resolveStmts_keeps c rest fun s member => free s (by simp [member])) fun _ => .pure
termination_by structural ss => ss

theorem resolveCases_keeps (c : Context) :
    (cases : List (Expr × Stmt)) → (∀ x ∈ cases, ModuleFree (.expr x.1) ∧ ModuleFree (.stmt x.2)) →
      KeepsModule (resolveCases c cases)
  | [], _ => .pure
  | (candidate, body) :: rest, free =>
    have first := free (candidate, body) (by simp)
    .bind (resolveExpr_keeps c candidate first.1) fun _ => .bind (resolveStmt_keeps c body first.2) fun _ =>
      .bind (resolveCases_keeps c rest fun x member => free x (by simp [member])) fun _ => .pure
termination_by structural cases => cases

theorem resolveVar_keeps (c : Context) :
    (decl : VarDecl) → (∀ e ∈ decl.initializer, ModuleFree (.expr e)) → KeepsModule (resolveVar c decl)
  | ⟨name, _, _, initializer⟩, free =>
    .bind (declare_keeps name) fun _ => .bind (resolveOption_keeps c initializer free) fun _ =>
      .bind (define_keeps name) fun _ => .pure
termination_by structural decl => decl

theorem resolveFieldVar_keeps (c : Context) :
    (decl : VarDecl) → (∀ e ∈ decl.initializer, ModuleFree (.expr e)) → KeepsModule (resolveFieldVar c decl)
  | ⟨_, _, _, initializer⟩, free => .bind (resolveOption_keeps c initializer free) fun _ => .pure
termination_by structural decl => decl

theorem resolveFunction_keeps (c : Context) (role : FunctionRole) :
    (decl : FunctionDecl) → ModuleFree (.function role decl) → KeepsModule (resolveFunction c role decl)
  | ⟨_, _, _, _, body⟩, free =>
    .bind (resolveBody_keeps _ _ body fun ss member => free.part (by
      simp [Item.parts, Option.mem_def.mp member])) fun _ => .pure
termination_by structural decl => decl

theorem resolveBody_keeps (c : Context) (params : List Name) :
    (body : Option (List Stmt)) → (∀ ss ∈ body, ModuleFree (.body ss)) → KeepsModule (resolveBody c params body)
  | none, _ => .pure
  | some ss, free =>
    .inScope (.bind (declareAll_keeps params) fun _ =>
      .bind (resolveStmts_keeps c ss (free ss rfl).body) fun _ => .pure)
termination_by structural body => body

theorem resolveFunctionOption_keeps (c : Context) (role : FunctionRole) :
    (decl : Option FunctionDecl) → (∀ f ∈ decl, ModuleFree (.function role f)) →
      KeepsModule (resolveFunctionOption c role decl)
  | none, _ => .pure
  | some decl, free => .bind (resolveFunction_keeps c role decl (free decl rfl)) fun _ => .pure
termination_by structural decl => decl

theorem resolveMethods_keeps (c : Context) (role : Name → FunctionRole) :
    (decls : List FunctionDecl) → (∀ f ∈ decls, ModuleFree (.function (role f.name) f)) →
      KeepsModule (resolveMethods c role decls)
  | [], _ => .pure
  | decl :: rest, free =>
    .bind (resolveFunction_keeps c _ decl (free decl (by simp))) fun _ =>
      .bind (resolveMethods_keeps c role rest fun f member => free f (by simp [member])) fun _ => .pure
termination_by structural decls => decls

theorem resolveProperty_keeps (c : Context) :
    (decl : PropertyDecl) →
      (∀ f, f = decl.getter ∨ f ∈ decl.setter → ModuleFree (.function .accessor f)) →
      KeepsModule (resolveProperty c decl)
  | ⟨_, _, _, getter, setter⟩, free =>
    .bind (resolveFunction_keeps c .accessor getter (free getter (.inl rfl))) fun _ =>
      .bind (resolveFunctionOption_keeps c .accessor setter fun f member => free f (.inr member)) fun _ => .pure
termination_by structural decl => decl

theorem resolveFields_keeps (c : Context) :
    (fields : List Field) → (∀ field ∈ fields, ∀ part ∈ field.parts {} {}, ModuleFree part.2) →
      KeepsModule (resolveFields c fields)
  | [], _ => .pure
  | .var decl :: rest, free =>
    .bind (resolveFieldVar_keeps c decl fun e member => free (.var decl) (by simp) ({}, .expr e) (by
      simp [Field.parts, VarDecl.parts, Option.mem_def.mp member])) fun _ =>
      .bind (resolveFields_keeps c rest fun field member => free field (by simp [member])) fun _ => .pure
  | .property decl :: rest, free =>
    .bind (.inScope (resolveProperty_keeps c decl fun f member =>
      free (.property decl) (by simp) ({}, .function .accessor f) (by
        simpa [Field.parts, PropertyDecl.parts] using member))) fun _ =>
      .bind (resolveFields_keeps c rest fun field member => free field (by simp [member])) fun _ => .pure
termination_by structural fields => fields

theorem resolveInterfaceVars_keeps (c : Context) :
    (fields : List Field) → (∀ field ∈ fields, ∀ part ∈ field.parts {} {}, ModuleFree part.2) →
      KeepsModule (resolveInterfaceVars c fields)
  | [], _ => .pure
  | .var decl :: rest, free =>
    .bind (resolveFieldVar_keeps c decl fun e member => free (.var decl) (by simp) ({}, .expr e) (by
      simp [Field.parts, VarDecl.parts, Option.mem_def.mp member])) fun _ =>
      .bind (resolveInterfaceVars_keeps c rest fun field member => free field (by simp [member])) fun _ => .pure
  | .property _ :: rest, free =>
    .bind (resolveInterfaceVars_keeps c rest fun field member => free field (by simp [member])) fun _ => .pure
termination_by structural fields => fields

theorem resolveInterfaceProperties_keeps (c : Context) :
    (fields : List Field) → (vars : List (Option VarDecl)) →
      (∀ field ∈ fields, ∀ part ∈ field.parts {} {}, ModuleFree part.2) →
      KeepsModule (resolveInterfaceProperties c fields vars)
  | .property decl :: rest, _ :: vars, free =>
    .bind (resolveProperty_keeps c decl fun f member =>
      free (.property decl) (by simp) ({}, .function .accessor f) (by
        simpa [Field.parts, PropertyDecl.parts] using member)) fun _ =>
      .bind (resolveInterfaceProperties_keeps c rest vars fun field member =>
        free field (by simp [member])) fun _ => .pure
  | .var _ :: rest, some _ :: vars, free =>
    .bind (resolveInterfaceProperties_keeps c rest vars fun field member =>
      free field (by simp [member])) fun _ => .pure
  | [], _, _ => .pure
  | .var _ :: _, none :: _, _ => .pure
  | .var _ :: _, [], _ => .pure
  | .property _ :: _, [], _ => .pure
termination_by structural fields => fields

theorem resolveClass_keeps (c : Context) :
    (decl : ClassDecl) → (∀ q ∈ decl.parts {}, ModuleFree q.2) → KeepsModule (resolveClass c decl)
  | ⟨name, superclass, interfaces, templates, fields, methods⟩, free => by
    have inFields : ∀ field ∈ fields, ∀ part ∈ field.parts {} {}, ModuleFree part.2 :=
      .fields free fun part member => by
        simp only [ClassDecl.parts, List.mem_append]
        exact .inl (.inr member)
    have inMethods : ∀ f ∈ methods, ModuleFree (.function (methodRole f.name) f) := fun f member =>
      free _ (List.mem_append_right _ (List.mem_map_of_mem member))
    refine .bind (declareDefined_keeps name) fun _ => .bind (resolveSuperclass_keeps name superclass) fun _ => ?_
    refine .bind (resolveUses_keeps interfaces) fun _ => .bind (.inScope ?_) fun _ => .pure
    refine .bind (declareAll_keeps templates) fun _ => .bind (resolveFields_keeps _ fields inFields) fun _ => ?_
    exact .bind (.inScope (resolveMethods_keeps _ methodRole methods inMethods)) fun _ => .pure
termination_by structural decl => decl

theorem resolveInterface_keeps (c : Context) :
    (decl : InterfaceDecl) → (∀ q ∈ decl.parts {}, ModuleFree q.2) → KeepsModule (resolveInterface c decl)
  | ⟨name, fields, methods⟩, free => by
    have inFields : ∀ field ∈ fields, ∀ part ∈ field.parts {} {}, ModuleFree part.2 :=
      .fields free fun part member => by
        simp only [InterfaceDecl.parts, List.mem_append]
        exact .inl member
    have inMethods : ∀ f ∈ methods, ModuleFree (.function .method f) := fun f member =>
      free _ (List.mem_append_right _ (List.mem_map_of_mem member))
    refine .bind (declareDefined_keeps name) fun _ => .bind (resolveInterfaceVars_keeps _ fields inFields) fun _ => ?_
    refine .inScope (.bind (resolveInterfaceProperties_keeps _ fields _ inFields) fun _ => ?_)
    exact .bind (resolveMethods_keeps _ (fun _ => .method) methods inMethods) fun _ => .pure
termination_by structural decl => decl

end

/-- Statements that do not name the module leave it without a name, or with the name that it has. -/
theorem moduleAfter_free {p : List Stmt} (free : ∀ s ∈ p, ModuleFree (.stmt s)) (moduleName : Option String) :
    moduleAfter moduleName p = moduleName := by
  induction p with
  | nil => rfl
  | cons first rest ih =>
    have kept : (reached (resolveStmt {} first ⟨[], moduleName⟩)).moduleName = moduleName :=
      resolveStmt_keeps {} first (free first (by simp)) ⟨[], moduleName⟩
    rw [moduleAfter, kept]
    exact ih fun s member => free s (by simp [member])

theorem numberStmts_append (p q : List Stmt) (n : Nat) :
    numberStmts (p ++ q) n = ((numberStmts p n).1 ++ (numberStmts q (numberStmts p n).2).1,
      (numberStmts q (numberStmts p n).2).2) := by
  induction p generalizing n with
  | nil => rfl
  | cons s rest ih =>
    change ((numberStmt s n).1 :: (numberStmts (rest ++ q) (numberStmt s n).2).1,
      (numberStmts (rest ++ q) (numberStmt s n).2).2) = _
    rw [ih]
    rfl

theorem record_append (p q : List Stmt) (r : Resolver) :
    record (p ++ q) r = ((record p r).1 ++ (record q (record p r).2).1, (record q (record p r).2).2) := by
  induction p generalizing r with
  | nil => rfl
  | cons s rest ih =>
    simp only [List.cons_append, record]
    cases recordStmt s r with
    | ok _ after => exact ih after
    | error e after => simp only [ih, List.cons_append]

/-- What the resolver makes of a program whose references have ids from a number on, with the table that it finds. -/
def resolveFrom (n : Nat) (L : Locals) (program : List Stmt) : List ScopeError × Resolver :=
  record (numberStmts program n).1 { locals := L }

/-- After a program that does not name the module the resolver is as it was before, but for its table. -/
theorem resolveFrom_free {program : List Stmt} (formed : ∀ s ∈ program, Formed (.stmt s) ∧ s.loopNames = [])
    (free : ∀ s ∈ program, ModuleFree (.stmt s)) (n : Nat) :
    ∃ entries : Locals, entries.Between n (numberStmts program n).2 ∧
      ∀ L, resolveFrom n L program = ((resolveEach none program).2, { locals := entries ++ L }) := by
  obtain ⟨-, entries, between, runs, -⟩ := record_numbered formed n none
  refine ⟨entries, between, fun L => ?_⟩
  have run := runs L
  rw [moduleAfter_free free] at run
  exact run

theorem resolveFrom_append (p q : List Stmt) (n : Nat) (L : Locals) :
    resolveFrom n L (p ++ q) =
      ((resolveFrom n L p).1 ++ (record (numberStmts q (numberStmts p n).2).1 (resolveFrom n L p).2).1,
        (record (numberStmts q (numberStmts p n).2).1 (resolveFrom n L p).2).2) := by
  rw [resolveFrom, numberStmts_append, record_append]
  rfl

end Scoping

open Scoping

/-- A program that a text stands for before its names are resolved. -/
def Parsed (program : List Stmt) : Prop :=
  ∃ source tokens, scan source = .ok tokens ∧ parse tokens = .ok program

namespace Parsed

variable {program : List Stmt}

theorem formed (parsed : Parsed program) : ∀ s ∈ program, Formed (.stmt s) ∧ s.loopNames = [] := by
  obtain ⟨source, tokens, scanned, done⟩ := parsed
  exact parse_formed (scan_genuine scanned) done

theorem load (parsed : Parsed program) :
    ∃ source, Treewalk.load source = (Treewalk.resolve program).mapError Rejection.scope := by
  obtain ⟨source, tokens, scanned, done⟩ := parsed
  refine ⟨source, ?_⟩
  rw [Treewalk.load, scanned]
  change ((parse tokens).mapError Rejection.parse >>= _) = _
  rw [done]
  rfl

end Parsed

theorem Machine.interpret_append {fuel : Nat} {p : List Stmt} {m middle : Machine}
    (done : m.interpret fuel p = (none, middle)) (q : List Stmt) :
    m.interpret fuel (p ++ q) = middle.interpret fuel q := by
  induction p generalizing m with
  | nil =>
    cases done
    rfl
  | cons first rest ih =>
    simp only [List.cons_append, interpret] at done ⊢
    split at done
    · exact ih done
    · cases done

namespace Session

variable {s t u : Session} {p q p₁ q₁ : List Stmt}

theorem resolve_eq (s : Session) (program : List Stmt) :
    s.resolve program =
      (if (resolveFrom s.nextId s.locals program).1.isEmpty then .ok (numberStmts program s.nextId).1
        else .error (Rejection.scope (resolveFrom s.nextId s.locals program).1),
        { s with
          nextId := (numberStmts program s.nextId).2
          locals := (resolveFrom s.nextId s.locals program).2.locals }) :=
  rfl

theorem resolve_ok (done : s.resolve p = (.ok p₁, t)) :
    (resolveFrom s.nextId s.locals p).1 = [] ∧ p₁ = (numberStmts p s.nextId).1 ∧
      t = { s with
        nextId := (numberStmts p s.nextId).2
        locals := (resolveFrom s.nextId s.locals p).2.locals } := by
  rw [resolve_eq] at done
  obtain ⟨verdict, rfl⟩ := Prod.mk.inj done
  split at verdict
  · rename_i none
    exact ⟨List.isEmpty_iff.mp none, (Except.ok.inj verdict).symm, rfl⟩
  · cases verdict

theorem resolve_append (first : Parsed p) (free : ∀ s ∈ p, ModuleFree (.stmt s)) (left : s.resolve p = (.ok p₁, t))
    (right : t.resolve q = (.ok q₁, u)) : s.resolve (p ++ q) = (.ok (p₁ ++ q₁), u) := by
  obtain ⟨none, rfl, rfl⟩ := resolve_ok left
  obtain ⟨none', rfl, rfl⟩ := resolve_ok right
  obtain ⟨entries, -, runs⟩ := resolveFrom_free first.formed free s.nextId
  have back : (resolveFrom s.nextId s.locals p).2 = { locals := (resolveFrom s.nextId s.locals p).2.locals } := by
    rw [runs]
  have whole := resolveFrom_append p q s.nextId s.locals
  rw [back, none] at whole
  change _ = ([] ++ (resolveFrom _ (resolveFrom s.nextId s.locals p).2.locals q).1,
    (resolveFrom _ (resolveFrom s.nextId s.locals p).2.locals q).2) at whole
  rw [none'] at whole
  rw [resolve_eq, whole, numberStmts_append]
  rfl

theorem resolve_machine (s : Session) (m : Machine) (program : List Stmt) :
    resolve program { s with machine := m } = ((s.resolve program).1, { (s.resolve program).2 with machine := m }) :=
  rfl

theorem finish_machine (s : Session) (m : Machine) (ended : Option Stop × Machine) :
    finish { s with machine := m } ended = s.finish ended := by
  rcases ended with ⟨_ | (_ | _ | _), _⟩ <;> rfl

theorem runProgram_append {H : List Event} (coherent : s.Coherent H) (first : Parsed p) (second : Parsed q)
    (free : ∀ s ∈ p, ModuleFree (.stmt s)) (left : s.resolve p = (.ok p₁, t)) (right : t.resolve q = (.ok q₁, u))
    {fuel : Nat} (ends : (t.interpret fuel p₁).1 = none) :
    s.runProgram fuel (p ++ q) = (s.runProgram fuel p).runProgram fuel q := by
  obtain ⟨source, load⟩ := first.load
  have loads := s.resolve_loads first.formed
  have loads' := t.resolve_loads second.formed
  have later := coherent.runLoaded (load ▸ loads) fuel
  rw [runProgram, runProgram, runProgram, resolve_append first free left right]
  rw [left] at loads later ⊢
  have middle : runLoaded fuel (.ok p₁, t) = { t with machine := (t.interpret fuel p₁).2 } := by
    rw [runLoaded, ← Prod.eta (t.interpret fuel p₁), ends]
    rfl
  rw [middle] at later ⊢
  rw [resolve_machine, right, runLoaded, runLoaded]
  refine Eq.trans (congrArg u.finish ?_) (finish_machine u _ _).symm
  rw [right] at loads'
  generalize (Treewalk.resolve p).mapError Rejection.scope = verdict at loads
  generalize (Treewalk.resolve q).mapError Rejection.scope = verdict' at loads'
  cases loads with
  | @accepted _ _ linked nextId entries le between alike links =>
    cases loads' with
    | @accepted _ _ linked' nextId' entries' le' between' alike' links' =>
      have afterP := coherent.later le between
      have afterQ := afterP.later le' between'
      -- The entries for the second part are about other ids than those of the first.
      have linkP : p₁.map (Stmt.relabel (.link (entries' ++ (entries ++ s.locals)))) = linked := by
        refine links _ fun id above below => ?_
        rw [between'.agree_old id (Nat.zero_le id) below, coherent.below.agree_new id above below]
      have linkQ : q₁.map (Stmt.relabel (.link (entries' ++ (entries ++ s.locals)))) = linked' :=
        links' _ afterP.below.agree_new
      rw [coherent.interpret le between links] at ends later ⊢
      refine Eq.trans ?_ (Coherent.interpret later le' between' links' fuel).symm
      unfold Session.interpret
      dsimp only
      rw [afterQ.linked fun _ _ _ => rfl, List.map_append, linkP, linkQ]
      exact Machine.interpret_append (Prod.ext ends rfl) linked'

end Session

/-- A program splits between any two of its statements, unless they name the module. The references of the whole have
the ids that those of the parts have. The mistakes are those of the first part and then those of the second. Every id
has the distance that the part gives it, and the resolver ends each part as it began, even if there are mistakes in
it. To run the whole in a session is to run one part after the other. -/
theorem programs_split {p q : List Stmt} (first : Parsed p) (second : Parsed q)
    (free : ∀ s ∈ p, ModuleFree (.stmt s)) (free' : ∀ s ∈ q, ModuleFree (.stmt s)) :
    (∀ n L,
      let middle := (numberStmts p n).2
      let left := resolveFrom n L p
      let right := resolveFrom middle L q
      let whole := resolveFrom n L (p ++ q)
      numberStmts (p ++ q) n = ((numberStmts p n).1 ++ (numberStmts q middle).1, (numberStmts q middle).2) ∧
      whole.1 = left.1 ++ right.1 ∧
      (∀ id < middle, whole.2.locals.lookup id = left.2.locals.lookup id) ∧
      (∀ id ≥ middle, whole.2.locals.lookup id = right.2.locals.lookup id) ∧
      left.2 = { locals := left.2.locals } ∧ right.2 = { locals := right.2.locals } ∧
      whole.2 = { locals := whole.2.locals }) ∧
    ∀ {H s}, Session.Reached H s → ∀ {p₁ q₁ t u}, s.resolve p = (.ok p₁, t) → t.resolve q = (.ok q₁, u) →
      s.resolve (p ++ q) = (.ok (p₁ ++ q₁), u) ∧
      ∀ fuel, (t.interpret fuel p₁).1 = none →
        s.runProgram fuel (p ++ q) = (s.runProgram fuel p).runProgram fuel q := by
  refine ⟨fun n L => ?_, fun reached _ _ _ _ left right => ⟨Session.resolve_append first free left right, fun fuel ends =>
    Session.runProgram_append reached.coherent first second free left right ends⟩⟩
  obtain ⟨entries, between, runs⟩ := resolveFrom_free first.formed free n
  obtain ⟨entries', between', runs'⟩ := resolveFrom_free second.formed free' (numberStmts p n).2
  have whole : resolveFrom n L (p ++ q) = ((resolveEach none p).2 ++ (resolveEach none q).2,
      { locals := entries' ++ (entries ++ L) }) := by
    rw [resolveFrom_append, runs]
    exact congrArg (fun later => ((resolveEach none p).2 ++ later.1, later.2)) (runs' (entries ++ L))
  dsimp only
  rw [whole, runs, runs']
  refine ⟨numberStmts_append p q n, rfl, fun id below => ?_, fun id above => ?_, rfl, rfl, rfl⟩
  · rw [Locals.lookup_append, between'.lookup (.inl below), Option.none_or]
  · rw [Locals.lookup_append, Locals.lookup_append, Locals.lookup_append, between.lookup (.inr above), Option.none_or]

/-- Looks for the declaration of a module down to some depth; what is deeper is taken for one. -/
def Scoping.moduleFree? : Nat → Item → Bool
  | 0, _ => false
  | _, .stmt (.moduleName ..) => false
  | depth + 1, item => (item.parts {}).all fun q => moduleFree? depth q.2

theorem Scoping.moduleFree_of {depth : Nat} {item : Item} (checked : moduleFree? depth item = true) :
    ModuleFree item := by
  induction depth generalizing item with
  | zero => cases checked
  | succ depth ih =>
    unfold moduleFree? at checked
    split at checked
    · cases checked
    · cases checked
    · rename_i more other
      cases more
      exact .intro other fun q member => ih (List.all_eq_true.mp checked q member)

def freeProgram? (source : String) : Option (List Stmt) :=
  match scan source with
  | .error _ => none
  | .ok tokens =>
    match parse tokens with
    | .error _ => none
    | .ok program => if program.all (moduleFree? 20 <| .stmt ·) then some program else none

theorem freeProgram?_some {source : String} {program : List Stmt} (found : freeProgram? source = some program) :
    Parsed program ∧ ∀ s ∈ program, ModuleFree (.stmt s) := by
  unfold freeProgram? at found
  split at found
  · cases found
  · rename_i tokens scanned
    split at found
    · cases found
    · rename_i parsed
      split at found
      · rename_i free
        cases found
        exact ⟨⟨source, tokens, scanned, parsed⟩, fun s member => moduleFree_of (List.all_eq_true.mp free s member)⟩
      · cases found

/-- What two programs print, one after the other, if both are accepted and the first comes to its end. -/
def Session.printed? (fuel : Nat) (p q : List Stmt) (s : Session) : Option String :=
  match s.resolve p with
  | (.error _, _) => none
  | (.ok p₁, t) =>
    match t.resolve q with
    | (.error _, _) => none
    | (.ok _, _) =>
      match t.interpret fuel p₁ with
      | (some _, _) => none
      | (none, _) => some ((s.runProgram fuel p).runProgram fuel q).machine.out

/-- A class with a loop in a method, a function that makes an instance of the class, and a block that calls it. -/
def summingSource : String :=
  "class A \x7b var n = \"b\"; method m(x) \x7b " ++
    "for (var i = \"\"; i != \"aa\"; i = i + \"a\") \x7b x = x + this.n; \x7d return x; \x7d \x7d " ++
    "fun f(x) \x7b return A().m(x); \x7d \x7b var y = f(\"a\"); println(y); \x7d"

def callingSource : String :=
  "var n = f(\"c\"); while (n != \"cbba\") \x7b n = n + \"a\"; \x7d println(n);"

def nestedSource : String :=
  "class B \x7b method m() \x7b while (true) \x7b var k = nil; println(k); var k; \x7d \x7d \x7d"

/-- What may stand in a loop, in a function or in a class only. -/
def strayingSource : String :=
  "break; return nil; this;"

set_option maxRecDepth 100000 in
theorem summing_printed :
    (freeProgram? summingSource).any (fun p => (freeProgram? callingSource).any fun q =>
      (Session.start {}).printed? 30 p q = some "abb\ncbba\n") = true := by
  decide +kernel

set_option maxRecDepth 100000 in
theorem nested_mistakes :
    (freeProgram? nestedSource).any (fun p => (freeProgram? strayingSource).any fun q =>
      (resolveFrom 0 [] p).1.length = 1 ∧ (resolveFrom 0 [] p).2.locals.length = 1 ∧
        (resolveFrom (numberStmts p 0).2 [] q).1.length = 3) = true := by
  decide +kernel

/-- The parts of one program run one after the other. Of another one the first part is abandoned inside a loop, a
method and a class, and the statements after it are still found to be outside of all these. -/
theorem programs_split_summing :
    (∃ p q, freeProgram? summingSource = some p ∧ freeProgram? callingSource = some q ∧
      ((Session.start {}).runProgram 30 (p ++ q)).machine.out = "abb\ncbba\n") ∧
    ∃ p q, freeProgram? nestedSource = some p ∧ freeProgram? strayingSource = some q ∧
      (resolveFrom 0 [] (p ++ q)).1.length = 4 := by
  constructor
  · obtain ⟨p, left, found⟩ := (Option.any_eq_true ..).mp summing_printed
    obtain ⟨q, right, printed⟩ := (Option.any_eq_true ..).mp found
    refine ⟨p, q, left, right, ?_⟩
    obtain ⟨parsed, free⟩ := freeProgram?_some left
    obtain ⟨parsed', free'⟩ := freeProgram?_some right
    obtain ⟨-, run⟩ := programs_split parsed parsed' free free'
    have printed := of_decide_eq_true printed
    unfold Session.printed? at printed
    split at printed
    · cases printed
    · rename_i first
      split at printed
      · cases printed
      · rename_i second
        split at printed
        · cases printed
        · rename_i ended
          rw [(run (.start {}) first second).2 30 (congrArg Prod.fst ended)]
          exact Option.some.inj printed
  · obtain ⟨p, left, found⟩ := (Option.any_eq_true ..).mp nested_mistakes
    obtain ⟨q, right, counted⟩ := (Option.any_eq_true ..).mp found
    refine ⟨p, q, left, right, ?_⟩
    obtain ⟨parsed, free⟩ := freeProgram?_some left
    obtain ⟨parsed', free'⟩ := freeProgram?_some right
    obtain ⟨-, mistakes, -⟩ := (programs_split parsed parsed' free free').1 0 []
    obtain ⟨one, -, three⟩ := of_decide_eq_true counted
    rw [mistakes, List.length_append, one, three]

end Treewalk
