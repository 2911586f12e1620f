import Treewalk.Proofs.Seat

/-!
The code of two machines that are tied together. Paired pieces of code have the same form, and differ in the
depths of their references only, as the seat asks for. Functions, classes, interfaces and properties stand at a
free seat only, where both are the same.
-/

namespace Treewalk

/-- What runs in one scope. -/
inductive Code where
  | expr (e : Expr)
  | option (e : Option Expr)
  | exprs (es : List Expr)
  | stmt (s : Stmt)
  | branch (s : Option Stmt)
  | stmts (ss : List Stmt)
  | cases (cases : List (Expr × Stmt))

inductive Paired : Seat → Code → Code → Prop where
  | literal {seat : Seat} (value : Literal) : Paired seat (.expr (.literal value)) (.expr (.literal value))
  | type {seat : Seat} (line : Line) (desc : TypeDesc) :
      Paired seat (.expr (.type line desc)) (.expr (.type line desc))
  | lambda (decl : FunctionDecl) : Paired .free (.expr (.lambda decl)) (.expr (.lambda decl))
  | group {seat : Seat} {e e' : Expr} (inner : Paired seat (.expr e) (.expr e')) :
      Paired seat (.expr (.group e)) (.expr (.group e'))
  | unary {seat : Seat} {op : UnaryOp} {line : Line} {e e' : Expr} (operand : Paired seat (.expr e) (.expr e')) :
      Paired seat (.expr (.unary op line e)) (.expr (.unary op line e'))
  | binary {seat : Seat} {op : BinaryOp} {line : Line} {l l' r r' : Expr} (left : Paired seat (.expr l) (.expr l'))
      (right : Paired seat (.expr r) (.expr r')) :
      Paired seat (.expr (.binary op line l r)) (.expr (.binary op line l' r'))
  | logical {seat : Seat} {op : LogicalOp} {line : Line} {l l' r r' : Expr}
      (left : Paired seat (.expr l) (.expr l')) (right : Paired seat (.expr r) (.expr r')) :
      Paired seat (.expr (.logical op line l r)) (.expr (.logical op line l' r'))
  | ternary {seat : Seat} {line : Line} {c c' y y' n n' : Expr} (condition : Paired seat (.expr c) (.expr c'))
      (yes : Paired seat (.expr y) (.expr y')) (no : Paired seat (.expr n) (.expr n')) :
      Paired seat (.expr (.ternary line c y n)) (.expr (.ternary line c' y' n'))
  | use {seat : Seat} {ref ref' : Reference} (located : ref.Paired seat ref') :
      Paired seat (.expr (.use ref)) (.expr (.use ref'))
  | this {seat : Seat} {ref ref' : Reference} (located : ref.Paired seat ref') :
      Paired seat (.expr (.this ref)) (.expr (.this ref'))
  | value {seat : Seat} {ref ref' : Reference} (located : ref.Paired seat ref') :
      Paired seat (.expr (.value ref)) (.expr (.value ref'))
  | super {seat : Seat} {ref : Reference} {method : Name}
      (other : ∀ name depth, seat = .inside (some (name, depth)) → ref.name.text ≠ name ∧ "this" ≠ name) :
      Paired seat (.expr (.super ref method)) (.expr (.super ref method))
  | assign {seat : Seat} {ref ref' : Reference} {site : AssignSite} {e e' : Option Expr}
      (located : ref.Paired seat ref') (operand : Paired seat (.option e) (.option e')) :
      Paired seat (.expr (.assign ref site e)) (.expr (.assign ref' site e'))
  | call {seat : Seat} {line : Line} {nullSafe : Bool} {e e' : Expr} {as as' gs gs' : List Expr}
      (callee : Paired seat (.expr e) (.expr e')) (args : Paired seat (.exprs as) (.exprs as'))
      (generics : Paired seat (.exprs gs) (.exprs gs')) :
      Paired seat (.expr (.call e line as gs nullSafe)) (.expr (.call e' line as' gs' nullSafe))
  | get {seat : Seat} {name : Name} {nullSafe : Bool} {e e' : Expr} (object : Paired seat (.expr e) (.expr e')) :
      Paired seat (.expr (.get e name nullSafe)) (.expr (.get e' name nullSafe))
  | staticGet {seat : Seat} {name : Name} {e e' : Expr} (object : Paired seat (.expr e) (.expr e')) :
      Paired seat (.expr (.staticGet e name)) (.expr (.staticGet e' name))
  | set {seat : Seat} {name : Name} {site : AssignSite} {e e' : Expr} {v v' : Option Expr}
      (object : Paired seat (.expr e) (.expr e')) (operand : Paired seat (.option v) (.option v')) :
      Paired seat (.expr (.set e name site v)) (.expr (.set e' name site v'))
  | staticSet {seat : Seat} {name : Name} {site : AssignSite} {e e' : Expr} {v v' : Option Expr}
      (object : Paired seat (.expr e) (.expr e')) (operand : Paired seat (.option v) (.option v')) :
      Paired seat (.expr (.staticSet e name site v)) (.expr (.staticSet e' name site v'))
  | index {seat : Seat} {line : Line} {e e' i i' : Expr} (object : Paired seat (.expr e) (.expr e'))
      (position : Paired seat (.expr i) (.expr i')) :
      Paired seat (.expr (.index e line i)) (.expr (.index e' line i'))
  | indexSet {seat : Seat} {line : Line} {site : AssignSite} {e e' i i' : Expr} {v v' : Option Expr}
      (object : Paired seat (.expr e) (.expr e')) (position : Paired seat (.expr i) (.expr i'))
      (operand : Paired seat (.option v) (.option v')) :
      Paired seat (.expr (.indexSet e line i site v)) (.expr (.indexSet e' line i' site v'))
  | cast {seat : Seat} {line : Line} {e e' t t' : Expr} (operand : Paired seat (.expr e) (.expr e'))
      (target : Paired seat (.expr t) (.expr t')) :
      Paired seat (.expr (.cast e line t)) (.expr (.cast e' line t'))
  | array {seat : Seat} {line : Line} {elementType : Option TypeDesc} {es es' : List Expr}
      (elements : Paired seat (.exprs es) (.exprs es')) :
      Paired seat (.expr (.array line elementType es)) (.expr (.array line elementType es'))
  | sizedArray {seat : Seat} {line : Line} {elementType : TypeDesc} {e e' : Expr}
      (size : Paired seat (.expr e) (.expr e')) :
      Paired seat (.expr (.sizedArray line elementType e)) (.expr (.sizedArray line elementType e'))
  | length {seat : Seat} {line : Line} {e e' : Expr} (operand : Paired seat (.expr e) (.expr e')) :
      Paired seat (.expr (.length line e)) (.expr (.length line e'))
  | typeOf {seat : Seat} {line : Line} {e e' : Expr} (operand : Paired seat (.expr e) (.expr e')) :
      Paired seat (.expr (.typeOf line e)) (.expr (.typeOf line e'))
  | absent {seat : Seat} : Paired seat (.option none) (.option none)
  | present {seat : Seat} {e e' : Expr} (inner : Paired seat (.expr e) (.expr e')) :
      Paired seat (.option (some e)) (.option (some e'))
  | noExprs {seat : Seat} : Paired seat (.exprs []) (.exprs [])
  | moreExprs {seat : Seat} {e e' : Expr} {es es' : List Expr} (first : Paired seat (.expr e) (.expr e'))
      (rest : Paired seat (.exprs es) (.exprs es')) : Paired seat (.exprs (e :: es)) (.exprs (e' :: es'))
  | expression {seat : Seat} {e e' : Expr} (inner : Paired seat (.expr e) (.expr e')) :
      Paired seat (.stmt (.expr e)) (.stmt (.expr e'))
  | var {seat : Seat} {name : Name} {modifiers : Modifiers} {declared : Option TypeDesc} {v v' : Option Expr}
      (declares : seat.Open) (initializer : Paired seat (.option v) (.option v')) :
      Paired seat (.stmt (.var ⟨name, modifiers, declared, v⟩)) (.stmt (.var ⟨name, modifiers, declared, v'⟩))
  | property (decl : PropertyDecl) : Paired .free (.stmt (.property decl)) (.stmt (.property decl))
  | function (decl : FunctionDecl) : Paired .free (.stmt (.function decl)) (.stmt (.function decl))
  | classDecl (decl : ClassDecl) : Paired .free (.stmt (.classDecl decl)) (.stmt (.classDecl decl))
  | interfaceDecl (decl : InterfaceDecl) :
      Paired .free (.stmt (.interfaceDecl decl)) (.stmt (.interfaceDecl decl))
  | enumDecl {seat : Seat} {name : Name} {elements : List Name} (declares : seat.Open) :
      Paired seat (.stmt (.enumDecl name elements)) (.stmt (.enumDecl name elements))
  | block {seat : Seat} {ss ss' : List Stmt} (body : Paired seat.inner (.stmts ss) (.stmts ss')) :
      Paired seat (.stmt (.block ss)) (.stmt (.block ss'))
  | ifElse {seat : Seat} {e e' : Expr} {s s' : Stmt} {n n' : Option Stmt}
      (condition : Paired seat (.expr e) (.expr e')) (yes : Paired seat (.stmt s) (.stmt s'))
      (no : Paired seat (.branch n) (.branch n')) :
      Paired seat (.stmt (.ifElse e s n)) (.stmt (.ifElse e' s' n'))
  | whileLoop {seat : Seat} {e e' : Expr} {s s' : Stmt} {i i' : Option Expr}
      (condition : Paired seat (.expr e) (.expr e')) (body : Paired seat (.stmt s) (.stmt s'))
      (increment : Paired seat (.option i) (.option i')) :
      Paired seat (.stmt (.whileLoop e s i [])) (.stmt (.whileLoop e' s' i' []))
  | copyingLoop {seat : Seat} {e e' : Expr} {s s' : Stmt} {i i' : Option Expr} {name : Name}
      {names : List Name} (declares : seat.Open) (condition : Paired seat (.expr e) (.expr e'))
      (body : Paired seat.inner (.stmt s) (.stmt s')) (increment : Paired seat (.option i) (.option i')) :
      Paired seat (.stmt (.whileLoop e s i (name :: names))) (.stmt (.whileLoop e' s' i' (name :: names)))
  | whenLoop {seat : Seat} {e e' : Expr} {s s' : Stmt} {f f' : Option Stmt}
      (condition : Paired seat (.expr e) (.expr e')) (body : Paired seat (.stmt s) (.stmt s'))
      (finish : Paired seat (.branch f) (.branch f')) :
      Paired seat (.stmt (.whenLoop e s f)) (.stmt (.whenLoop e' s' f'))
  | switch {seat : Seat} {line : Line} {e e' : Expr} {cs cs' : List (Expr × Stmt)} {d d' : Option Stmt}
      (value : Paired seat (.expr e) (.expr e')) (cases : Paired seat (.cases cs) (.cases cs'))
      (default : Paired seat (.branch d) (.branch d')) :
      Paired seat (.stmt (.switch line e cs d)) (.stmt (.switch line e' cs' d'))
  | tryCatch {seat : Seat} {name : Option Name} {s s' : Stmt} {ss ss' : List Stmt}
      (body : Paired seat (.stmt s) (.stmt s')) (handler : Paired seat.inner (.stmts ss) (.stmts ss')) :
      Paired seat (.stmt (.tryCatch s name ss)) (.stmt (.tryCatch s' name ss'))
  | test {seat : Seat} {line : Line} {e e' : Expr} {s s' : Stmt} (name : Paired seat (.expr e) (.expr e'))
      (body : Paired seat (.stmt s) (.stmt s')) :
      Paired seat (.stmt (.test line e s)) (.stmt (.test line e' s'))
  | expect {seat : Seat} {line : Line} {e e' : Expr} (value : Paired seat (.expr e) (.expr e')) :
      Paired seat (.stmt (.expect line e)) (.stmt (.expect line e'))
  | returning {seat : Seat} {line : Line} {v v' : Option Expr} (value : Paired seat (.option v) (.option v')) :
      Paired seat (.stmt (.returning line v)) (.stmt (.returning line v'))
  | breaking {seat : Seat} (line : Line) : Paired seat (.stmt (.breaking line)) (.stmt (.breaking line))
  | continuing {seat : Seat} (line : Line) : Paired seat (.stmt (.continuing line)) (.stmt (.continuing line))
  | moduleName {seat : Seat} (line : Line) (name : Name) :
      Paired seat (.stmt (.moduleName line name)) (.stmt (.moduleName line name))
  | noBranch {seat : Seat} : Paired seat (.branch none) (.branch none)
  | branch {seat : Seat} {s s' : Stmt} (inner : Paired seat (.stmt s) (.stmt s')) :
      Paired seat (.branch (some s)) (.branch (some s'))
  | noStmts {seat : Seat} : Paired seat (.stmts []) (.stmts [])
  | moreStmts {seat : Seat} {s s' : Stmt} {ss ss' : List Stmt} (first : Paired seat (.stmt s) (.stmt s'))
      (rest : Paired seat (.stmts ss) (.stmts ss')) : Paired seat (.stmts (s :: ss)) (.stmts (s' :: ss'))
  | noCases {seat : Seat} : Paired seat (.cases []) (.cases [])
  | moreCases {seat : Seat} {e e' : Expr} {s s' : Stmt} {cs cs' : List (Expr × Stmt)}
      (candidate : Paired seat (.expr e) (.expr e')) (body : Paired seat (.stmt s) (.stmt s'))
      (rest : Paired seat (.cases cs) (.cases cs')) :
      Paired seat (.cases ((e, s) :: cs)) (.cases ((e', s') :: cs'))

theorem Reference.Paired.free (ref : Reference) : ref.Paired .free ref :=
  .same fun _ _ impossible => by cases impossible

namespace Paired

mutual

theorem freeExpr : (e : Expr) → Paired .free (.expr e) (.expr e)
  | .literal v => .literal v
  | .group e => .group (freeExpr e)
  | .unary _ _ e => .unary (freeExpr e)
  | .binary _ _ l r => .binary (freeExpr l) (freeExpr r)
  | .logical _ _ l r => .logical (freeExpr l) (freeExpr r)
  | .ternary _ c y n => .ternary (freeExpr c) (freeExpr y) (freeExpr n)
  | .use ref => .use (.free ref)
  | .this ref => .this (.free ref)
  | .value ref => .value (.free ref)
  | .super _ _ => .super fun _ _ impossible => by cases impossible
  | .assign ref _ v => .assign (.free ref) (freeOption v)
  | .call e _ args generics _ => .call (freeExpr e) (freeExprs args) (freeExprs generics)
  | .get e _ _ => .get (freeExpr e)
  | .staticGet e _ => .staticGet (freeExpr e)
  | .set e _ _ v => .set (freeExpr e) (freeOption v)
  | .staticSet e _ _ v => .staticSet (freeExpr e) (freeOption v)
  | .index e _ i => .index (freeExpr e) (freeExpr i)
  | .indexSet e _ i _ v => .indexSet (freeExpr e) (freeExpr i) (freeOption v)
  | .cast e _ t => .cast (freeExpr e) (freeExpr t)
  | .array _ _ es => .array (freeExprs es)
  | .sizedArray _ _ e => .sizedArray (freeExpr e)
  | .lambda decl => .lambda decl
  | .type line desc => .type line desc
  | .length _ e => .length (freeExpr e)
  | .typeOf _ e => .typeOf (freeExpr e)
termination_by structural e => e

theorem freeOption : (e : Option Expr) → Paired .free (.option e) (.option e)
  | none => .absent
  | some e => .present (freeExpr e)
termination_by structural e => e

theorem freeExprs : (es : List Expr) → Paired .free (.exprs es) (.exprs es)
  | [] => .noExprs
  | e :: rest => .moreExprs (freeExpr e) (freeExprs rest)
termination_by structural es => es

theorem freeStmt : (s : Stmt) → Paired .free (.stmt s) (.stmt s)
  | .expr e => .expression (freeExpr e)
  | .var ⟨_, _, _, v⟩ => .var trivial (freeOption v)
  | .property decl => .property decl
  | .function decl => .function decl
  | .classDecl decl => .classDecl decl
  | .interfaceDecl decl => .interfaceDecl decl
  | .enumDecl _ _ => .enumDecl trivial
  | .block body => .block (freeStmts body)
  | .ifElse c y n => .ifElse (freeExpr c) (freeStmt y) (freeBranch n)
  | .whileLoop c s i [] => .whileLoop (freeExpr c) (freeStmt s) (freeOption i)
  | .whileLoop c s i (_ :: _) => .copyingLoop trivial (freeExpr c) (freeStmt s) (freeOption i)
  | .whenLoop c s f => .whenLoop (freeExpr c) (freeStmt s) (freeBranch f)
  | .switch _ e cs d => .switch (freeExpr e) (freeCases cs) (freeBranch d)
  | .tryCatch s _ handler => .tryCatch (freeStmt s) (freeStmts handler)
  | .test _ e s => .test (freeExpr e) (freeStmt s)
  | .expect _ e => .expect (freeExpr e)
  | .returning _ v => .returning (freeOption v)
  | .breaking line => .breaking line
  | .continuing line => .continuing line
  | .moduleName line name => .moduleName line name
termination_by structural s => s

theorem freeBranch : (s : Option Stmt) → Paired .free (.branch s) (.branch s)
  | none => .noBranch
  | some s => .branch (freeStmt s)
termination_by structural s => s

theorem freeStmts : (ss : List Stmt) → Paired .free (.stmts ss) (.stmts ss)
  | [] => .noStmts
  | s :: rest => .moreStmts (freeStmt s) (freeStmts rest)
termination_by structural ss => ss

theorem freeCases : (cs : List (Expr × Stmt)) → Paired .free (.cases cs) (.cases cs)
  | [] => .noCases
  | (e, s) :: rest => .moreCases (freeExpr e) (freeStmt s) (freeCases rest)
termination_by structural cs => cs

end

end Paired

end Treewalk
