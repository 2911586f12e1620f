import Treewalk.Eval.Construct
import Treewalk.Eval.Member

/-!
Expressions.
-/

namespace Treewalk.Evaluator

open Run

def assignedValue (ref : Reference) (site : AssignSite) (value : Option Expr) : Run Value := do
  let operand ← option value
  newValue site (readVariable ref) operand

def assign (ref : Reference) (site : AssignSite) (value : Option Expr) :
    Run Value := do
  let result ← assignedValue ref site value
  writeVariable ref result
  return result

def memberValue (object : Expr) (name : Name) (site : AssignSite) (value : Option Expr)
    (qualified : Bool) : Run (Value × Value) := do
  let target ← eval object
  let operand ← option value
  let result ← newValue site (getMember target name qualified) operand
  return (target, result)

def setProperty (object : Expr) (name : Name) (site : AssignSite)
    (value : Option Expr) (qualified : Bool) : Run Value := do
  let (target, result) ← memberValue object name site value qualified
  setMember target name result qualified
  return result

def indexedValue (object : Expr) (line : Line) (position : Expr) (site : AssignSite)
    (value : Option Expr) : Run (Value × Value × Value) := do
  let target ← eval object
  let index ← eval position
  let operand ← option value
  let result ← newValue site (getIndex target index line) operand
  return (target, index, result)

def setIndexed (object : Expr) (line : Line) (position : Expr) (site : AssignSite)
    (value : Option Expr) : Run Value := do
  let (target, index, result) ← indexedValue object line position site value
  setIndex target index result line
  return result

/-- Calls what can be called. A method with the `operator` tag is reached by its operator only. -/
def apply (callee : Value) (args generics : List Value) (line : Line) :
    Run Value := do
  match callee with
  | .function r =>
    let f ← reading (·.function r)
    if f.modifiers.operator then
      raise line (.operatorCalled f.name)
    else
      call f args generics line
  | .cls c => construct c args generics line
  | _ => raise line .notCallable

/-- A call. When the callee is nil, a null-safe call is nil and its arguments are not evaluated. -/
def evalCall (callee : Expr) (line : Line) (args generics : List Expr)
    (nullSafe : Bool) : Run Value := do
  let target ← eval callee
  if nullSafe && target.isNil then
    return .nil
  else
    let args ← exprs args
    let generics ← exprs generics
    apply target args generics line

/-- The value of `this` one scope nearer than a distance. Nothing is nearer than the innermost scope, and to look
there brings the machine down. -/
def nearerReceiver (line : Line) : Nat → Run Value
  | 0 => stop .crash
  | near + 1 => do
    let m ← get
    let cell ← orRaise line (m.heap.lookupAt m.scope near "this")
    readCell cell line

/-- A method of the superclass, bound to `this`, which stands one scope nearer than `super`. -/
def superMethod (ref : Reference) (method : Name) : Run Value := do
  let line := ref.name.line
  match ref.depth with
  | none => raise line (.undefinedVariable "super")
  | some depth =>
    let m ← get
    let cell ← orRaise line (m.heap.lookupAt m.scope depth ref.name.text)
    match ← readCell cell line with
    | .cls superclass =>
      let receiver ← nearerReceiver line depth
      match ← reading (·.findMethod? superclass method.text) with
      | some found => bindMethod found receiver
      | none => raise method.line (.undefinedProperty method.text)
    | _ => raise line .superNotClass

def arraySize (size : Value) (line : Line) : Run Nat := do
  match size with
  | .num n =>
    match Number.rounded n with
    | .whole _ magnitude =>
      if n < 0 then
        raise line (.sizeInvalid (Number.text n))
      else if magnitude ≤ ArrayObject.limit then
        return magnitude
      else
        raise line (.sizeLimit n ArrayObject.limit)
    | _ => raise line (.sizeInvalid (Number.text n))
  | _ => raise line (.sizeInvalid ((← heap).text size))

def sizedArray (line : Line) (elementType : TypeDesc) (size : Expr) : Run Value := do
  let elementType ← typeHere elementType
  let size ← arraySize (← eval size) line
  return .array (← allocate (·.addArray (.sized elementType size)))

/-- The element type of a list of values: as declared, or that of the first value. -/
def elementTypeOf (h : Heap) (declared : Option TypeDesc) (values : List Value) : TypeDesc :=
  match declared, values with
  | some t, _ => t
  | none, first :: _ => if first.isNil then .any else h.typeOf first
  | none, [] => .any

/-- Checks that values conform to an element type; the first of them has the given position. -/
def checkElements (h : Heap) (elementType : TypeDesc) : Nat → List Value → Except Fault Unit
  | _, [] => .ok ()
  | i, value :: rest =>
    if h.conforms value elementType then checkElements h elementType (i + 1) rest
    else .error (.elementType i (h.typeOf value) elementType)

def listedArray (line : Line) (declared : Option TypeDesc) (elements : List Expr) :
    Run Value := do
  let declared ← declared.mapM typeHere
  let values ← exprs elements
  let h ← heap
  let elementType := elementTypeOf h declared values
  orRaise line (checkElements h elementType 0 values)
  return .array (← allocate (·.addArray ⟨elementType, values.toArray⟩))

def lengthOf (line : Line) (value : Value) : Run Value := do
  match value with
  | .array a => return .num (Float.ofNat (← reading (·.array a)).elements.size)
  | .str s => return .num (Float.ofNat s.length)
  | _ => raise line (.noLength ((← heap).typeOf value))

def decides (op : LogicalOp) (left : Value) : Bool :=
  match op with
  | .or => left.isTruthy
  | .and => !left.isTruthy

def evalExpr (e : Expr) : Run Value := do
  match e with
  | .literal value => return value.value
  | .group inner => eval inner
  | .unary op line operand => unaryOperation op line (← eval operand)
  | .binary op line left right =>
    let l ← eval left
    let r ← eval right
    binaryOperation op line l r
  | .logical op _ left right =>
    let l ← eval left
    if decides op l then return l else eval right
  | .ternary _ condition yes no =>
    if (← eval condition).isTruthy then eval yes else eval no
  | .use ref => readVariable ref
  | .this ref => readVariable ref
  | .value ref => readVariable ref
  | .super ref method => superMethod ref method
  | .assign ref site value => assign ref site value
  | .call callee line args generics nullSafe => evalCall callee line args generics nullSafe
  | .get object name nullSafe =>
    let target ← eval object
    if nullSafe && target.isNil then return .nil else getMember target name false
  | .staticGet object name => getMember (← eval object) name true
  | .set object name site value => setProperty object name site value false
  | .staticSet object name site value => setProperty object name site value true
  | .index object line position =>
    let target ← eval object
    let index ← eval position
    getIndex target index line
  | .indexSet object line position site value => setIndexed object line position site value
  | .cast operand line target =>
    let value ← eval operand
    let desc ← typeArgument (← eval target) line
    castValue value desc line
  | .array line elementType elements => listedArray line elementType elements
  | .sizedArray line elementType size => sizedArray line elementType size
  | .lambda decl =>
    let closure ← currentScope
    return .function (← allocate (·.addFunction (.ofDecl decl closure false)))
  | .type _ desc => return .type (← typeHere desc)
  | .length line operand => lengthOf line (← eval operand)
  | .typeOf _ operand =>
    let value ← eval operand
    return .type ((← heap).typeOf value)

end Treewalk.Evaluator
