import Treewalk.Eval.Cell

/-!
Calls. Arguments are checked against the parameters before anything of the body runs; the result is
checked against the declared type as it is resolved in the closure when the body has finished.
-/

namespace Treewalk

namespace Heap

/-- The cell of a parameter, if the argument conforms to its type and keeps its range. -/
def argumentCell (h : Heap) (function : String) (closure : Ref .scope) (param : Param)
    (value : Value) : Except Fault Cell :=
  let declared := h.resolveType param.declared closure
  if h.conforms value declared then do
    checkRange param.modifiers param.name.text value
    return { content := .plain value, modifiers := param.modifiers, declared := some declared }
  else
    throw (.argumentType param.name.text function declared (h.typeOf value))

def argumentCells (h : Heap) (function : String) (closure : Ref .scope) :
    List Param → List Value → NameMap Cell → Except Fault (NameMap Cell)
  | param :: params, value :: values, cells => do
    let cell ← h.argumentCell function closure param value
    argumentCells h function closure params values (cells.insert param.name.text cell)
  | _, _, cells => return cells

end Heap

namespace Evaluator

open Run

/-- A function that sees `receiver` as `this`. -/
def bind (f : Function) (receiver : Value) : Run Function := do
  match f.body with
  | .user body closure =>
    let outer ← reading (·.scopeWithin receiver closure)
    let names := NameMap.empty.insert "this" (Cell.ofValue receiver)
    let scope ← allocate (·.addScope { enclosing := some outer, names := names })
    return { f with body := .user body scope }
  | .native native _ => return { f with body := .native native (some receiver) }
  | .missing => return f

/-- A function of the heap, bound to a receiver and put into the heap as a new one. -/
def bindFunction (f : Ref .function) (receiver : Value) : Run (Ref .function) := do
  let bound ← bind (← reading (·.function f)) receiver
  allocate (·.addFunction bound)

def bindMethod (method : Ref .function) (receiver : Value) : Run Value := do
  return .function (← bindFunction method receiver)

def callMethod (method : Ref .function) (receiver : Value) (args : List Value)
    (line : Line) : Run Value := do
  let f ← reading (·.function method)
  let bound ← bind f receiver
  call bound args [] line

def callNative (native : Native) (args : List Value) : Run Value := do
  match native, args with
  | .clock, _ =>
    match ← readClock with
    | .ofNat elapsed => return .num (Float.ofNat elapsed / 1000)
    | .negSucc _ => raise (-1) .timeBeforeEpoch
  | .print, value :: _ =>
    printOut (← spell value)
    return .nil
  | .println, value :: _ =>
    printOut ((← spell value) ++ "\n")
    return .nil
  | .error, value :: _ =>
    printErr ((← spell value) ++ "\n")
    return .nil
  | .objectText, value :: _ => return .str ((← heap).text value)
  | .objectText, [] => return .str "Object"
  | .print, [] | .println, [] | .error, [] => return .nil

def resultOf (f : Function) (closure : Ref .scope) (line : Line) (signal : Signal) : Run Value := do
  let h ← heap
  let declared := h.resolveType f.returns closure
  match signal with
  | .returning value =>
    demand (h.conforms value declared) line (.returnedType f.name declared (h.typeOf value))
    return value
  | _ =>
    demand (declared.kind = .void || declared.kind = .any) line (.nothingReturned f.name declared)
    return .nil

/-- What a constructor yields: the instance that it was bound to. -/
def constructed (closure : Ref .scope) (line : Line) : Run Value := do
  match ← reading (·.here? closure "this") with
  | some cell => readCell cell line
  | none => return .nil

def callUser (f : Function) (body : List Stmt) (closure : Ref .scope)
    (args : List Value) (line : Line) : Run Value := do
  let cells ← orRaise line ((← heap).argumentCells f.name closure f.params args .empty)
  let scope ← allocate (·.addScope { enclosing := some closure, names := cells })
  let signal ← block scope body
  if f.constructs then
    constructed closure line
  else
    resultOf f closure line signal

/-- A function without a body may be called at the outermost level only, where that is a warning. -/
def callMissing (f : Function) (line : Line) : Run Value := do
  if ← inGlobalScope then
    warn line (.bodylessCall f.name)
    return .nil
  else
    raise line (.bodylessCall f.name)

def callFunction (f : Function) (args generics : List Value) (line : Line) :
    Run Value :=
  if args.length ≠ f.arity then raise line (.argumentCount f.arity args.length)
  else match f.body with
    | .native native receiver => callNative native (receiver.toList ++ args)
    | .missing => callMissing f line
    | .user body closure =>
      if generics.isEmpty then callUser f body closure args line
      else raise line (.genericsOnFunction f.name)

def texts : List Value → Run (List String)
  | [] => return []
  | value :: rest => do
    let text ← spell value
    return text :: (← texts rest)

/-- The text of a value: instances give theirs through `toString`, arrays ask their elements. -/
def textOf (value : Value) : Run String := do
  match value with
  | .object o =>
    let h ← heap
    match h.findMethod? (h.object o).cls "toString" with
    | some method =>
      let result ← callMethod method value [] 0
      return (← heap).text result
    | none => return h.text value
  | .array a =>
    let parts ← texts (← reading (·.array a)).elements.toList
    return "[" ++ ", ".intercalate parts ++ "]"
  | _ => return (← heap).text value

end Evaluator

end Treewalk
