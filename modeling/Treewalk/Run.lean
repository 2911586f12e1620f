import Treewalk.Machine

/-!
Computations on the machine. They are written in order, one needing what another yields; a fault ends
all that follows it, up to a place where faults are taken.
-/

namespace Treewalk

def Run (α : Type) : Type :=
  Machine → Plan α

namespace Run

@[inline]
protected def pure (a : α) : Run α := fun m =>
  .done (.ok a m)

@[inline]
protected def bind (c : Run α) (f : α → Run β) : Run β := fun m =>
  (c m).andThen fun
    | .ok a after => f a after
    | .error stop after => .done (.error stop after)

@[always_inline]
instance : Monad Run where
  pure := Run.pure
  bind := Run.bind

@[inline]
def act (f : Machine → α × Machine) : Run α := fun m =>
  let (a, after) := f m
  .done (.ok a after)

@[always_inline]
instance : MonadStateOf Machine Run where
  get := act fun m => (m, m)
  set after := act fun _ => ((), after)
  modifyGet := act

def ask (activity : Activity) : Run activity.Result := fun m =>
  .ask activity m .done

def eval (e : Expr) : Run Value :=
  ask (.expr e)

def exec (s : Stmt) : Run Signal :=
  ask (.stmt s)

def call (f : Function) (args generics : List Value) (line : Line) : Run Value :=
  ask (.call f args generics line)

def spell (value : Value) : Run String :=
  ask (.text value)

def stop (reason : Stop) : Run α := fun m =>
  .done (.error reason m)

def raise (line : Line) (fault : Fault) : Run α :=
  stop (.fault ⟨fault, line⟩)

/-- A pure answer; a fault in it is raised on the given line. -/
def orRaise (line : Line) : Except Fault α → Run α
  | .ok a => pure a
  | .error fault => raise line fault

def demand (holds : Bool) (line : Line) (fault : Fault) : Run Unit :=
  if holds then pure () else raise line fault

@[inline]
def heap : Run Heap := do
  return (← get).heap

@[inline]
def reading (f : Heap → α) : Run α := do
  return f (← get).heap

@[inline]
def allocate (f : Heap → α × Heap) : Run α :=
  modifyGet fun m =>
    let (a, heap) := f m.heap
    (a, { m with heap := heap })

@[inline]
def update (f : Heap → Heap) : Run Unit :=
  modify fun m => { m with heap := f m.heap }

def currentScope : Run (Ref .scope) := do
  return (← get).scope

def inGlobalScope : Run Bool := do
  let m ← get
  return m.heap.isGlobal m.scope

@[noinline]
def leave (scope : Ref .scope) : Outcome α → Plan α
  | .ok a after => .done (.ok a { after with scope := scope })
  | .error reason after => .done (.error reason { after with scope := scope })

/-- Runs a computation in another scope and comes back, however it ends. -/
def inScope (r : Ref .scope) (body : Run α) : Run α := fun m =>
  (body { m with scope := r }).andThen (leave m.scope)

/-- Runs a computation; a fault of it is handed to `handler`. -/
def catching (body : Run α) (handler : RuntimeError → Run α) : Run α := fun m =>
  (body m).andThen fun
    | .error (.fault e) after => handler e after
    | outcome => .done outcome

def printOut (text : String) : Run Unit :=
  modify fun m => { m with out := m.out ++ text }

def printErr (text : String) : Run Unit :=
  modify fun m => { m with err := m.err ++ text }

def warn (line : Line) (notice : Notice) : Run Unit :=
  let warning : Warning := ⟨notice, line⟩
  modify fun m =>
    { m with
      warnings := m.warnings.push warning
      err := if m.echo then m.err ++ warning.text ++ "\n" else m.err }

/-- The milliseconds since the epoch that the clock shows now. -/
def readClock : Run Int :=
  modifyGet fun m =>
    (m.clock.shows m.clock.readings, { m with clock := { m.clock with readings := m.clock.readings + 1 } })

end Run

end Treewalk
