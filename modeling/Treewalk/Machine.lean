import Treewalk.Heap.Elements
import Treewalk.Heap.Interface
import Treewalk.Heap.Scope

/-!
The state of a running program, and what is done to it. A program runs by activities: expressions and
statements are evaluated, functions are called, and values give their texts. An activity goes by a
plan: it works on the machine by itself until it ends, or until it needs another activity, with whose
outcome it goes on.
-/

namespace Treewalk

/-- A clock, and how often it has been read. Nothing is known of what it shows. -/
structure Clock where
  /-- The milliseconds since the epoch at each reading. -/
  shows : Nat → Int := fun _ => 0
  readings : Nat := 0
  deriving Inhabited

structure Machine where
  heap : Heap
  /-- The scope in which the next statement runs. -/
  scope : Ref .scope
  out : String := ""
  err : String := ""
  warnings : Array Warning := #[]
  /-- Whether warnings are also written to the error text. -/
  echo : Bool := false
  clock : Clock := {}
  deriving Inhabited

inductive Stop where
  | fault (e : RuntimeError)
  /-- The program has brought the machine down. -/
  | crash
  | outOfFuel
  deriving Repr

/-- How a statement ends. Everything but a normal end is passed on outward until a statement or call
takes it up. -/
inductive Signal where
  | normal
  | returning (value : Value)
  | breaking
  | continuing
  | expecting (value : Value)
  deriving Repr, Inhabited

inductive Activity where
  | expr (e : Expr)
  | stmt (s : Stmt)
  /-- A call of a function with arguments and generic arguments, on a line. -/
  | call (f : Function) (args generics : List Value) (line : Line)
  /-- The text of a value, for which instances are asked. -/
  | text (value : Value)

def Activity.Result : Activity → Type
  | .expr _ | .call .. => Value
  | .stmt _ => Signal
  | .text _ => String

/-- What has come of an activity, and the machine as it is then. One that stops short keeps the machine
it has reached, and one that crashes or runs out of fuel is neither a success nor a fault of the program. -/
abbrev Outcome (α : Type) : Type :=
  EStateM.Result Stop Machine α

inductive Plan (α : Type) where
  | done (outcome : Outcome α)
  | ask (activity : Activity) (m : Machine) (next : Outcome activity.Result → Plan α)

namespace Plan

/-- One plan after another, which goes on with the outcome of the first. -/
def andThen : Plan α → (Outcome α → Plan β) → Plan β
  | done outcome, f => f outcome
  | ask activity m next, f => ask activity m fun outcome => (next outcome).andThen f

/-- The outcome of a plan when the activities that it needs are performed in the given way. -/
def outcome (perform : (a : Activity) → Machine → Outcome a.Result) : Plan α → Outcome α
  | done outcome => outcome
  | ask activity m next => (next (perform activity m)).outcome perform

end Plan

end Treewalk
