import Treewalk.Number.Whole
import Treewalk.Source.Line
import Treewalk.Type.Descriptor
import Treewalk.Type.Modifiers

/-!
Everything that can go wrong while a program runs, as causes with their data; the wording stands in one
place. A fault knows nothing of lines: the place that raises it adds the line.
-/

namespace Treewalk

inductive FaultKind where
  | undefinedVariable
  | undefinedProperty
  | constantViolation
  | typeMismatch
  | arityMismatch
  | interfaceConformanceViolation
  | modifierViolation
  | indexOutOfBounds
  | invalidOperand
  | invalidCall
  | castFailure
  | generic
  deriving DecidableEq, Repr

inductive Fault where
  | undefinedVariable (name : String)
  | undefinedProperty (name : String)
  | undefinedElement (enumName name : String)
  | undefinedOperator (className method symbol : String)
  | undefinedIndexing (className method : String)
  | constantAssigned (name : String)
  | elementAssigned (enumName name : String)
  | storedType (actual arrayType : TypeDesc)
  | assignedType (actual : TypeDesc) (name : String) (declared : TypeDesc)
  | argumentType (param function : String) (declared actual : TypeDesc)
  | returnedType (function : String) (declared actual : TypeDesc)
  | nothingReturned (function : String) (declared : TypeDesc)
  | elementType (index : Nat) (actual element : TypeDesc)
  | notAType (actual : TypeDesc)
  | superclassNotClass
  | notAnInterface (className text : String)
  | testNameNotString
  | argumentCount (expected given : Nat)
  | genericsOnFunction (function : String)
  | genericCount (className : String) (expected given : Nat)
  | methodMissing (className method interface : String)
  | methodModifiers (className method : String) (required : Modifiers) (interface : String)
  | methodArity (className method : String) (required : Nat) (interface : String)
  | fieldMissing (className field interface : String)
  | fieldModifiers (className field : String) (required : Modifiers) (interface : String)
  | bodyMissing (className method : String)
  | negativeUnsigned (name : String) (n : Float)
  | byteRange (name : String) (n : Float)
  | readOnlyProperty (name : String)
  | staticGlobal (name : String)
  | operatorUntagged (method symbol : String)
  | operatorCalled (method : String)
  | fieldThroughClass (className field : String)
  | memberThroughClass (className member : String)
  | operatorArity (className method : String)
  | castArity (className method : String)
  | indexOutOfBounds (index : Float) (size : Nat)
  | operandsNotNumbers
  | steppedNotNumber (symbol : String)
  | operandNotNumber
  | noLength (actual : TypeDesc)
  | indexNotNumber (actual : TypeDesc)
  | sizeLimit (size : Float) (limit : Nat)
  | sizeInvalid (text : String)
  | noProperties
  | noFields
  | staticOnInstance (member : String)
  | notIndexed (method : String)
  | superNotClass
  | bodylessCall (function : String)
  | notCallable
  | returnFromTest
  | castFailed (actual target : TypeDesc)
  | castTextFailed (text : String) (target : TypeDesc)
  | castMethodMissing (className method : String) (target : TypeDesc)
  | castMethodUntagged (className method : String)
  | castMethodArity (className method : String)
  | castMethodReturn (className method : String) (target returns : TypeDesc)
  | castMethodResult (method : String) (actual target : TypeDesc)
  | inheritsObject
  | timeBeforeEpoch
  deriving Repr

namespace Fault

def kind : Fault → FaultKind
  | undefinedVariable .. => .undefinedVariable
  | undefinedProperty .. | undefinedElement .. | undefinedOperator .. | undefinedIndexing .. =>
    .undefinedProperty
  | constantAssigned .. | elementAssigned .. => .constantViolation
  | storedType .. | assignedType .. | argumentType .. | returnedType .. | nothingReturned ..
  | elementType .. | notAType .. | superclassNotClass | notAnInterface .. | testNameNotString =>
    .typeMismatch
  | argumentCount .. | genericsOnFunction .. | genericCount .. => .arityMismatch
  | methodMissing .. | methodModifiers .. | methodArity .. | fieldMissing .. | fieldModifiers ..
  | bodyMissing .. => .interfaceConformanceViolation
  | negativeUnsigned .. | byteRange .. | readOnlyProperty .. | staticGlobal .. | operatorUntagged ..
  | operatorCalled .. | fieldThroughClass .. | memberThroughClass .. | operatorArity ..
  | castArity .. => .modifierViolation
  | indexOutOfBounds .. => .indexOutOfBounds
  | operandsNotNumbers | steppedNotNumber .. | operandNotNumber | noLength .. | indexNotNumber ..
  | sizeLimit .. | sizeInvalid .. | noProperties | noFields | staticOnInstance .. | notIndexed ..
  | superNotClass => .invalidOperand
  | bodylessCall .. | notCallable | returnFromTest => .invalidCall
  | castFailed .. | castTextFailed .. | castMethodMissing .. | castMethodUntagged ..
  | castMethodArity .. | castMethodReturn .. | castMethodResult .. => .castFailure
  | inheritsObject | timeBeforeEpoch => .generic

def message : Fault → String
  | undefinedVariable name => s!"Undefined variable '{name}'."
  | undefinedProperty name => s!"Undefined property '{name}'."
  | undefinedElement enumName name => s!"Enum '{enumName}' has no element '{name}'."
  | undefinedOperator className method symbol =>
    s!"Class '{className}' does not define operator method '{method}' for '{symbol}'."
  | undefinedIndexing className method =>
    s!"Class '{className}' does not define '{method}' and cannot be indexed."
  | constantAssigned name => s!"Cannot reassign constant '{name}'."
  | elementAssigned enumName name => s!"Cannot assign to element '{name}' of enum '{enumName}'."
  | storedType actual arrayType => s!"Cannot store {actual.name} in an array of {arrayType.name}."
  | assignedType actual name declared =>
    s!"Cannot assign {actual.name} to '{name}' of type {declared.name}."
  | argumentType param function declared actual =>
    s!"Parameter '{param}' of '{function}' expects {declared.name} but got {actual.name}."
  | returnedType function declared actual =>
    s!"Function '{function}' must return {declared.name} but returned {actual.name}."
  | nothingReturned function declared =>
    s!"Function '{function}' must return {declared.name} but finished without a value."
  | elementType index actual element =>
    s!"Array element {index} is {actual.name} but the array holds {element.name}."
  | notAType actual => s!"Expected a type, got {actual.name}."
  | superclassNotClass => "Superclass must be a class."
  | notAnInterface className text => s!"Class '{className}' can only implement interfaces, not {text}."
  | testNameNotString => "Test name must be a string."
  | argumentCount expected given => s!"Expected {expected} arguments but got {given}."
  | genericsOnFunction function => s!"Function '{function}' does not take generic arguments."
  | genericCount className expected given =>
    s!"Class '{className}' expects {expected} generic arguments but got {given}."
  | methodMissing className method interface =>
    s!"Class '{className}' does not implement method '{method}' required by interface '{interface}'."
  | methodModifiers className method required interface =>
    s!"Method '{method}' of class '{className}' must have modifiers '{required.text}' as declared by " ++
      s!"interface '{interface}'."
  | methodArity className method required interface =>
    s!"Method '{method}' of class '{className}' must take {required} parameters as declared by " ++
      s!"interface '{interface}'."
  | fieldMissing className field interface =>
    s!"Class '{className}' does not declare field '{field}' required by interface '{interface}'."
  | fieldModifiers className field required interface =>
    s!"Field '{field}' of class '{className}' must have modifiers '{required.text}' as declared by " ++
      s!"interface '{interface}'."
  | bodyMissing className method =>
    s!"Method '{method}' of class '{className}' has no body and no interface provides a matching one."
  | negativeUnsigned name n => s!"Unsigned '{name}' cannot hold negative value {Number.text n}."
  | byteRange name n => s!"Byte '{name}' must be within 0-255, got {Number.text n}."
  | readOnlyProperty name => s!"Cannot assign to read-only property '{name}'."
  | staticGlobal name => s!"Static variable '{name}' is not allowed in the global scope."
  | operatorUntagged method symbol =>
    s!"Method '{method}' must be tagged 'operator' to overload '{symbol}'."
  | operatorCalled method => s!"Operator method '{method}' can only be invoked through its operator."
  | fieldThroughClass className field =>
    s!"Cannot assign instance field '{field}' through class '{className}'."
  | memberThroughClass className member =>
    s!"Cannot access non-static member '{member}' through '{className}::'."
  | operatorArity className method =>
    s!"Operator method '{method}' of class '{className}' must take exactly two parameters."
  | castArity className method => s!"Cast method '{method}' of class '{className}' must take no parameters."
  | indexOutOfBounds index size =>
    s!"Index {Number.roundedText index} out of bounds for array of size {size}."
  | operandsNotNumbers => "Operands must be numbers."
  | steppedNotNumber symbol => s!"Operand of '{symbol}' must be a number."
  | operandNotNumber => "Operand must be a number."
  | noLength actual => s!"Cannot take the length of {actual.name}."
  | indexNotNumber actual => s!"Array index must be a number, got {actual.name}."
  | sizeLimit size limit => s!"Array size {Number.text size} exceeds the limit of {limit} elements."
  | sizeInvalid text => s!"Array size must be a non-negative number, got {text}."
  | noProperties => "Only instances, classes and enums have properties."
  | noFields => "Only instances have fields."
  | staticOnInstance member => s!"Cannot use '::{member}' on an instance; use the class name."
  | notIndexed method => s!"Only arrays and instances defining '{method}' can be indexed."
  | superNotClass => "Superclass is not a class."
  | bodylessCall function => s!"Cannot call bodyless function '{function}'."
  | notCallable => "Can only call functions and classes."
  | returnFromTest => "Cannot return from a test."
  | castFailed actual target => s!"Cannot cast {actual.name} to {target.name}."
  | castTextFailed text target => s!"Cannot cast \"{text}\" to {target.name}."
  | castMethodMissing className method target =>
    s!"Class '{className}' has no cast method '{method}' for {target.name}."
  | castMethodUntagged className method =>
    s!"Method '{method}' of class '{className}' is not tagged 'cast'."
  | castMethodArity className method =>
    s!"Cast method '{method}' of class '{className}' must take no parameters."
  | castMethodReturn className method target returns =>
    s!"Cast method '{method}' of class '{className}' must return {target.name}, not {returns.name}."
  | castMethodResult method actual target =>
    s!"Cast method '{method}' returned {actual.name} instead of {target.name}."
  | inheritsObject => "Classes automatically inherit from Object."
  | timeBeforeEpoch => "second time provided was later than self"

end Fault

structure RuntimeError where
  fault : Fault
  line : Line
  deriving Repr

def RuntimeError.message (e : RuntimeError) : String :=
  e.fault.message

def RuntimeError.text (e : RuntimeError) : String :=
  s!"[line {e.line}] {e.message}"

/-- What a program is warned of without being stopped. -/
inductive Notice where
  | bodylessCall (function : String)
  | staticThroughInstance (member : String)
  | memberThroughClass (className member : String)
  deriving DecidableEq, Repr

inductive NoticeKind where
  | abstractCall
  | staticContext
  deriving DecidableEq, Repr

def Notice.kind : Notice → NoticeKind
  | bodylessCall .. => .abstractCall
  | staticThroughInstance .. | memberThroughClass .. => .staticContext

def Notice.message : Notice → String
  | bodylessCall function => s!"Function '{function}' has no body; the call yields nothing."
  | staticThroughInstance member => s!"Static member '{member}' accessed through an instance."
  | memberThroughClass className member =>
    s!"Instance member '{member}' accessed through class '{className}'."

structure Warning where
  notice : Notice
  line : Line
  deriving DecidableEq, Repr

def Warning.text (w : Warning) : String :=
  s!"[line {w.line}] Warning: {w.notice.message}"

end Treewalk
