import Ownership.Span
import Ownership.Style

namespace Ownership

inductive Level where
  | error
  | warning
  | info
  | help
  | note
deriving DecidableEq

def Level.name : Level → String
  | .error => "error"
  | .warning => "warning"
  | .info => "info"
  | .help => "help"
  | .note => "note"

def Level.ofName? (s : String) : Option Level :=
  [Level.error, .warning, .info, .help, .note].find? fun l => l.name == s

inductive Code where
  | unresolvedName
  | noSuchItem
  | noSuchMember
  | unexpectedGenericArgs
  | genericArgCountMismatch
  | genericKindMismatch
  | expectedType
  | expectedPermission
  | expectedPlace
  | expectedExpression
  | missingCallToMethod
  | notCallable
  | callArgCountMismatch
  | classHasNoNew
  | classNewNotAFunction
  | returnOutsideFunction
  | notImplemented
  | associatedFunctionOnInstance
  | invalidIntegerLiteral
  | typeMismatch
  | invalidAssignment
  | invalidReturnValue
  | numericTypeExpected
  | operandsMustMatch
  | booleanExpected
  | awaitNonFuture
  | permissionMismatch
  | typeAnnotationsNeeded
  | universeEscape
  | invalidLetInitializer
  | notCopy
  | notMove
  | notOwned
  | notLent
  | whereClauseNotSatisfied
deriving DecidableEq

namespace Code

def text : Code → String
  | unresolvedName => "PCE001"
  | noSuchItem => "PCE002"
  | noSuchMember => "PCE003"
  | unexpectedGenericArgs => "PCE004"
  | genericArgCountMismatch => "PCE005"
  | genericKindMismatch => "PCE006"
  | expectedType => "PCE007"
  | expectedPermission => "PCE008"
  | expectedPlace => "PCE009"
  | expectedExpression => "PCE020"
  | missingCallToMethod => "PCE021"
  | notCallable => "PCE022"
  | callArgCountMismatch => "PCE023"
  | classHasNoNew => "PCE024"
  | classNewNotAFunction => "PCE025"
  | returnOutsideFunction => "PCE026"
  | notImplemented => "PCE027"
  | associatedFunctionOnInstance => "PCE028"
  | invalidIntegerLiteral => "PCE029"
  | typeMismatch => "PCE050"
  | invalidAssignment => "PCE051"
  | invalidReturnValue => "PCE052"
  | numericTypeExpected => "PCE053"
  | operandsMustMatch => "PCE054"
  | booleanExpected => "PCE055"
  | awaitNonFuture => "PCE056"
  | permissionMismatch => "PCE057"
  | typeAnnotationsNeeded => "PCE058"
  | universeEscape => "PCE059"
  | invalidLetInitializer => "PCE060"
  | notCopy => "PCE080"
  | notMove => "PCE081"
  | notOwned => "PCE082"
  | notLent => "PCE083"
  | whereClauseNotSatisfied => "PCE084"

def all : List Code :=
  [unresolvedName, noSuchItem, noSuchMember, unexpectedGenericArgs, genericArgCountMismatch,
    genericKindMismatch, expectedType, expectedPermission, expectedPlace, expectedExpression,
    missingCallToMethod, notCallable, callArgCountMismatch, classHasNoNew, classNewNotAFunction,
    returnOutsideFunction, notImplemented, associatedFunctionOnInstance, invalidIntegerLiteral,
    typeMismatch, invalidAssignment, invalidReturnValue, numericTypeExpected, operandsMustMatch,
    booleanExpected, awaitNonFuture, permissionMismatch, typeAnnotationsNeeded, universeEscape,
    invalidLetInitializer, notCopy, notMove, notOwned, notLent, whereClauseNotSatisfied]

def ofText? (s : String) : Option Code :=
  all.find? fun code => code.text == s

end Code

structure Label where
  level : Level
  span : Span
  message : String
deriving DecidableEq

structure Diagnostic where
  level : Level
  span : Span
  message : String
  code : Option Code := none
  labels : List Label := []
  children : List Diagnostic := []
  because : List String := []

/-- Evidence that a diagnostic was recorded. Error terms carry it, so that nothing is reported twice;
two reports are the same when their numbers are. -/
structure Report where
  id : Nat
  span : Span
  message : String
deriving DecidableEq

namespace Diagnostic

def error (span : Span) (message : String) (code : Option Code) : Diagnostic :=
  { level := .error, span, message, code }

def note (span : Span) (message : String) : Diagnostic :=
  { level := .note, span, message }

def label (d : Diagnostic) (level : Level) (span : Span) (message : String) : Diagnostic :=
  { d with labels := d.labels ++ [⟨level, span, message⟩] }

def child (d : Diagnostic) (c : Diagnostic) : Diagnostic :=
  { d with children := d.children ++ [c] }

def becauseOf (d : Diagnostic) (notes : List String) : Diagnostic :=
  { d with because := d.because ++ notes }

def render (d : Diagnostic) : String :=
  let code := match d.code with
    | some c => s!" [{c.text}]"
    | none => ""
  s!"{d.level.name}{code} at {d.span.start.render}: {d.message}"

def renderBlock (coloured : Bool) (d : Diagnostic) : String :=
  let headline := if d.level = .error then Style.red else Style.yellow
  let labels := d.labels.map fun l =>
    s!"  {Style.gray.paintIf coloured l.span.start.render} {l.message}"
  let reasons := d.because.map fun note =>
    "  " ++ Style.blue.paintIf coloured "because" ++ " " ++ note
  let children := d.children.map fun c =>
    s!"  {Style.blue.paintIf coloured c.level.name}: {c.message}"
  "\n".intercalate (headline.paintIf coloured d.render :: labels ++ reasons ++ children)

def renderAll (coloured : Bool) (ds : List Diagnostic) : String :=
  "\n".intercalate (ds.map (renderBlock coloured))

def anyError (ds : List Diagnostic) : Bool :=
  ds.any fun d => d.level = .error

end Diagnostic

end Ownership
