import Ownership.Failure

namespace Ownership

inductive Because where
  | justSo
  | neverIsNotCopy
  | classIsNotCopy (name : String)
  | primitiveIsCopy (name : String)
  | leasedFromCopyIsCopy (places : List String)
  | leasedPlaceIsNotCopy (place : String) (cause : Because)
  | varNotDeclaredToBe (name : String) (predicate : Predicate)
  | inferIsnt (predicate : Predicate)
  | inferredLowerBound (bound : String) (origin : Option Span) (cause : Because)
  | unconstrainedInfer (span : Span)
  | permMismatch (lower upper : String)
  | nameMismatch (lower upper : String)
  | universeEscape (name : String)

def Because.describe : Because → List String
  | justSo => []
  | neverIsNotCopy => ["the never type `!` is not copy"]
  | classIsNotCopy name => [s!"`{name}` is not copy"]
  | primitiveIsCopy name => [s!"the primitive type `{name}` is copy"]
  | leasedFromCopyIsCopy places =>
    ["leasing from copy places (" ++ ", ".intercalate places ++ ") yields a copy permission"]
  | leasedPlaceIsNotCopy place cause =>
    s!"the lease includes `{place}`, which is not copy" :: cause.describe
  | varNotDeclaredToBe name predicate =>
    [s!"`{name}` is not declared to be {predicate.name}"]
  | inferIsnt predicate => [s!"the inferred term cannot be {predicate.name}"]
  | inferredLowerBound bound origin cause =>
    let place := match origin with
      | some span => s!" (inferred at {span.start.render})"
      | none => ""
    s!"the inferred lower bound is `{bound}`{place}" :: cause.describe
  | unconstrainedInfer _ => ["nothing constrains the inferred type"]
  | permMismatch lower upper =>
    [s!"the permission `{lower}` is not a subpermission of `{upper}`"]
  | nameMismatch lower upper => [s!"`{lower}` and `{upper}` are different types"]
  | universeEscape name =>
    [s!"the generic variable `{name}` is not in scope where the inference variable was created"]

def Because.subtypeCode : Because → Code
  | inferredLowerBound _ _ cause => cause.subtypeCode
  | permMismatch _ _ => .permissionMismatch
  | universeEscape _ => .universeEscape
  | _ => .typeMismatch

/-- What has to hold, and what to say when it does not. It may be asked of any term, also of one that
turns out to be no type. -/
inductive Requirement where
  | subtype (span : Span) (lower upper : Term)
  | assignment (span placeSpan : Span) (placeTy valueTy : Term)
  | returnValue (span : Span) (valueTy returnTy : Term)
  | letInitializer (span : Span) (name : String) (declaredTy valueTy : Term)
  | numeric (span : Span) (ty : Term) (operator : Option Span)
  | operandsMatch (span : Span) (left right : Term)
  | boolean (span : Span) (ty : Term)
  | awaitable (span futureSpan : Span) (ty : Term)
  | predicate (span : Span) (term : Term) (predicate : Predicate)
  | whereClause (span clauseSpan : Span) (subject : Term) (predicate : Predicate)

namespace Requirement

def span : Requirement → Span
  | subtype span .. => span
  | assignment span .. => span
  | returnValue span .. => span
  | letInitializer span .. => span
  | numeric span .. => span
  | operandsMatch span .. => span
  | boolean span .. => span
  | awaitable span .. => span
  | predicate span .. => span
  | whereClause span .. => span

def diagnostic (because : Because) : Requirement → Diagnostic
  | subtype span lower upper =>
    .label (.error span s!"expected `{upper.render}`, found `{lower.render}`" because.subtypeCode)
      .error span s!"this has type `{lower.render}`"
  | assignment span placeSpan placeTy valueTy =>
    let message := s!"cannot assign a value of type `{valueTy.detail}` "
      ++ s!"to a place of type `{placeTy.detail}`"
    ((Diagnostic.error span message (some .invalidAssignment)).label
      .error span s!"this value has type `{valueTy.detail}`").label
      .info placeSpan s!"this place has type `{placeTy.detail}`"
  | returnValue span valueTy returnTy =>
    let message := s!"expected a return value of type `{returnTy.detail}`, "
      ++ s!"found `{valueTy.detail}`"
    (Diagnostic.error span message (some .invalidReturnValue)).label
      .error span s!"this has type `{valueTy.detail}`"
  | letInitializer span name declaredTy valueTy =>
    let message := s!"`{name}` has type `{declaredTy.detail}` "
      ++ s!"but is initialized with a value of type `{valueTy.detail}`"
    .error span message (some .invalidLetInitializer)
  | numeric span ty operator =>
    let plain := Diagnostic.error span s!"expected a numeric type, found `{ty.detail}`"
      (some .numericTypeExpected)
    match operator with
    | some operatorSpan =>
      plain.label .info operatorSpan "this operator requires numeric operands"
    | none => plain
  | operandsMatch span left right =>
    let message := s!"operands must have the same type, found `{left.detail}` "
      ++ s!"and `{right.detail}`"
    .error span message (some .operandsMustMatch)
  | boolean span ty =>
    .error span s!"expected `bool`, found `{ty.detail}`" (some .booleanExpected)
  | awaitable span futureSpan ty =>
    (Diagnostic.error span s!"`await` requires a future, found `{ty.detail}`"
      (some .awaitNonFuture)).label .info futureSpan s!"this has type `{ty.detail}`"
  | predicate span term p =>
    .error span s!"`{term.render}` is not {p.name}" (some p.code)
  | whereClause span clauseSpan subject p =>
    (Diagnostic.error span s!"where-clause `{subject.render}: {p.name}` is not satisfied"
      (some .whereClauseNotSatisfied)).label .info clauseSpan "required by this where-clause"

end Requirement

inductive Provenance where
  | lowerBound (bound : Term) (origin : Option Span)
  | leasedPlace (place : Term)

def Provenance.wrap : Provenance → Because → Because
  | lowerBound bound origin, cause => .inferredLowerBound bound.render origin cause
  | leasedPlace place, cause => .leasedPlaceIsNotCopy place.detail cause

/-- A requirement with the provenance attached to it so far, first attached first. -/
structure Obligation where
  requirement : Requirement
  provenance : List Provenance := []

namespace Obligation

def span (o : Obligation) : Span := o.requirement.span

def explain (o : Obligation) (because : Because) : Because :=
  o.provenance.foldr Provenance.wrap because

def diagnostic (o : Obligation) (because : Because) : Diagnostic :=
  o.requirement.diagnostic (o.explain because)

def failure (o : Obligation) (because : Because) : Diagnostic :=
  (o.diagnostic because).becauseOf (o.explain because).describe

def becauseOfLowerBound (o : Obligation) (bound : Term) (origin : Option Obligation) : Obligation :=
  { o with provenance := o.provenance ++ [.lowerBound bound (origin.map span)] }

def becauseOfLeasedPlace (o : Obligation) (place : Term) : Obligation :=
  { o with provenance := o.provenance ++ [.leasedPlace place] }

end Obligation

end Ownership
