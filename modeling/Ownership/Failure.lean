import Ownership.Decimal.Shortest
import Ownership.Predicate
import Ownership.Term

namespace Ownership

inductive Violation where
  | expected (wanted : Kind) (found : Term)
  | substitutionArity (terms vars : Nat)
  | untypedVariable (v : Variable)
  | untypedPlace (p : Place)
  | noField (owner : Ty) (field : String)
  | unknownInferVar (i : InferIndex)
  | lowerBoundTaken (i : InferIndex)
  | stalled (tasks : Nat)
  | gaveUp (rounds : Decimal)
  | alternativeHasChildren
  | placeQuery (p : Predicate) (place : Place)
  | placeRequirement (p : Predicate) (place : Place)
  | kindsDiffer (lower upper : Term)
  | boundedByPerm (bound : Term)
  | tooManyGenerics (function : String) (given wanted : Nat)
  | genericsNotSuffix (function : String)
  | unrecognizedBoolean (text : String)
  | missingArgument
  | noBody
  | exhausted
  | stated (message : String)

namespace Violation

def expectation : Kind → String
  | .type => "a type"
  | .perm => "a permission"
  | .place => "a place"

def reason : Violation → String
  | expected wanted found =>
    let kind := match found.kind? with
      | some k => k.name
      | none => "undefined"
    s!"expected {expectation wanted}, found {kind} `{found.render}`"
  | substitutionArity terms vars => s!"substituting {terms} terms for {vars} variables"
  | untypedVariable v => s!"no type recorded for variable `{v.render}`"
  | untypedPlace p => s!"cannot compute the type of place `{p.render}`"
  | noField owner field => s!"`{owner.render}` has no field `{field}`"
  | unknownInferVar i => s!"no inference variable {i} in this session"
  | lowerBoundTaken i => s!"inference variable {i} already has a lower bound"
  | stalled tasks => s!"{tasks} checking task(s) stalled without waiting on an inference variable"
  | gaveUp rounds => s!"gave up after settling {rounds.text} inference variables"
  | alternativeHasChildren => "alternative already has children"
  | placeQuery p place => s!"{p.name} query on place `{place.render}`"
  | placeRequirement p place => s!"{p.name} requirement on place `{place.render}`"
  | kindsDiffer lower upper =>
    s!"relating terms of different kinds: `{lower.render}` and `{upper.render}`"
  | boundedByPerm bound => s!"type inference variable bounded by permission `{bound.detail}`"
  | tooManyGenerics function given wanted =>
    s!"`{function}` given {given} generic arguments for {wanted} parameters"
  | genericsNotSuffix function =>
    s!"generics of `{function}` are not a suffix of its signature's binder"
  | unrecognizedBoolean text => s!"unrecognized boolean literal `{text}`"
  | missingArgument => "a generic argument is missing"
  | noBody => "the body check finished without producing an expression"
  | exhausted => "the session did not come to an end"
  | stated message => message

def message (v : Violation) : String :=
  "invariant violated: " ++ v.reason

end Violation

inductive Failure where
  | reported (r : Report)
  | violated (v : Violation)

def Failure.message : Failure → String
  | .reported r => r.message
  | .violated v => v.message

end Ownership
