import Ownership.Finding
import Ownership.RedTy

namespace Ownership

inductive Shape where
  | truth
  | unit
  | ty
  | bound
  | evidence
  | finding
deriving DecidableEq

abbrev Shape.Value : Shape → Type
  | .truth => Bool
  | .unit => Unit
  | .ty => Ty
  | .bound => Option Bound
  | .evidence => Evidence
  | .finding => Finding

inductive Argument where
  | self (e : Core.Expr)
  | expr (e : Source.Expr)

def Argument.span : Argument → Span
  | self e => e.span
  | expr e => e.span

inductive Goal : Shape → Type where
  /-- The predicate provably holds of the term. -/
  | holds (env : Env) (p : Predicate) (t : Term) : Goal .truth
  | tyHolds (env : Env) (p : Predicate) (t : Ty) : Goal .truth
  | permHolds (env : Env) (p : Predicate) (q : Perm) : Goal .truth
  /-- The predicate provably fails for the term. -/
  | refuted (env : Env) (p : Predicate) (t : Term) : Goal .truth
  | tyRefuted (env : Env) (p : Predicate) (t : Ty) : Goal .truth
  | permRefuted (env : Env) (p : Predicate) (q : Perm) : Goal .truth
  | placeHolds (env : Env) (p : Predicate) (place : Place) : Goal .truth
  | placeRefuted (env : Env) (p : Predicate) (place : Place) : Goal .truth
  /-- What is known of the variable decides the predicate; waits until something does. -/
  | inferHolds (env : Env) (i : InferIndex) (p : Predicate) : Goal .truth
  /-- One branch of a search: the predicate holds of both permissions, by requirement when the branch
  is the only one left. -/
  | attempt (env : Env) (search node : Nat) (p : Predicate) (lower upper : Perm) (o : Obligation) :
    Goal .truth
  | contend (env : Env) (search node : Nat) (p : Predicate) (lower upper : Perm) (o : Obligation) :
    Goal .truth
  | require (env : Env) (p : Predicate) (t : Term) (o : Obligation) : Goal .unit
  | establish (env : Env) (p : Predicate) (t : Term) (o : Obligation) : Goal .unit
  | establishTy (env : Env) (p : Predicate) (t : Ty) (o : Obligation) : Goal .unit
  | establishPerm (env : Env) (p : Predicate) (q : Perm) (o : Obligation) : Goal .unit
  | establishUnless (env : Env) (p : Predicate) (other t : Term) (o : Obligation) : Goal .unit
  | establishCopyPlace (env : Env) (place : Place) (o : Obligation) : Goal .unit
  | establishMovePlace (env : Env) (place : Place) (o : Obligation) : Goal .unit
  | subTerms (env : Env) (lower upper : Term) (o : Obligation) : Goal .unit
  | subTys (env : Env) (lower upper : Ty) (o : Obligation) : Goal .unit
  | subPerms (env : Env) (lower upper : Perm) (o : Obligation) : Goal .unit
  /-- The permissions of two red types are related, as far as their heads make them matter. -/
  | subPermsOfHeads (env : Env) (lower upper : RedTy) (o : Obligation) : Goal .unit
  | subHeads (env : Env) (lower upper : Head) (o : Obligation) : Goal .unit
  | equalTys (env : Env) (a b : Ty) (o : Obligation) : Goal .unit
  | postEqualTys (env : Env) (a b : Ty) (o : Obligation) : Goal .unit
  | addLowerBound (env : Env) (i : InferIndex) (t : Term) (o : Obligation) : Goal .unit
  | addUpperBound (env : Env) (i : InferIndex) (t : Term) (o : Obligation) : Goal .unit
  | checkFacts (env : Env) (i : InferIndex) : Goal .unit
  | numeric (env : Env) (t : Ty) (o : Obligation) : Goal .unit
  | future (env : Env) (t awaited : Ty) (o : Obligation) : Goal .unit
  | futureHead (env : Env) (t awaited : Ty) (o : Obligation) : Goal .unit
  | body (env : Env) (e : Source.Expr) (expected : Option Ty) : Goal .unit
  | fieldTy (env : Env) (owner : Ty) (f : Field) : Goal .ty
  | lowerBound (env : Env) (i : InferIndex) : Goal .bound
  | evidence (env : Env) (i : InferIndex) (p : Predicate) : Goal .evidence
  | expr (env : Env) (e : Source.Expr) : Goal .finding
  | argument (env : Env) (a : Argument) (v : Variable) (inputTy : Ty) : Goal .finding
  | member (env : Env) (owner : Finding) (ownerTy t : Ty) (name : Name) (span : Span) :
    Goal .finding

end Ownership
