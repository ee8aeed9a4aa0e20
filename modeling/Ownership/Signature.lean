import Ownership.Term.Substitution

namespace Ownership

structure WhereClause where
  subject : Term
  predicate : Predicate
  span : Span

/-- The types a call relates. They may mention the inputs as places. -/
structure InputOutput where
  inputTys : List Ty
  outputTy : Ty
  whereClauses : List WhereClause

namespace InputOutput

def subst (s : Substitution) (io : InputOutput) : Except Violation InputOutput := do
  let inputTys ← io.inputTys.mapM (Ty.subst s)
  let outputTy ← io.outputTy.subst s
  let whereClauses ← io.whereClauses.mapM fun clause =>
    return { clause with subject := ← clause.subject.subst s }
  return { inputTys, outputTy, whereClauses }

end InputOutput

structure Signature where
  /-- Every generic parameter in scope: those of the owner, then the function's own. -/
  generics : List Variable
  ownGenerics : List Variable
  inputs : List Variable
  types : InputOutput

namespace Signature

def openGenerics (s : Signature) (terms : List Term) : Except Violation InputOutput := do
  let substitution ← Substitution.ofLists s.generics terms
  s.types.subst substitution

def openInputs (s : Signature) (types : InputOutput) (places : List Place) :
    Except Violation InputOutput := do
  let substitution ← Substitution.ofLists s.inputs (places.map .place)
  types.subst substitution

end Signature

structure Function where
  id : Nat
  name : String
  span : Span
  hasSelf : Bool
  signature : Except Failure Signature

end Ownership
