import Ownership.Scope
import Ownership.Universe

namespace Ownership

structure Env where
  scope : Scope
  home : Universe
  returnTy : Option Ty
  assumptions : List (Variable × Predicate)
  depth : Nat
  speculation : Option Nat

namespace Env

def root (scope : Scope) : Env where
  scope := scope
  home := .root
  returnTy := none
  assumptions := []
  depth := 0
  speculation := none

def fork (env : Env) : Env :=
  { env with depth := env.depth + 1 }

def speculating (env : Env) (speculation : Nat) : Env :=
  { env with speculation := some speculation }

def withLocal (env : Env) (name : String) (v : Variable) : Env :=
  { env with scope := env.scope.withEntry name (.var v) }

def assumes (env : Env) (v : Variable) (p : Predicate) : Bool :=
  env.assumptions.contains (v, p)

def assuming (env : Env) (clauses : List WhereClause) : Env :=
  let assumed := clauses.filterMap fun clause =>
    match clause.subject with
    | .ty (.var v) => some (v, clause.predicate)
    | .perm (.var v) => some (v, clause.predicate)
    | _ => none
  { env with
    home := env.home.next
    assumptions := env.assumptions ++ assumed }

end Env

end Ownership
