import Ownership.Env
import Ownership.Obligation
import Ownership.Term.Equality

namespace Ownership

structure Bound where
  term : Term
  obligation : Obligation

/-- What to do when the session stalls and nothing bounds a variable from below. -/
inductive Default where
  /-- Make it a number: the head of its first upper bound that has one, or the configured type. -/
  | numeric (env : Env) (o : Obligation)
  | bound (target : InferIndex) (b : Bound)

structure InferVar where
  kind : Kind
  span : Span
  home : Universe
  lower : Option Bound := none
  uppers : List Bound := []
  successors : List InferIndex := []
  predecessors : List InferIndex := []
  facts : List (Predicate × Obligation) := []
  excluded : List Predicate := []
  fallback : Option Default := none

inductive Evidence where
  | decided (b : Bool)
  | bounded (b : Bound)
  | unknown

def Evidence.isKnown : Evidence → Bool
  | decided _ => true
  | bounded _ => true
  | unknown => false

namespace InferVar

def withSuccessor (v : InferVar) (i : InferIndex) : InferVar := { v with successors := v.successors ++ [i] }

def withPredecessor (v : InferVar) (i : InferIndex) : InferVar :=
  if v.predecessors.contains i then v else { v with predecessors := v.predecessors ++ [i] }

def hasFact (v : InferVar) (p : Predicate) : Bool :=
  v.facts.any fun fact => fact.1 = p

def excludes (v : InferVar) (p : Predicate) : Bool :=
  v.excluded.contains p

def hasUpper (v : InferVar) (t : Term) : Bool :=
  v.uppers.any fun b => b.term = t

def evidence (v : InferVar) (p : Predicate) : Evidence :=
  if v.hasFact p then .decided true
  else if v.excludes p then .decided false
  else
    match v.lower with
    | some b => .bounded b
    | none => .unknown

def render (v : InferVar) (i : InferIndex) : String :=
  let lower := match v.lower with
    | some b => " :> " ++ b.term.detail
    | none => ""
  let facts := if v.facts.isEmpty then ""
    else " [" ++ ", ".intercalate (v.facts.map fun fact => fact.1.name) ++ "]"
  (Term.ofInfer v.kind i).render ++ lower ++ facts

def summary (v : InferVar) (i : InferIndex) : String :=
  let listed (word : String) (parts : List String) : String :=
    if parts.isEmpty then "" else " " ++ word ++ " " ++ ", ".intercalate parts
  let numbers (is : List InferIndex) : List String := (is.mergeSort (· ≤ ·)).map toString
  v.kind.name ++ " " ++ v.render i ++ " " ++ v.home.render
    ++ listed "<:" (v.uppers.map fun b => b.term.detail)
    ++ listed "succ" (numbers v.successors)
    ++ listed "pred" (numbers v.predecessors)
    ++ listed "not" ((v.excluded.map Predicate.name).mergeSort (· ≤ ·))
    ++ if v.fallback.isSome then " fallback" else ""

end InferVar

end Ownership
