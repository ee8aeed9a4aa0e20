import Ownership.Prog
import Ownership.Rules.Places

namespace Ownership

namespace Predicate

def ofMy : Predicate → Bool
  | copy => false
  | move => true
  | owned => true
  | lent => false

def ofOur : Predicate → Bool
  | copy => true
  | move => false
  | owned => true
  | lent => false

def ofShared : Predicate → Bool
  | copy => true
  | move => false
  | owned => false
  | lent => true

def ofNever : Predicate → Bool
  | copy => true
  | move => false
  | owned => true
  | lent => false

/-- A permission applied to something satisfies the predicate as soon as one side does; otherwise
both sides have to. -/
def isDisjunctive : Predicate → Bool
  | copy => true
  | move => false
  | owned => false
  | lent => true

end Predicate

inductive NamedRule where
  | always
  | never
  | someArgument
  | everyArgument
deriving DecidableEq

def Predicate.ofNamed (p : Predicate) (name : TyName) : NamedRule :=
  match p, name with
  | .copy, .primitive _ => .always
  | .copy, .future => .never
  | .copy, .aggregate a => if a.isClass then .never else .someArgument
  | .copy, .tuple _ => .someArgument
  | .move, .primitive _ => .never
  | .move, .future => .always
  | .move, .aggregate a => if a.isClass then .always else .someArgument
  | .move, .tuple _ => .someArgument
  | .owned, _ => .everyArgument
  | .lent, _ => .someArgument

namespace Rules

def combine (disjunctive : Bool) (tests : List (Goal .truth)) : Prog Bool :=
  if disjunctive then .anyOf tests else .allOf tests

def leasedHolds (env : Env) (p : Predicate) (places : List Place) : Prog Bool :=
  match p with
  | .copy => .allOf (places.map (.placeHolds env .copy))
  | .move => .allOf (places.map (.placeHolds env .move))
  | .owned => return false
  | .lent => return true

def permHolds (env : Env) (p : Predicate) : Perm → Prog Bool
  | .error r => .raise r
  | .my => return p.ofMy
  | .our => return p.ofOur
  | .shared _ => return p.ofShared
  | .leased places => leasedHolds env p places
  | .apply l r => combine p.isDisjunctive [.permHolds env p l, .permHolds env p r]
  | .var v => return env.assumes v p
  | .infer i => .relay (.inferHolds env i p)

def tyHolds (env : Env) (p : Predicate) : Ty → Prog Bool
  | .error r => .raise r
  | .perm q t => combine p.isDisjunctive [.permHolds env p q, .tyHolds env p t]
  | .named name args =>
    match p.ofNamed name with
    | .always => return true
    | .never => return false
    | .someArgument => .anyOf (args.map (.holds env p))
    | .everyArgument => .allOf (args.map (.holds env p))
  | .infer i => .relay (.inferHolds env i p)
  | .var v => return env.assumes v p
  | .never => return p.ofNever

def holds (env : Env) (p : Predicate) : Term → Prog Bool
  | .error r => .raise r
  | .ty t => .relay (.tyHolds env p t)
  | .perm q => .relay (.permHolds env p q)
  | .place place => .violate (.placeQuery p place)

/-- The best current guess that the predicate fails for a variable; does not wait. -/
def inferRefuted (env : Env) (i : InferIndex) (p : Predicate) : Prog Bool := do
  let v ← Action.inferVar i
  if v.excludes p then return true
  if v.hasFact p then return false
  match v.lower with
  | some b => .relay (.refuted env p b.term)
  | none => return true

def permRefuted (env : Env) (p : Predicate) : Perm → Prog Bool
  | .error r => .raise r
  | .my => return !p.ofMy
  | .our => return !p.ofOur
  | .shared _ => return !p.ofShared
  | .leased places => .anyOf (places.map (.placeRefuted env p))
  | .apply l r => combine (!p.isDisjunctive) [.permRefuted env p l, .permRefuted env p r]
  | .var v => return !env.assumes v p
  | .infer i => .relayed (inferRefuted env i p)

def tyRefuted (env : Env) (p : Predicate) : Ty → Prog Bool
  | .error r => .raise r
  | .perm q t => combine (!p.isDisjunctive) [.permRefuted env p q, .tyRefuted env p t]
  | .named name args =>
    match p.ofNamed name with
    | .always => return false
    | .never => return true
    | .someArgument => .allOf (args.map (.refuted env p))
    | .everyArgument => .anyOf (args.map (.refuted env p))
  | .infer i => .relayed (inferRefuted env i p)
  | .var v => return !env.assumes v p
  | .never => return false

/-- Copy and move are refuted by rules of their own; owned is refuted by lent and lent by owned. -/
def refuted (env : Env) (p : Predicate) (t : Term) : Prog Bool :=
  match p, t with
  | .owned, t => holds env .lent t
  | .lent, t => holds env .owned t
  | _, .error r => .raise r
  | p, .ty t => .relay (.tyRefuted env p t)
  | p, .perm q => .relay (.permRefuted env p q)
  | p, .place place => .violate (.placeQuery p place)

def placeHolds (env : Env) (p : Predicate) (place : Place) : Prog Bool := do
  let t ← Prog.awaited (placeTy env place)
  .relay (.tyHolds env p t)

def placeRefuted (env : Env) (p : Predicate) (place : Place) : Prog Bool := do
  let t ← Prog.awaited (placeTy env place)
  .relay (.tyRefuted env p t)

def inferHolds (env : Env) (i : InferIndex) (p : Predicate) : Prog Bool := do
  match ← Prog.ask (.evidence env i p) with
  | .decided b => return b
  | .bounded b => .relay (.holds env p b.term)
  | .unknown => return false

def evidence (env : Env) (i : InferIndex) (p : Predicate) : Prog Evidence := do
  let known := (← Action.inferVar i).evidence p
  if known.isKnown then return known
  Prog.wait env i fun v => (v.evidence p).isKnown
  return (← Action.inferVar i).evidence p

def lowerBound (env : Env) (i : InferIndex) : Prog (Option Bound) := do
  match (← Action.inferVar i).lower with
  | some b => return some b
  | none =>
    Prog.wait env i fun v => v.lower.isSome
    return (← Action.inferVar i).lower

/-- Records that the predicate must hold of the variable. Answers the lower bound that is to be
checked, if the fact is new and there is one. For a permission the opposite predicate is excluded. -/
def recordFact (env : Env) (i : InferIndex) (p : Predicate) (o : Obligation) :
    Action (Option Bound) := do
  let v ← Action.inferVar i
  if v.excludes p then Action.refuse env o (.inferIsnt p)
  if !(← Action.addFact i p o) then return none
  if v.kind = .perm then Action.exclude i p.opposite
  return v.lower

def establishInfer (env : Env) (i : InferIndex) (p : Predicate) (o : Obligation) : Prog Unit := do
  match ← recordFact env i p o with
  | some b => .ask (.require env p b.term (o.becauseOfLowerBound b.term b.obligation))
  | none => return ()

def establishVar (env : Env) (v : Variable) (p : Predicate) (o : Obligation) : Prog Unit :=
  if env.assumes v p then return ()
  else .refuse env o (.varNotDeclaredToBe v.render p)

/-- A permission applied to something satisfies copy or lent if either side does: whichever side the
other cannot vouch for is required to. -/
def establishEither (env : Env) (p : Predicate) (l r : Term) (o : Obligation) : Prog Unit :=
  .awaited (.each [.establishUnless env p r l o, .establishUnless env p l r o])

def checkSome (env : Env) (o : Obligation) (tests : List (Goal .truth)) : Prog Unit := do
  if ← Prog.someOf tests then return ()
  else .refuse env o .justSo

def check (env : Env) (o : Obligation) (condition : Bool) : Prog Unit :=
  if condition then return () else .refuse env o .justSo

def establishPerm (env : Env) (p : Predicate) (o : Obligation) : Perm → Prog Unit
  | .error r => .raise r
  | .my => check env o p.ofMy
  | .our => check env o p.ofOur
  | .shared _ => check env o p.ofShared
  | .leased places =>
    match p with
    | .copy => .relayed (.each (places.map fun place => .establishCopyPlace env place o))
    | .move => .relayed (.each (places.map fun place => .establishMovePlace env place o))
    | .owned => .refuse env o .justSo
    | .lent => return ()
  | .apply l r =>
    if p.isDisjunctive then .relayed (establishEither env p (.perm l) (.perm r) o)
    else .relayed (.each [.establishPerm env p l o, .establishPerm env p r o])
  | .var v => .relayed (establishVar env v p o)
  | .infer i => .relayed (establishInfer env i p o)

def namedReason (p : Predicate) (name : TyName) (args : List Term) : Because :=
  match p, name with
  | .copy, _ => .classIsNotCopy (Ty.named name args).render
  | .move, .primitive q => .primitiveIsCopy q.name
  | _, _ => .justSo

def establishTy (env : Env) (p : Predicate) (o : Obligation) : Ty → Prog Unit
  | .error r => .raise r
  | .perm q t =>
    if p.isDisjunctive then .relayed (establishEither env p (.perm q) (.ty t) o)
    else .relayed (.each [.establishPerm env p q o, .establishTy env p t o])
  | .named name args =>
    match p.ofNamed name with
    | .always => return ()
    | .never => .refuse env o (namedReason p name args)
    | .someArgument => .relayed (checkSome env o (args.map (.holds env p)))
    | .everyArgument => .relayed (.each (args.map fun t => .establish env p t o))
  | .infer i => .relayed (establishInfer env i p o)
  | .var v => .relayed (establishVar env v p o)
  | .never =>
    match p with
    | .copy => .refuse env o .neverIsNotCopy
    | .move => return ()
    | .owned => return ()
    | .lent => .refuse env o .justSo

def establish (env : Env) (p : Predicate) (t : Term) (o : Obligation) : Prog Unit :=
  match t with
  | .error r => .raise r
  | .ty t => .relay (.establishTy env p t o)
  | .perm q => .relay (.establishPerm env p q o)
  | .place place => .violate (.placeRequirement p place)

def require (env : Env) (p : Predicate) (t : Term) (o : Obligation) : Prog Unit :=
  .awaited (.traced env ("require " ++ p.name) [t.detail] Prog.noResult fun env =>
    .relay (.establish env p t o))

def establishUnless (env : Env) (p : Predicate) (other t : Term) (o : Obligation) : Prog Unit := do
  if ← Prog.ask (.holds env p other) then return ()
  else .ask (.establish env p t o)

def establishCopyPlace (env : Env) (place : Place) (o : Obligation) : Prog Unit := do
  let t ← Prog.awaited (placeTy env place)
  .relay (.establishTy env .copy t (o.becauseOfLeasedPlace place))

def establishMovePlace (env : Env) (place : Place) (o : Obligation) : Prog Unit := do
  let t ← Prog.awaited (placeTy env place)
  if ← Prog.ask (.tyHolds env .move t) then return ()
  else .refuse env o (.leasedFromCopyIsCopy [place.render])

def checkFacts (env : Env) (i : InferIndex) : Prog Unit := do
  let v ← Action.inferVar i
  match v.lower with
  | none => return ()
  | some b =>
    .each (v.facts.map fun (p, o) =>
      .require env p b.term (o.becauseOfLowerBound b.term b.obligation))

end Rules

end Ownership
