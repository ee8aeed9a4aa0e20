import Ownership.Chain
import Ownership.Prog

namespace Ownership

namespace Rules

def checkHome (env : Env) (i : InferIndex) (t : Term) (o : Obligation) : Action Unit := do
  let home := (← Action.inferVar i).home
  t.freeVariables.forM fun v => do
    unless home.canSee (← Action.universeOf v) do
      Action.refuse env o (.universeEscape v.render)

/-- Records a lower bound. Answers the bound that was there before, or else the upper bounds that the
new one has to be checked against. -/
def recordLower (env : Env) (i : InferIndex) (t : Term) (o : Obligation) :
    Action (Bound ⊕ List Bound) := do
  let v ← Action.inferVar i
  match v.lower with
  | some b => return .inl b
  | none =>
    checkHome env i t o
    Action.setLowerBound i ⟨t, o⟩
    return .inr v.uppers

def passToSuccessors (env : Env) (i : InferIndex) (t : Term) (o : Obligation) (s : Session) :
    List (Goal .unit) :=
  match s.inferVars[i]? with
  | some v => v.successors.map fun j => .subTerms env t (.ofInfer v.kind j) o
  | none => []

def addLowerBound (env : Env) (i : InferIndex) (t : Term) (o : Obligation) : Prog Unit := do
  match ← recordLower env i t o with
  | .inl b => .relay (.subTerms env t b.term (o.becauseOfLowerBound b.term b.obligation))
  | .inr uppers =>
    let checks := uppers.map fun b =>
      Goal.subTerms env t b.term (b.obligation.becauseOfLowerBound t o)
    .eachGroup [fun _ => checks, passToSuccessors env i t o, fun _ => [.checkFacts env i]]

def passToPredecessors (env : Env) (i : InferIndex) (t : Term) (o : Obligation) (s : Session) :
    List (Goal .unit) :=
  match s.inferVars[i]? with
  | some v => v.predecessors.map fun j => .addUpperBound env j t o
  | none => []

def recordUpper (env : Env) (i : InferIndex) (t : Term) (o : Obligation) :
    Action (Option (Option Bound)) := do
  let v ← Action.inferVar i
  checkHome env i t o
  if ← Action.addUpperBound i ⟨t, o⟩ then return some v.lower
  else return none

def addUpperBound (env : Env) (i : InferIndex) (t : Term) (o : Obligation) : Prog Unit := do
  match ← recordUpper env i t o with
  | none => return ()
  | some none => .eachBesides (passToPredecessors env i t o (← Prog.perform get))
  | some (some b) =>
    let check := Goal.subTerms env b.term t (o.becauseOfLowerBound b.term b.obligation)
    .eachGroup [fun _ => [check], passToPredecessors env i t o]

def recordEdge (lower upper : InferIndex) : Action (Option (Option Bound × List Bound)) := do
  if lower = upper then return none
  if !(← Action.addEdge lower upper) then return none
  return some ((← Action.inferVar lower).lower, (← Action.inferVar upper).uppers)

def relate (env : Env) (lower upper : InferIndex) (o : Obligation) : Prog Unit := do
  match ← recordEdge lower upper with
  | none => return ()
  | some (bound, uppers) =>
    .eachBesides (bound.toList.map (fun b => Goal.addLowerBound env upper b.term o)
      ++ uppers.map fun b => Goal.addUpperBound env lower b.term b.obligation)

def subTerms (env : Env) (lower upper : Term) (o : Obligation) : Prog Unit :=
  match lower, upper with
  | .error r, _ => .raise r
  | _, .error r => .raise r
  | .ty l, .ty u => .relay (.subTys env l u o)
  | .perm l, .perm u => .relay (.subPerms env l u o)
  | .place l, .place u =>
    if l = u then return ()
    else .refuse env o (.nameMismatch l.render u.render)
  | l, u => .violate (.kindsDiffer l u)

/-- A copy type is the same under any permission: `shared[x] u32` reduces to `u32`. -/
def withoutCopyPerm (env : Env) (red : RedTy) : Prog RedTy := do
  if red.perm = .my || !red.head.isRigid then return red
  let head := red.head.toTy
  if ← Prog.ask (.holds env .copy (.ty head)) then
    Action.log env.depth "copy head drops its permission" [head.render]
    return ⟨red.head, .my⟩
  else return red

def reduced (red : RedTy) (t : Ty) : Ty :=
  if red.perm = .my then red.head.toTy else t

def subReduced (env : Env) (lower upper : Ty) (l u : RedTy) (o : Obligation) : Prog Unit :=
  match l.bareInfer, u.bareInfer with
  | some i, some j => .relayed (relate env i j o)
  | none, some j => .relay (.addLowerBound env j (.ty (reduced l lower)) o)
  | some i, none => .relay (.addUpperBound env i (.ty (reduced u upper)) o)
  | none, none => .awaited (.each [.subPermsOfHeads env l u o, .subHeads env l.head u.head o])

def subApart (env : Env) (lower upper : Ty) (o : Obligation) : Prog Unit :=
  match lower.head, upper.head with
  | .error r, _ => .raise r
  | _, .error r => .raise r
  | .never, _ => return ()
  | _, _ => do
    let l ← Prog.awaited (withoutCopyPerm env lower.red)
    let u ← Prog.awaited (withoutCopyPerm env upper.red)
    subReduced env lower upper l u o

def subTys (env : Env) (lower upper : Ty) (o : Obligation) : Prog Unit :=
  if lower = upper then return ()
  else
    .awaited (.traced env "require sub tys" [lower.render, upper.render] Prog.noResult fun env =>
      subApart env lower upper o)

def inferredHead : Head → Head → Option InferIndex
  | .infer i, _ => some i
  | _, .infer i => some i
  | _, _ => none

def subPermsOfHeads (env : Env) (l u : RedTy) (o : Obligation) : Prog Unit := do
  if l.perm = u.perm then return ()
  match inferredHead l.head u.head with
  | some i =>
    if ← Prog.ask (.inferHolds env i .copy) then return ()
    else .ask (.subPerms env l.perm u.perm o)
  | none => .ask (.subPerms env l.perm u.perm o)

def subArguments (env : Env) (o : Obligation) : List Term → List Term → Except Violation (List (Goal .unit))
  | [], _ => .ok []
  | l :: ls, u :: us => do return .subTerms env l u o :: (← subArguments env o ls us)
  | _ :: _, [] => .error .missingArgument

def headMismatch (env : Env) (l u : Head) (o : Obligation) : Prog Unit :=
  .refuse env o (.nameMismatch l.toTy.render u.toTy.render)

def subHeads (env : Env) (l u : Head) (o : Obligation) : Prog Unit :=
  match l, u with
  | .infer i, u => .relay (.subTys env (.infer i) u.toTy o)
  | l, .infer j => .relay (.subTys env l.toTy (.infer j) o)
  | .named n as, .named m bs =>
    if n = m then do .relayed (.each (← subArguments env o as bs))
    else headMismatch env (.named n as) (.named m bs) o
  | .var v, .var w => if v = w then return () else headMismatch env (.var v) (.var w) o
  | l, u => headMismatch env l u o

def chainOf (p : Perm) : Prog Chain :=
  match Chain.ofPerm p with
  | .ok c => return c
  | .error r => .raise r

/-- Chains that mix inference variables with other liens are related by their predicates: both are
copy, or both are move. -/
def compatibleChains (env : Env) (lower upper : Perm) (o : Obligation) : Prog Unit := do
  let (search, nodes) ← Action.startSearch 2
  let branches := nodes.zip [Predicate.copy, Predicate.move]
  let attempts := branches.map fun (node, p) => Goal.attempt env search node p lower upper o
  let compatible ← Prog.someOf attempts
  if compatible then return ()
  else .refuse env o (.permMismatch lower.render upper.render)

def subChains (env : Env) (l u : Chain) (o : Obligation) : Prog Unit :=
  match l.bareInfer, u.bareInfer with
  | some i, some j => .relayed (relate env i j o)
  | none, some j => .relay (.addLowerBound env j (.perm l.toPerm) o)
  | some i, none => .relay (.addUpperBound env i (.perm u.toPerm) o)
  | none, none =>
    if l.hasInfer || u.hasInfer then .relayed (compatibleChains env l.toPerm u.toPerm o)
    else if l.sub u then return ()
    else .refuse env o (.permMismatch l.toPerm.render u.toPerm.render)

def subPerms (env : Env) (lower upper : Perm) (o : Obligation) : Prog Unit := do
  if lower = upper then return ()
  subChains env (← chainOf lower) (← chainOf upper) o

def endBranch (search node : Nat) (answer : Except Failure Bool) : Action Bool := do
  if let .ok true := answer then Action.concludeSearch search
  Action.releaseBranch search node
  match answer with
  | .ok b => return b
  | .error e => throw e

def attempt (env : Env) (search node : Nat) (p : Predicate) (lower upper : Perm) (o : Obligation) :
    Prog Bool :=
  .call (.contend env search node p lower upper o) fun answer =>
    .rest 1 (.perform (endBranch search node answer))

/-- Requires the predicate when the branch is the only one left, and tests it otherwise. The choice is
revisited whenever the search changes; a test that is replaced is abandoned. -/
def contend (env : Env) (search node : Nat) (p : Predicate) (lower upper : Perm) (o : Obligation) :
    Prog Bool := do
  if (← Action.search search).isRequired node then
    Prog.awaited (.each [.require env p (.perm lower) o, .require env p (.perm upper) o])
    return true
  else
    let speculation ← Action.startSpeculation
    let env' := env.speculating speculation
    let tests := [Goal.holds env' p (.perm lower), .holds env' p (.perm upper)]
    match ← Prog.contest search tests .done with
    | some b => return b
    | none =>
      Action.abandon speculation
      .call (.contend env search node p lower upper o) .done

def equalTys (env : Env) (a b : Ty) (o : Obligation) : Prog Unit :=
  .awaited (.each [.subTys env a b o, .subTys env b a o])

def postAssignable (env : Env) (value target : Ty) (o : Obligation) : Prog Unit :=
  .post env "require assignable" fun env => .subTys env value target o

def postEqualTys (env : Env) (a b : Ty) (o : Obligation) : Prog Unit :=
  .post env "require equal types" fun env => .equalTys env a b o

def postNumeric (env : Env) (t : Ty) (o : Obligation) : Prog Unit :=
  .post env "require numeric" fun env => .numeric env t o

def postFuture (env : Env) (t awaited : Ty) (o : Obligation) : Prog Unit :=
  .post env "require future" fun env => .future env t awaited o

def postWhereClause (env : Env) (p : Predicate) (t : Term) (o : Obligation) : Prog Unit :=
  .post env "require where-clause" fun env => .require env p t o

end Rules

end Ownership
