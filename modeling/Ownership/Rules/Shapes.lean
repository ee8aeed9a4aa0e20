import Ownership.Prog

namespace Ownership

namespace Rules

def onLowerBound (env : Env) (i : InferIndex) (o : Obligation)
    (next : Ty → Obligation → Prog Unit) : Prog Unit := do
  match ← Prog.ask (.lowerBound env i) with
  | none =>
    let v ← Action.inferVar i
    .refuse env o (.unconstrainedInfer v.span)
  | some ⟨.ty t, origin⟩ => next t (o.becauseOfLowerBound (.ty t) origin)
  | some b => .violate (.boundedByPerm b.term)

def numeric (env : Env) (t : Ty) (o : Obligation) : Prog Unit := do
  match t.head with
  | .error r => .raise r
  | .never => return ()
  | .var _ => .refuse env o .justSo
  | .named (.primitive p) _ => if p.isNumeric then return () else .refuse env o .justSo
  | .named _ _ => .refuse env o .justSo
  | .infer i =>
    Action.setFallback i (.numeric env o)
    onLowerBound env i o fun t o => .relay (.numeric env t o)

def futureHead (env : Env) (t awaited : Ty) (o : Obligation) : Prog Unit := do
  match t.head with
  | .error r => .raise r
  | .named .future (result :: _) =>
    let result ← result.expectTy
    .relay (.subTys env result awaited o)
  | .named .future [] => .violate .missingArgument
  | .named _ _ => .refuse env o .justSo
  | .var _ => .refuse env o .justSo
  | .never => .refuse env o .justSo
  | .infer i => onLowerBound env i o fun t o => .relay (.futureHead env t awaited o)

def future (env : Env) (t awaited : Ty) (o : Obligation) : Prog Unit :=
  .ask (.futureHead env t awaited o)

end Rules

end Ownership
