import Ownership.Session

namespace Ownership

structure ResolutionState where
  resolved : List (InferIndex × Term) := []
  inProgress : List InferIndex := []

abbrev Resolving := StateT ResolutionState Action

namespace Resolving

def annotationsNeeded (span : Span) : Diagnostic :=
  (Diagnostic.error span "type annotations needed" (some .typeAnnotationsNeeded)).label .error span
    "I could not infer a type for this"

def tyVar (env : Env) (v : InferVar) (replacement : Replacement Resolving) : Resolving Term := do
  match v.lower.orElse fun _ => v.uppers.head? with
  | some ⟨.ty t, _⟩ => return .ty (← t.replace replacement)
  | _ => return .ty (.error (← Action.report env (annotationsNeeded v.span)))

def permVar (v : InferVar) (replacement : Replacement Resolving) : Resolving Term := do
  match v.lower with
  | some ⟨.perm p, _⟩ => return .perm (← p.replace replacement)
  | _ => return .perm (if v.hasFact .copy then .our else .my)

/-- What a variable stands for; one that is bounded through itself stays as it is. Each level works on
another variable, so their number is fuel enough. -/
def infer (env : Env) : Nat → Kind → InferIndex → Resolving (Option Term)
  | 0, _, _ => return none
  | fuel + 1, kind, i => do
    let state ← get
    match state.resolved.lookup i with
    | some t => return some t
    | none =>
      if state.inProgress.contains i then return none
      set { state with inProgress := i :: state.inProgress }
      let v ← Action.inferVar i
      let replacement : Replacement Resolving :=
        { var := fun _ => return none
          infer := infer env fuel }
      let term ← match kind with
        | .type => some <$> tyVar env v replacement
        | .perm => some <$> permVar v replacement
        | .place => pure none
      modify fun state =>
        { resolved := match term with
            | some t => (i, t) :: state.resolved
            | none => state.resolved
          inProgress := state.inProgress.filter (· ≠ i) }
      return term

def replacement (env : Env) (count : Nat) : Replacement Resolving where
  var _ := return none
  infer := infer env (count + 1)

def placeExpr (r : Replacement Resolving) : Core.PlaceExpr → Resolving Core.PlaceExpr
  | .var span ty v => do return .var span (← ty.replace r) v
  | .field span ty owner f => do
    let ty ← ty.replace r
    let owner ← placeExpr r owner
    return .field span ty owner f
  | .error report => return .error report

mutual
def expr (r : Replacement Resolving) : Core.Expr → Resolving Core.Expr
  | .mk span ty n => do
    let ty ← ty.replace r
    let n ← node r n
    return .mk span ty n

def node (r : Replacement Resolving) : Core.Node → Resolving Core.Node
  | .semi first rest => do
    let first ← expr r first
    let rest ← expr r rest
    return .semi first rest
  | .tuple elements => do return .tuple (← exprList r elements)
  | .integral bits => return .integral bits
  | .bytes text => return .bytes text
  | .declare v ty body => do
    let ty ← ty.replace r
    let body ← expr r body
    return .declare v ty body
  | .letIn v ty initializer body => do
    let ty ← ty.replace r
    let initializer ← expr r initializer
    let body ← expr r body
    return .letIn v ty initializer body
  | .await future awaitSpan => do return .await (← expr r future) awaitSpan
  | .assign place value => do
    let place ← placeExpr r place
    let value ← expr r value
    return .assign place value
  | .permissionOp op place => do return .permissionOp op (← placeExpr r place)
  | .call f substitution args => do return .call f (← Term.replaceAll r substitution) args
  | .ret value => do return .ret (← expr r value)
  | .not operand opSpan => do return .not (← expr r operand) opSpan
  | .negate operand opSpan => do return .negate (← expr r operand) opSpan
  | .binary op left right => do
    let left ← expr r left
    let right ← expr r right
    return .binary op left right
  | .cond arms => do return .cond (← armList r arms)
  | .error report => return .error report

def arm (r : Replacement Resolving) : Core.Arm → Resolving Core.Arm
  | .when condition body => do
    let condition ← expr r condition
    let body ← expr r body
    return .when condition body
  | .otherwise body => do return .otherwise (← expr r body)

def exprList (r : Replacement Resolving) : List Core.Expr → Resolving (List Core.Expr)
  | [] => return []
  | e :: es => do
    let e ← expr r e
    let es ← exprList r es
    return e :: es

def armList (r : Replacement Resolving) : List Core.Arm → Resolving (List Core.Arm)
  | [] => return []
  | a :: as => do
    let a ← arm r a
    let as ← armList r as
    return a :: as
end

end Resolving

def Ty.resolve (env : Env) (t : Ty) : Action Ty := do
  let count := (← get).inferVars.length
  StateT.run' (t.replace (Resolving.replacement env count)) {}

def Perm.resolve (env : Env) (p : Perm) : Action Perm := do
  let count := (← get).inferVars.length
  StateT.run' (p.replace (Resolving.replacement env count)) {}

def Core.Expr.resolve (env : Env) (e : Core.Expr) : Action Core.Expr := do
  let count := (← get).inferVars.length
  StateT.run' (Resolving.expr (Resolving.replacement env count) e) {}

end Ownership
