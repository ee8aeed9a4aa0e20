import Ownership.Session

namespace Ownership

inductive Found where
  | place (p : Core.PlaceExpr)
  | value (e : Core.Expr)
  | method (self : Core.Expr) (idSpan : Span) (f : Function) (generics : Option (List Source.Generic))
  | name (r : Resolution)

structure Finding where
  temporaries : List Core.Temporary
  span : Span
  found : Found

/-- A node with the temporaries that are to be bound around its context. -/
structure Lifted (α : Type) where
  node : α
  temporaries : List Core.Temporary

namespace Diagnostic

def expectedExpression (span : Span) (r : Resolution) : Diagnostic :=
  (error span "expected an expression" (some .expectedExpression)).label .error span
    s!"I expected to find an expression but I found {r.describe}"

def missingCall (owner : Span) (method : Function) : Diagnostic :=
  ((error owner "missing call to method" (some .missingCallToMethod)).label .error owner
    s!"`{method.name}` is a method but you don't appear to be calling it").label
    .help owner.after "maybe add `()` here?"

def notImplemented (span : Span) (what : String) : Diagnostic :=
  (error span "not implemented yet" (some .notImplemented)).label .error span
    s!"sorry, but {what} have not been implemented yet"

def notCallable (span : Span) : Diagnostic :=
  (error span "not callable" (some .notCallable)).label .error span
    "this is not something you can call"

end Diagnostic

namespace Finding

def ofReport (r : Report) : Finding := ⟨[], r.span, .place (.error r)⟩

def ofExpr (e : Core.Expr) (temporaries : List Core.Temporary := []) : Finding :=
  ⟨temporaries, e.span, .value e⟩

def ofPlace (p : Core.PlaceExpr) (temporaries : List Core.Temporary := []) : Finding :=
  ⟨temporaries, p.span, .place p⟩

/-- A variable that holds a value is a place; other names wait for their context. -/
def ofResolution (r : Resolution) (span : Span) : Action Finding :=
  match r.entity with
  | .var v =>
    if v.kind = .place then do return ofPlace (.var span (← Action.variableTy v) v)
    else return ⟨[], span, .name r⟩
  | _ => return ⟨[], span, .name r⟩

def temporary (e : Core.Expr) : Action Core.Temporary := do
  let v ← Action.newVariable .place none e.span
  Action.setVariableTy v e.ty
  return ⟨v, e⟩

def ty (env : Env) (f : Finding) : Action Ty :=
  match f.found with
  | .place p => return p.ty
  | .value e => return e.ty
  | .name r => return .error (← Action.report env (.expectedExpression f.span r))
  | .method self _ fn _ => return .error (← Action.report env (.missingCall self.span fn))

def toPlace (env : Env) (f : Finding) : Action (Lifted Core.PlaceExpr) :=
  match f.found with
  | .place p => return ⟨p, f.temporaries⟩
  | .value e => do
    let t ← temporary e
    return ⟨.var e.span e.ty t.var, f.temporaries ++ [t]⟩
  | .name r => return ⟨.error (← Action.report env (.expectedExpression f.span r)), f.temporaries⟩
  | .method self _ fn _ =>
    return ⟨.error (← Action.report env (.missingCall self.span fn)), f.temporaries⟩

def toExpr (env : Env) (f : Finding) : Action (Lifted Core.Expr) :=
  match f.found with
  | .value e => return ⟨e, f.temporaries⟩
  | .place (.error r) => return ⟨.error r, f.temporaries⟩
  | .place p =>
    return ⟨.mk p.span (p.ty.sharedFrom p.toPlace) (.permissionOp .reference p), f.temporaries⟩
  | .name r => return ⟨.error (← Action.report env (.expectedExpression f.span r)), f.temporaries⟩
  | .method self _ fn _ =>
    return ⟨.error (← Action.report env (.missingCall self.span fn)), f.temporaries⟩

def toClosedExpr (env : Env) (f : Finding) : Action Core.Expr := do
  let lifted ← f.toExpr env
  return lifted.node.enclose lifted.temporaries

end Finding

end Ownership
