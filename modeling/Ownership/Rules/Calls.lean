import Ownership.Rules.Members
import Ownership.Rules.Subtyping
import Ownership.Rules.Types

namespace Ownership

namespace Rules

/-- The signature of a callee. When it failed to check, the arguments are still checked, so that what
is wrong with them is reported. -/
def signatureOrCheckArgs (env : Env) (f : Function) (args : List Source.Expr)
    (written : List Source.Generic) : Prog (Except Report Signature) := do
  match f.signature with
  | .ok s => return .ok s
  | .error (.reported r) =>
    let _ ← generics env written
    args.forM fun e => do
      let _ ← Prog.ask (.expr env e)
    return .error r
  | .error e => throw e

def wrongArgumentCount (span : Span) (f : Function) (expected found : Nat) : Diagnostic :=
  ((Diagnostic.error span s!"expected {expected} arguments, found {found}"
    (some .callArgCountMismatch)).label .error span
    s!"I expected `{f.name}` to take {expected} arguments but I found {found}").label .info f.span
    s!"`{f.name}` defined here"

def argument (env : Env) (a : Argument) (v : Variable) (inputTy : Ty) : Prog Finding := do
  let env := env.fork
  let lifted ← match a with
    | .self e => pure ⟨e, []⟩
    | .expr e => do
      let finding ← Prog.ask (.expr env e)
      finding.toExpr env
  let value := lifted.node
  Action.setVariableTy v value.ty
  postAssignable env value.ty inputTy ⟨.subtype value.span (.ty value.ty) (.ty inputTy), []⟩
  return .ofExpr value lifted.temporaries

def toExprs (env : Env) : List Finding → Action (List Core.Expr × List Core.Temporary)
  | [] => return ([], [])
  | f :: fs => do
    let lifted ← f.toExpr env
    let (values, temporaries) ← toExprs env fs
    return (lifted.node :: values, lifted.temporaries ++ temporaries)

def bindArguments (args : List (Variable × Core.Expr)) (call : Core.Expr) : Core.Expr :=
  args.foldr (fun (v, e) body => .letIn v e.ty e body) call

def callCommon (env : Env) (f : Function) (s : Signature) (exprSpan calleeSpan : Span)
    (substitution : List Term) (args : List Argument) (temporaries : List Core.Temporary) :
    Prog Finding := do
  Action.log env.depth "check call common" [f.name]
  Action.log env.depth "substitution" (substitution.map Term.detail)
  let types ← s.openGenerics substitution
  let expected := types.inputTys.length
  if args.length ≠ expected then
    reportFinding env (wrongArgumentCount calleeSpan f expected args.length)
  else
    let inputs ← (args.mapM fun a => Action.newVariable .place none a.span : Action _)
    let types ← s.openInputs types (inputs.map .var)
    Action.log env.depth "arg temps" (inputs.map Variable.render)
    Action.log env.depth "input output" ((types.inputTys ++ [types.outputTy]).map Ty.render)
    types.whereClauses.forM fun clause =>
      postWhereClause env clause.predicate clause.subject
        ⟨.whereClause calleeSpan clause.span clause.subject clause.predicate, []⟩
    let findings ← Prog.gathered (((args.zip inputs).zip types.inputTys).map fun ((a, v), inputTy) =>
      .argument env a v inputTy)
    let (values, argTemporaries) ← toExprs env findings
    let call := Core.Expr.mk exprSpan types.outputTy (.call f substitution inputs)
    return .ofExpr (bindArguments (inputs.zip values) call) (temporaries ++ argTemporaries)

def callFunction (env : Env) (functionSpan exprSpan : Span) (f : Function) (args : List Source.Expr)
    (given : List Term) (temporaries : List Core.Temporary) : Prog Finding := do
  Action.log env.depth "check function call" [f.name]
  Action.log env.depth "generics" (given.map Term.detail)
  match ← Prog.awaited (signatureOrCheckArgs env f args []) with
  | .error r => return .ofReport r
  | .ok s =>
    if s.generics.length < given.length then
      .violate (.tooManyGenerics f.name given.length s.generics.length)
    else
      let inferred ← Action.freshFor env functionSpan (s.generics.drop given.length)
      .relayed (callCommon env f s exprSpan functionSpan (given ++ inferred) (args.map .expr)
        temporaries)

def endsWith (whole ending : List Variable) : Bool :=
  ending.length ≤ whole.length && whole.drop (whole.length - ending.length) == ending

def explicitGenerics (env : Env) (pointed : Source.Generic → Span) :
    List Variable → List Source.Generic → Prog (Except Report (List Term))
  | v :: vs, g :: gs => do
    let t ← Prog.awaited (generic env g)
    if !t.hasKind v.kind then
      let message := s!"expected `{v.kind.name}`, found `{kindText t}`"
      let d := ((Diagnostic.error g.span message (some .genericKindMismatch)).label .error (pointed g)
        s!"this is a `{kindText t}`").label .info v.span s!"I expected to find a `{v.kind.name}`"
      return .error (← Action.report env d)
    match ← explicitGenerics env pointed vs gs with
    | .ok ts => return .ok (t :: ts)
    | .error r => return .error r
  | _, _ => return .ok []

/-- The generic arguments of a method call. Explicit ones apply to the method's own parameters; those
of its class are always inferred. -/
def methodSubstitution (env : Env) (idSpan : Span) (f : Function) (s : Signature) :
    Option (List Source.Generic) → Prog (Except Report (List Term))
  | none => do return .ok (← Action.freshFor env idSpan s.generics)
  | some written => do
    if !endsWith s.generics s.ownGenerics then .violate (.genericsNotSuffix f.name)
    else
      let own := s.ownGenerics.length
      let outer ← Action.freshFor env idSpan (s.generics.take (s.generics.length - own))
      if own ≠ written.length then
        let message := s!"expected {own} generic arguments, but found {written.length}"
        let d := ((Diagnostic.error idSpan message (some .genericArgCountMismatch)).label .error
          idSpan s!"{written.length} generic arguments were provided").label .error f.span
          s!"the function `{f.name}` is declared with {own} generic arguments"
        return .error (← Action.report env d)
      match ← explicitGenerics env (fun _ => idSpan) s.ownGenerics written with
      | .ok terms => return .ok (outer ++ terms)
      | .error r => return .error r

def callMethod (env : Env) (idSpan exprSpan : Span) (f : Function) (self : Core.Expr)
    (args : List Source.Expr) (written : Option (List Source.Generic))
    (temporaries : List Core.Temporary) : Prog Finding := do
  match ← Prog.awaited (signatureOrCheckArgs env f args (written.getD [])) with
  | .error r => return .ofReport r
  | .ok s =>
    match ← methodSubstitution env idSpan f s written with
    | .error r => return .ofReport r
    | .ok substitution =>
      .relayed (callCommon env f s exprSpan idSpan substitution (.self self :: args.map .expr)
        temporaries)

def newMethod : String := "new"

def classHasNoNew (classSpan : Span) (a : Aggregate) : Diagnostic :=
  ((Diagnostic.error classSpan s!"the class `{a.name}` has no `new` method"
    (some .classHasNoNew)).label .error classSpan
    s!"I could not find a `new` method on the class `{a.name}`").child
    ((Diagnostic.note a.span ("calling a class is equivalent to calling `new`, but "
      ++ s!"`{a.name}` does not define a `new` method")).label .note a.span
      "I could not find any class member named `new`")

def classNewNotAFunction (classSpan : Span) (a : Aggregate) (found : Resolution) : Diagnostic :=
  ((Diagnostic.error classSpan s!"the class `{a.name}` has no `new` method"
    (some .classNewNotAFunction)).label .error classSpan
    s!"I could not find a `new` method on the class `{a.name}`").child
    ((Diagnostic.note a.span
      "calling a class is equivalent to calling `new`, but `new` is not a method").label .note
      (found.span?.getD a.span)
      s!"I found a class member named `new` but it is {found.describe}, not a method")

def callClass (env : Env) (classSpan exprSpan : Span) (r : Resolution) (a : Aggregate)
    (args : List Source.Expr) (temporaries : List Core.Temporary) : Prog Finding := do
  match ← resolveRelative env r newMethod classSpan with
  | .error report => return .ofReport report
  | .ok (.found ⟨.function f, given⟩) =>
    .relayed (callFunction env classSpan exprSpan f args given temporaries)
  | .ok (.found found) => reportFinding env (classNewNotAFunction classSpan a found)
  | .ok (.notFound _) => reportFinding env (classHasNoNew classSpan a)

end Rules

end Ownership
