import Ownership.Rules.Places

namespace Ownership

namespace Diagnostic

def expectedButFound (span : Span) (expected : String) (r : Resolution) (code : Code) : Diagnostic :=
  (error span s!"expected {expected}" (some code)).label .error span
    s!"I expected {expected} but I found {r.describe}"

def unexpectedGenerics (span : Span) (reason : String) : Diagnostic :=
  (error span "unexpected generic arguments" (some .unexpectedGenericArgs)).label .error span reason

def takesNoGenerics (r : Resolution) : String :=
  r.describe ++ " does not take generic arguments"

end Diagnostic

namespace Rules

def resolveName (env : Env) (name : String) (span : Span) : Action (Except Report Resolution) := do
  match env.scope.resolve name span with
  | .ok r => return .ok r
  | .error d => return .error (← Action.report env d)

def resolveRelative (env : Env) (r : Resolution) (name : String) (span : Span) :
    Action (Except Report RelativeResolution) := do
  match r.relative (← get).program name span with
  | .ok relative => return .ok relative
  | .error d => return .error (← Action.report env d)

def resolveRest (env : Env) (r : Resolution) : List Name → Action (Except Report Resolution)
  | [] => return .ok r
  | segment :: rest => do
    match ← resolveRelative env r segment.id segment.span with
    | .error report => return .error report
    | .ok (.found r) => resolveRest env r rest
    | .ok (.notFound _) =>
      let message := s!"could not find `{segment.id}` in {r.describe}"
      return .error (← Action.report env
        ((Diagnostic.error segment.span message (some .unresolvedName)).label .error segment.span
          "I could not find anything with this name :("))

def resolvePath (env : Env) (first : Name) (rest : List Name) :
    Action (Except Report Resolution) := do
  match ← resolveName env first.id first.span with
  | .error report => return .error report
  | .ok r => resolveRest env r rest

def kindText (t : Term) : String :=
  match t.kind? with
  | some k => k.name
  | none => Prog.noResult

def firstMisfit : List Kind → List Term → List Span → List (Option Variable) →
    Option (Kind × Term × Span × Option Variable)
  | k :: ks, t :: ts, s :: ss, v :: vs =>
    if t.hasKind k then firstMisfit ks ts ss vs else some (k, t, s, v)
  | _, _, _, _ => none

def checkGenericArgs (env : Env) (span : Span) (name : String) (expected : List Kind)
    (parameters : List (Option Variable)) (written : List Source.Generic) (args : List Term) :
    Action (Option Report) := do
  if expected.length ≠ args.length then
    let message := s!"expected {expected.length} generic arguments, found {args.length}"
    return some (← Action.report env
      ((Diagnostic.error span message (some .genericArgCountMismatch)).label .error span
        s!"`{name}` takes {expected.length} generic arguments"))
  match firstMisfit expected args (written.map Source.Generic.span) parameters with
  | none => return none
  | some (kind, t, argSpan, parameter) =>
    let message := s!"expected `{kind.name}`, found `{kindText t}`"
    let d := (Diagnostic.error argSpan message (some .genericKindMismatch)).label .error argSpan
      s!"`{t.render}` is a `{kindText t}`"
    let d := match parameter with
      | some v => d.label .info v.span s!"I expected to find a `{kind.name}`"
      | none => d
    return some (← Action.report env d)

def futureName : String := "Future"

def namedTyOfResolution (env : Env) (span : Span) (written : List Source.Generic) (args : List Term)
    (r : Resolution) : Action Ty := do
  let unexpected := Diagnostic.unexpectedGenerics span (Diagnostic.takesNoGenerics r)
  match r.entity with
  | .primitive p =>
    if args.isEmpty then return .primitive p
    else return .error (← Action.report env unexpected)
  | .aggregate a =>
    let kinds := a.generics.map Variable.kind
    match ← checkGenericArgs env span a.name kinds (a.generics.map some) written args with
    | some report => return .error report
    | none => return .aggregate a args
  | .var v =>
    if v.kind ≠ .type then
      return .error (← Action.report env (.expectedButFound span "a type" r .expectedType))
    else if args.isEmpty then return .var v
    else return .error (← Action.report env unexpected)
  | _ => return .error (← Action.report env (.expectedButFound span "a type" r .expectedType))

def namedTy (env : Env) (span : Span) (first : Name) (rest : List Name)
    (written : List Source.Generic) (args : List Term) : Action Ty := do
  if rest.isEmpty ∧ first.id = futureName ∧ (env.scope.lookup futureName).isNone then
    match ← checkGenericArgs env span futureName [.type] [none] written args with
    | some report => return .error report
    | none => return .named .future args
  else
    match ← resolvePath env first rest with
    | .error report => return .error report
    | .ok r => namedTyOfResolution env span written args r

def findField (env : Env) (base : Place) (segment : Name) : Prog Field := do
  let baseTy ← Prog.awaited (placeTy env base)
  let program := (← (get : Action Session)).program
  let missing : Prog Field := do
    let d := (Diagnostic.error segment.span s!"no field named `{segment.id}`"
      (some .noSuchMember)).label .error segment.span
      s!"`{base.render}` has type `{baseTy.render}`, which has no field `{segment.id}`"
    .raise (← Action.report env d)
  match baseTy.head with
  | .error r => .raise r
  | .named (.aggregate a) _ =>
    match program.member a segment.id with
    | some (.field f) => return f
    | _ => missing
  | _ => missing

def placeFields (env : Env) (base : Place) : List Name → Prog Place
  | [] => return base
  | segment :: rest => do
    let f ← Prog.awaited (findField env base segment)
    placeFields env (.field base f) rest

def place (env : Env) (p : Source.Place) : Prog Place := do
  match ← resolveName env p.root.id p.root.span with
  | .error report => return .error report
  | .ok r =>
    let expected := Diagnostic.expectedButFound p.root.span "a place" r .expectedPlace
    match r.entity with
    | .var v =>
      if v.kind ≠ .place then return .error (← Action.report env expected)
      else
        (placeFields env (.var v) p.fields).andThen fun
          | .ok place => return place
          | .error (.reported report) => return .error report
          | .error e => throw e
    | _ => return .error (← Action.report env expected)

def places (env : Env) : List Source.Place → Prog (List Place)
  | [] => return []
  | p :: ps => do
    let p ← Prog.awaited (place env p)
    let ps ← places env ps
    return p :: ps

def perm (env : Env) : Source.Perm → Prog Perm
  | .my _ => return .my
  | .our _ => return .our
  | .shared _ written => return .shared (← Prog.awaited (places env written))
  | .leased _ written => return .leased (← Prog.awaited (places env written))
  | .named span none => do
    let d := Diagnostic.error span "expected a permission" (some .expectedPermission)
    return .error (← Action.report env d)
  | .named _ (some name) => do
    match ← resolveName env name.id name.span with
    | .error report => return .error report
    | .ok r =>
      let expected := Diagnostic.expectedButFound name.span "a permission" r .expectedPermission
      match r.entity with
      | .var v =>
        if v.kind = .perm then return .var v else return .error (← Action.report env expected)
      | _ => return .error (← Action.report env expected)

def loneVariable (env : Env) : Source.Ty → Option Variable
  | .named _ first [] [] =>
    match env.scope.lookup first.id with
    | some (.var v) => some v
    | _ => none
  | _ => none

mutual
def ty (env : Env) : Source.Ty → Prog Ty
  | .named span first rest written => .relayed do
    let args ← generics env written
    namedTy env span first rest written args
  | .perm _ p t => do
    let p ← Prog.awaited (perm env p)
    let t ← Prog.awaited (ty env t)
    return p.applyTo t
  | .tuple _ elements => do return .tuple ((← tys env elements).map .ty)

def tys (env : Env) : List Source.Ty → Prog (List Ty)
  | [] => return []
  | t :: ts => do
    let t ← Prog.awaited (ty env t)
    let ts ← tys env ts
    return t :: ts

def generic (env : Env) : Source.Generic → Prog Term
  | .perm p => .relayed do return .perm (← perm env p)
  | .ty t =>
    match loneVariable env t with
    | some v => return .ofVariable v
    | none => .relayed do return .ty (← ty env t)

def generics (env : Env) : List Source.Generic → Prog (List Term)
  | [] => return []
  | g :: gs => do
    let t ← Prog.awaited (generic env g)
    let ts ← generics env gs
    return t :: ts
end

end Rules

end Ownership
