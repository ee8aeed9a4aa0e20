import Ownership.Rules.Calls

namespace Ownership

namespace Rules

def integerValue? (text : String) : Option Nat :=
  let digits := text.toList.filter (· ≠ '_')
  if digits.isEmpty || !digits.all Char.isDigit then none
  else some (digits.foldl (fun n c => 10 * n + (c.toNat - '0'.toNat)) 0)

def invalidInteger (span : Span) (text : String) : Diagnostic :=
  (Diagnostic.error span s!"invalid integer literal `{text}`" (some .invalidIntegerLiteral)).label
    .error span "I expected only decimal digits here"

def literal (env : Env) (span : Span) : Source.Literal → Prog Finding
  | .integer text =>
    match integerValue? text with
    | none => reportFinding env (invalidInteger span text)
    | some bits => do
      let ty ← Action.freshTy env span
      postNumeric env ty ⟨.numeric span ty none, []⟩
      return .ofExpr (.mk span ty (.integral bits))
  | .string text => do
    let text := Text.encodable text
    let bytes ← Finding.temporary
      (.mk span (Prelude.pointerTy (.primitive .u8)) (.bytes text))
    let length ← Finding.temporary
      (.mk span (.primitive .u32) (.integral text.utf8ByteSize))
    let call := Core.Expr.mk span Prelude.stringTy
      (.call Prelude.literal [] [bytes.var, length.var])
    return .ofExpr call [bytes, length]
  | .boolean text =>
    if text = "true" then return .ofExpr (.boolean span true)
    else if text = "false" then return .ofExpr (.boolean span false)
    else .violate (.unrecognizedBoolean text)

def values (env : Env) : List Source.Expr → Prog (List Core.Expr × List Core.Temporary)
  | [] => return ([], [])
  | e :: es => do
    let finding ← Prog.ask (.expr env e)
    let lifted ← finding.toExpr env
    let (rest, temporaries) ← values env es
    return (lifted.node :: rest, lifted.temporaries ++ temporaries)

def value (env : Env) (e : Source.Expr) : Prog (Lifted Core.Expr) := do
  let finding ← Prog.ask (.expr env e)
  finding.toExpr env

def placeExpr (env : Env) (e : Source.Expr) : Prog (Lifted Core.PlaceExpr) := do
  let finding ← Prog.ask (.expr env e)
  finding.toPlace env

def closedValue (env : Env) (e : Source.Expr) : Prog Core.Expr := do
  let finding ← Prog.ask (.expr env e)
  finding.toClosedExpr env

def postBoolean (env : Env) (e : Core.Expr) : Prog Unit :=
  postAssignable env e.ty .bool ⟨.boolean e.span e.ty, []⟩

def postOperands (env : Env) (opSpan : Span) (left right : Core.Expr) : Prog Unit := do
  postNumeric env left.ty ⟨.numeric left.span left.ty (some opSpan), []⟩
  postNumeric env right.ty ⟨.numeric right.span right.ty (some opSpan), []⟩
  unless left.ty.isNever || right.ty.isNever do
    .post env "require equal operand types" fun env =>
      .postEqualTys env left.ty right.ty ⟨.operandsMatch opSpan left.ty right.ty, []⟩

def binary (env : Env) (span : Span) (op : Source.BinaryOperator) (opSpan : Span)
    (left right : Source.Expr) : Prog Finding := do
  let l ← value env left
  let r ← value env right
  let temporaries := l.temporaries ++ r.temporaries
  let yes := Core.Expr.boolean span true
  let no := Core.Expr.boolean span false
  match op with
  | .and =>
    postBoolean env l.node
    postBoolean env r.node
    return .ofExpr (.ifThenElse span l.node (.ifThenElse span r.node yes no) no) temporaries
  | .or =>
    postBoolean env l.node
    postBoolean env r.node
    return .ofExpr (.ifThenElse span l.node yes (.ifThenElse span r.node yes no)) temporaries
  | .operator op =>
    postOperands env opSpan l.node r.node
    let ty := if op.isArithmetic then l.node.ty else .bool
    return .ofExpr (.mk span ty (.binary op l.node r.node)) temporaries

def unary (env : Env) (span : Span) (op : UnaryOperator) (opSpan : Span) (operand : Source.Expr) :
    Prog Finding := do
  let e ← value env operand
  match op with
  | .not =>
    postBoolean env e.node
    return .ofExpr (.mk span .bool (.not e.node opSpan)) e.temporaries
  | .negate =>
    postNumeric env e.node.ty ⟨.numeric e.node.span e.node.ty (some opSpan), []⟩
    return .ofExpr (.mk span e.node.ty (.negate e.node opSpan)) e.temporaries

def dot (env : Env) (span : Span) (owner : Source.Expr) (name : Name) : Prog Finding := do
  let finding ← Prog.ask (.expr env owner)
  match finding.found with
  | .name r =>
    match ← resolveRelative env r name.id name.span with
    | .error report => return .ofReport report
    | .ok (.found r) => Finding.ofResolution r span
    | .ok (.notFound r) =>
      .relayed (lookupMember env { finding with found := .name r } name span)
  | .method self _ f _ => reportFinding env (.missingCall self.span f)
  | _ => .relayed (lookupMember env finding name span)

structure GenericTarget where
  name : String
  given : List Term
  expected : List Variable

/-- What generic arguments of a name apply to. For a function they are its own parameters; those of
its class that were not given are inferred. -/
def genericTarget (env : Env) (span : Span) (r : Resolution) :
    Action (Except Report GenericTarget) := do
  let unexpected := Diagnostic.unexpectedGenerics span (Diagnostic.takesNoGenerics r)
  match r.entity with
  | .aggregate a =>
    if r.generics.isEmpty then return .ok ⟨a.name, [], a.generics⟩
    else return .error (← Action.report env unexpected)
  | .function f =>
    match f.signature with
    | .error (.reported report) => return .error report
    | .error e => throw e
    | .ok s =>
      let outer := sliceBeforeEnd s.generics s.ownGenerics.length
      if outer.length < r.generics.length then
        let d := Diagnostic.unexpectedGenerics span
          s!"`{f.name}` already has its generic arguments"
        return .error (← Action.report env d)
      let inferred ← Action.freshFor env span (outer.drop r.generics.length)
      return .ok ⟨f.name, r.generics ++ inferred, s.ownGenerics⟩
  | _ => return .error (← Action.report env unexpected)
where
  /-- The list without its last `count` elements; when there are fewer, the missing ones are taken
  off the end once more. -/
  sliceBeforeEnd (vs : List Variable) (count : Nat) : List Variable :=
    if count ≤ vs.length then vs.take (vs.length - count)
    else vs.take (vs.length - (count - vs.length))

def applyGenerics (env : Env) (span : Span) (r : Resolution) (written : List Source.Generic) :
    Prog (Except Report Resolution) := do
  match ← genericTarget env span r with
  | .error report => return .error report
  | .ok target =>
    let expected := target.expected.length
    if written.length ≠ expected then
      let message := s!"expected {expected} generic arguments, but found {written.length}"
      let d := ((Diagnostic.error span message (some .genericArgCountMismatch)).label .error span
        s!"{written.length} generic arguments were provided").label .info (r.span?.getD span)
        s!"`{target.name}` is declared with {expected} generic arguments"
      return .error (← Action.report env d)
    match ← explicitGenerics env (·.span) target.expected written with
    | .error report => return .error report
    | .ok terms => return .ok { r with generics := target.given ++ terms }

def bracket (env : Env) (span : Span) (owner : Source.Expr) (args : List Source.Generic) :
    Prog Finding := do
  let finding ← Prog.ask (.expr env owner)
  match finding.found with
  | .method self idSpan f none =>
    return { finding with found := .method self idSpan f (some args) }
  | .method self _ f (some _) => reportFinding env (.missingCall self.span f)
  | .place (.error r) => return .ofReport r
  | .place _ => reportFinding env (.notImplemented span "indexing expressions")
  | .value _ => reportFinding env (.notImplemented span "indexing expressions")
  | .name r =>
    match ← Prog.awaited (applyGenerics env span r args) with
    | .error report => return .ofReport report
    | .ok r => return ⟨finding.temporaries, span, .name r⟩

def call (env : Env) (span : Span) (owner : Source.Expr) (args : List Source.Expr) :
    Prog Finding := do
  let finding ← Prog.ask (.expr env owner)
  match finding.found with
  | .method self idSpan f written =>
    .relayed (callMethod env idSpan span f self args written finding.temporaries)
  | .place (.error r) => return .ofReport r
  | .name ⟨.function f, given⟩ =>
    .relayed (callFunction env finding.span span f args given finding.temporaries)
  | .name ⟨.aggregate a, given⟩ =>
    .relayed (callClass env finding.span span ⟨.aggregate a, given⟩ a args finding.temporaries)
  | _ => reportFinding env (.notCallable finding.span)

def returnOutside (span : Span) : Diagnostic :=
  (Diagnostic.error span "unexpected `return` statement" (some .returnOutsideFunction)).label .error
    span "I did not expect to see a `return` statement here"

def returnExpr (env : Env) (span : Span) (value : Lifted Core.Expr) : Prog Finding := do
  match env.returnTy with
  | none => reportFinding env (returnOutside span)
  | some returnTy =>
    let e := value.node
    postAssignable env e.ty returnTy ⟨.returnValue e.span e.ty returnTy, []⟩
    return .ofExpr (.mk span .never (.ret e)) value.temporaries

def arm (env : Env) : Source.Arm → Prog Core.Arm
  | .when condition body => do
    let condition ← closedValue env condition
    postBoolean env condition
    let body ← closedValue env body
    return .when condition body
  | .otherwise body => do return .otherwise (← closedValue env body)

def cond (env : Env) (span : Span) (arms : List Source.Arm) : Prog Finding := do
  let arms ← arms.mapM (arm env)
  let ty ← if arms.any Core.Arm.isOtherwise then Action.freshTy env span else pure Ty.unit
  arms.forM fun arm =>
    let body := arm.body
    postAssignable env body.ty ty ⟨.subtype body.span (.ty body.ty) (.ty ty), []⟩
  return .ofExpr (.mk span ty (.cond arms))

def permissionOpTy (op : PermissionOp) (ty : Ty) (place : Place) : Ty :=
  match op with
  | .mutate => ty.leasedFrom place
  | .reference => ty.sharedFrom place
  | .give => ty

def permissionOp (env : Env) (span : Span) (op : PermissionOp) (e : Source.Expr) :
    Prog Finding := do
  let place ← placeExpr env e
  match place.node with
  | .error r => return .ofReport r
  | p =>
    let ty := permissionOpTy op p.ty p.toPlace
    return .ofExpr (.mk span ty (.permissionOp op p)) place.temporaries

def letTy (env : Env) (name : Name) : Option Source.Ty → Prog Ty
  | some t => .awaited (ty env t)
  | none => Action.freshTy env name.span

def block (env : Env) (span : Span) : Source.Block → Prog Core.Expr
  | .nil => return .unit span
  | .tail e => closedValue env e
  | .statement stmtSpan e rest => do
    let first ← closedValue env e
    let rest ← Prog.awaited (block env span rest)
    return .mk stmtSpan rest.ty (.semi first rest)
  | .letVar name annotation rest => .relayed do
    let ty ← letTy env name annotation
    let v ← Action.newVariable .place (some name.id) name.span
    let env ← Action.withLocal env name.id v ty
    return .declare v ty (← Prog.awaited (block env span rest))
  | .letInit name annotation initializer rest => .relayed do
    let ty ← letTy env name annotation
    let e ← closedValue env initializer
    postAssignable env e.ty ty ⟨.letInitializer e.span name.id ty e.ty, []⟩
    let v ← Action.newVariable .place (some name.id) name.span
    let env ← Action.withLocal env name.id v ty
    return .letIn v ty e (← Prog.awaited (block env span rest))

def exprForm (env : Env) : Source.Expr → Prog Finding
  | .literal span l => literal env span l
  | .tuple span elements => do
    let (es, temporaries) ← values env elements
    return .ofExpr (.mk span (.tuple (es.map fun e => .ty e.ty)) (.tuple es)) temporaries
  | .binary span op opSpan left right => .relayed (binary env span op opSpan left right)
  | .assign span target e => do
    let p ← placeExpr env target
    let v ← value env e
    postAssignable env v.node.ty p.node.ty
      ⟨.assignment v.node.span p.node.span p.node.ty v.node.ty, []⟩
    return .ofExpr (.mk span .unit (.assign p.node v.node)) (p.temporaries ++ v.temporaries)
  | .id span name => do
    match ← resolveName env name span with
    | .error report => return .ofReport report
    | .ok r => Finding.ofResolution r span
  | .dot span owner name => .relayed (dot env span owner name)
  | .bracket span owner args => .relayed (bracket env span owner args)
  | .call span owner args => .relayed (call env span owner args)
  | .returnUnit span => returnExpr env span ⟨.unit span, []⟩
  | .returnValue span e => do returnExpr env span (← value env e)
  | .await span e awaitSpan => do
    let future ← value env e
    let awaited ← Action.freshTy env awaitSpan
    let ty := future.node.ty
    postFuture env ty awaited ⟨.awaitable awaitSpan future.node.span ty, []⟩
    return .ofExpr (.mk span awaited (.await future.node awaitSpan)) future.temporaries
  | .unary span op opSpan operand => .relayed (unary env span op opSpan operand)
  | .cond span arms => .relayed (cond env span arms)
  | .permissionOp span op e => .relayed (permissionOp env span op e)
  | .block span b => do return .ofExpr (← Prog.awaited (block env span b))

def expr (env : Env) (e : Source.Expr) : Prog Finding :=
  .traced env "check expr" [e.form] Prog.someFinding fun env => exprForm env e

def body (env : Env) (e : Source.Expr) (expected : Option Ty) : Prog Unit :=
  (Prog.awaited (checked env e)).andThen fun
    | .ok checked => keep checked
    | .error (.reported r) => keep (.error r)
    | .error failure => throw failure
where
  checked (env : Env) (e : Source.Expr) : Prog Core.Expr := do
    let value ← closedValue env e
    match expected with
    | some ty => postAssignable env value.ty ty ⟨.returnValue value.span value.ty ty, []⟩
    | none => pure ()
    return value
  keep (e : Core.Expr) : Prog Unit :=
    (modify fun s => { s with outcome := some e } : Action Unit)

end Rules

end Ownership
