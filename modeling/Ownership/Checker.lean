import Ownership.Diagnostic.Editor
import Ownership.Resolution
import Ownership.Rules

namespace Ownership

/-- A program to check against, with numbers that its symbols and reports leave free. -/
structure World where
  config : Config
  program : Program
  scope : Scope
  nextSymbol : Nat
  nextReport : Nat

structure CheckResult where
  expr : Core.Expr
  diagnostics : List Diagnostic
  trace : List String

namespace CheckResult

def hasErrors (r : CheckResult) : Bool := Diagnostic.anyError r.diagnostics

def editorDiagnostics (r : CheckResult) (config : Config) : List EditorDiagnostic :=
  r.diagnostics.map (Diagnostic.toEditor config.documentUri)

end CheckResult

namespace World

def budget : Nat := 100000000

def session (w : World) : Session where
  config := w.config
  program := w.program
  nextSymbol := w.nextSymbol
  nextReport := w.nextReport

def machine (w : World) (β : Type) : Machine β where
  session := w.session

def drive {β : Type} (m : Machine β) : Except Failure Unit × Machine β :=
  match m.drive Rules.answer budget budget with
  | (some r, m) => (r, m)
  | (none, m) => (.error (.violated .exhausted), m)

def runSession (env : Env) (body : Source.Expr) (expected : Option Ty) (s : Session) :
    Except Failure CheckResult :=
  let m : Machine Empty := { session := s }
  let m := m.spawn "check body" (Rules.answer .unit (.body env.fork body expected))
  match drive m with
  | (.error e, _) => .error e
  | (.ok (), m) =>
    match m.session.outcome with
    | none => .error (.violated .noBody)
    | some e =>
      match (e.resolve env).run.run m.session with
      | (.error failure, _) => .error failure
      | (.ok expr, s) => .ok ⟨expr, s.diagnostics, s.trace.toList⟩

def checkExpression (w : World) (e : Source.Expr) : Except Failure CheckResult :=
  runSession (.root w.scope) e none w.session

def functionEnv (w : World) (f : Function) (s : Signature) : Action Env := do
  let named := s.generics.filterMap fun v => v.name.map fun name => (name, Entity.var v)
  let env ← Action.openUniversally (.root (w.scope.withEntries named)) s.generics
    s.types.whereClauses
  Action.log env.depth "check function body" [f.name]
  let env ← (s.inputs.zip s.types.inputTys).foldlM bindInput env
  return { env with returnTy := some s.types.outputTy }
where
  bindInput (env : Env) (input : Variable × Ty) : Action Env :=
    match input.1.name with
    | some name => Action.withLocal env name input.1 input.2
    | none => do
      Action.setVariableTy input.1 input.2
      return env

def checkFunctionBody (w : World) (f : Function) (e : Source.Expr) : Except Failure CheckResult :=
  match f.signature with
  | .error (.reported r) => .ok ⟨.error r, [], []⟩
  | .error failure => .error failure
  | .ok s =>
    match (w.functionEnv f s).run.run w.session with
    | (.error failure, _) => .error failure
    | (.ok env, session) => runSession env e (some s.types.outputTy) session

end World

end Ownership
