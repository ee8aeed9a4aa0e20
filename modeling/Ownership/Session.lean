import Ownership.Config
import Ownership.Core
import Ownership.Inference
import Ownership.Search
import Ownership.Term.Equality
import Ownership.Trace

namespace Ownership

inductive Wake where
  | changed
  | settled
deriving DecidableEq

structure Waiter where
  ticket : Nat
  infer : InferIndex
  speculation : Option Nat

inductive Signal where
  | wake (ticket : Nat) (reason : Wake)
  | stirred (search : Nat)

structure Session where
  config : Config
  program : Program
  variableTys : List (Variable × Ty) := []
  universes : List (Variable × Universe) := []
  inferVars : List InferVar := []
  diagnostics : List Diagnostic := []
  trace : Array String := #[]
  waiters : List Waiter := []
  searches : List Search := []
  nextSpeculation : Nat := 0
  /-- Speculative tests whose answer nobody waits for. -/
  abandoned : List Nat := []
  settleRounds : Nat := 0
  signals : List Signal := []
  nextSymbol : Nat
  nextReport : Nat
  outcome : Option Core.Expr := none

abbrev Action := ExceptT Failure (StateM Session)

instance : MonadLift (Except Violation) Action where
  monadLift x := match x with
    | .ok a => pure a
    | .error v => throw (.violated v)

namespace Action

def violate {α : Type} (v : Violation) : Action α := throw (.violated v)

def log (depth : Nat) (message : String) (values : List String) : Action Unit :=
  modify fun s =>
    if s.config.trace then { s with trace := s.trace.push (Trace.line depth message values) }
    else s

def recordDiagnostic (d : Diagnostic) : Action Report := do
  let s ← get
  set { s with diagnostics := s.diagnostics ++ [d], nextReport := s.nextReport + 1 }
  return ⟨s.nextReport, d.span, d.message⟩

def report (env : Env) (d : Diagnostic) : Action Report := do
  log env.depth "report" [d.message]
  recordDiagnostic d

def reportFailure (env : Env) (o : Obligation) (because : Because) : Action Report :=
  report env (o.failure because)

def refuse {α : Type} (env : Env) (o : Obligation) (because : Because) : Action α := do
  throw (.reported (← reportFailure env o because))

def inferVar (i : InferIndex) : Action InferVar := do
  match (← get).inferVars[i]? with
  | some v => return v
  | none => violate (.unknownInferVar i)

def modifyInferVar (i : InferIndex) (f : InferVar → InferVar) : Action Unit :=
  modify fun s => { s with inferVars := s.inferVars.modify i f }

def notify (i : InferIndex) : Action Unit :=
  modify fun s =>
    let woken := s.waiters.filter fun w => w.infer = i
    { s with
      waiters := s.waiters.filter fun w => w.infer ≠ i
      signals := s.signals ++ woken.map fun w => .wake w.ticket .changed }

def freshInferVar (env : Env) (kind : Kind) (span : Span) : Action InferIndex := do
  let s ← get
  let i := s.inferVars.length
  let v : InferVar := { kind, span, home := env.home }
  set { s with inferVars := s.inferVars ++ [v] }
  log 0 s!"fresh {kind.name} inference variable" [toString i, env.home.render]
  return i

def freshTy (env : Env) (span : Span) : Action Ty := do
  return .infer (← freshInferVar env .type span)

def freshPerm (env : Env) (span : Span) : Action Perm := do
  return .infer (← freshInferVar env .perm span)

def freshTerm (env : Env) (kind : Kind) (span : Span) : Action Term := do
  return .ofInfer kind (← freshInferVar env kind span)

def freshFor (env : Env) (span : Span) (vs : List Variable) : Action (List Term) :=
  vs.mapM fun v => freshTerm env v.kind span

def setLowerBound (i : InferIndex) (b : Bound) : Action Unit := do
  let v ← inferVar i
  if v.lower.isSome then violate (.lowerBoundTaken i)
  modifyInferVar i fun v => { v with lower := some b }
  log 0 "lower bound" [{ v with lower := some b }.render i]
  notify i

def addUpperBound (i : InferIndex) (b : Bound) : Action Bool := do
  let v ← inferVar i
  if v.hasUpper b.term then return false
  modifyInferVar i fun v => { v with uppers := v.uppers ++ [b] }
  notify i
  return true

def addEdge (lower upper : InferIndex) : Action Bool := do
  let v ← inferVar lower
  if v.successors.contains upper then return false
  modifyInferVar lower (·.withSuccessor upper)
  let _ ← inferVar upper
  modifyInferVar upper (·.withPredecessor lower)
  notify lower
  notify upper
  return true

def addFact (i : InferIndex) (p : Predicate) (o : Obligation) : Action Bool := do
  let v ← inferVar i
  if v.hasFact p then return false
  modifyInferVar i fun v => { v with facts := v.facts ++ [(p, o)] }
  notify i
  return true

def exclude (i : InferIndex) (p : Predicate) : Action Unit := do
  let v ← inferVar i
  unless v.excludes p do
    modifyInferVar i fun v => { v with excluded := v.excluded ++ [p] }
    notify i

def setFallback (i : InferIndex) (d : Default) : Action Unit := do
  let v ← inferVar i
  if v.fallback.isNone then
    modifyInferVar i fun v => { v with fallback := some d }

def variableTy (v : Variable) : Action Ty := do
  match (← get).variableTys.lookup v with
  | some ty => return ty
  | none => violate (.untypedVariable v)

def setVariableTy (v : Variable) (ty : Ty) : Action Unit :=
  modify fun s => { s with variableTys := (v, ty) :: s.variableTys }

def newVariable (kind : Kind) (name : Option String) (span : Span) : Action Variable := do
  let s ← get
  set { s with nextSymbol := s.nextSymbol + 1 }
  return ⟨s.nextSymbol, kind, name, span⟩

def withLocal (env : Env) (name : String) (v : Variable) (ty : Ty) : Action Env := do
  setVariableTy v ty
  return env.withLocal name v

def universeOf (v : Variable) : Action Universe := do
  return ((← get).universes.lookup v).getD .root

def openUniversally (env : Env) (vs : List Variable) (clauses : List WhereClause) :
    Action Env := do
  let env := env.assuming clauses
  modify fun s =>
    { s with
      universes := vs.foldl (fun us v => (v, env.home) :: us) s.universes }
  return env

def startSearch (branches : Nat) : Action (Nat × List Nat) := do
  let s ← get
  let (search, nodes) ← Search.start.spawn 0 branches
  set { s with searches := s.searches ++ [search] }
  return (s.searches.length, nodes)

def search (i : Nat) : Action Search := do
  return (← get).searches[i]?.getD .start

def stir (i : Nat) (search : Search) : Action Unit :=
  modify fun s =>
    { s with
      searches := s.searches.set i search
      signals := s.signals ++ [.stirred i] }

def concludeSearch (i : Nat) : Action Unit := do
  stir i (← search i).conclude

def releaseBranch (i node : Nat) : Action Unit := do
  match (← search i).release node with
  | some released => stir i released
  | none => return ()

def startSpeculation : Action Nat := do
  let s ← get
  set { s with nextSpeculation := s.nextSpeculation + 1 }
  return s.nextSpeculation

def abandon (speculation : Nat) : Action Unit :=
  modify fun s => { s with abandoned := speculation :: s.abandoned }

def dropWaiter (message : String) (w : Waiter) : Action Unit := do
  modify fun s => { s with waiters := s.waiters.filter fun other => other.ticket ≠ w.ticket }
  let v ← inferVar w.infer
  log 0 message [v.render w.infer]

def isAbandoned (s : Session) (w : Waiter) : Bool :=
  match w.speculation with
  | some n => s.abandoned.contains n
  | none => false

def settleOldest (running : Nat) : Action Nat := do
  let s ← get
  (s.waiters.filter (isAbandoned s)).forM (dropWaiter "dropping abandoned waiter on")
  match (← get).waiters with
  | [] => violate (.stalled running)
  | oldest :: _ =>
    modify fun s => { s with settleRounds := s.settleRounds + 1 }
    let s ← get
    if s.config.maxSettleRounds.floor < s.settleRounds then violate (.gaveUp s.config.maxSettleRounds)
    dropWaiter "settling" oldest
    return oldest.ticket

end Action

end Ownership
