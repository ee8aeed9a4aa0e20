import Ownership.Goal

namespace Ownership

inductive Prog (α : Type) where
  | done (r : Except Failure α)
  /-- Changes the session, and goes on with the session as it was before. -/
  | update (f : Session → Session) (k : Session → Prog α)
  | call {s : Shape} (g : Goal s) (k : Except Failure s.Value → Prog α)
  | rest (turns : Nat) (k : Prog α)
  /-- Tells how often the program has waited so far. -/
  | mark (k : Nat → Prog α)
  | note {s : Shape} (g : Goal s) (r : Except Failure s.Value) (k : Prog α)
  /-- Waits until the variable has changed so that enough is known of it, or is settled. -/
  | park (i : InferIndex) (speculation : Option Nat) (enough : InferVar → Bool) (k : Wake → Prog α)
  /-- Tests side by side; one answer `decisive` decides. An answer that is `passed` on is taken notice
  of from the next turn on. -/
  | race (decisive passed : Bool) (tests : List (Goal .truth)) (k : Except Failure Bool → Prog α)
  /-- Goals side by side, all of whose answers are needed. A group of them is chosen when those before
  it have gone as far as they can without waiting. -/
  | gather {s : Shape} (groups : List (Session → List (Goal s)))
    (k : Except Failure (List s.Value) → Prog α)
  /-- Whether all the tests answer true, or the next change of a search, whichever comes first. -/
  | contest (search : Nat) (tests : List (Goal .truth)) (k : Except Failure (Option Bool) → Prog α)
  | spawn (description : String) (g : Goal .unit) (k : Prog α)

namespace Prog

variable {α β : Type}

def andThen (f : Except Failure α → Prog β) : Prog α → Prog β
  | done r => f r
  | update g k => update g fun s => (k s).andThen f
  | call g k => call g fun r => (k r).andThen f
  | rest turns k => rest turns (k.andThen f)
  | mark k => mark fun n => (k n).andThen f
  | note g r k => note g r (k.andThen f)
  | park i speculation enough k => park i speculation enough fun w => (k w).andThen f
  | race decisive passed tests k => race decisive passed tests fun r => (k r).andThen f
  | gather groups k => gather groups fun r => (k r).andThen f
  | contest search tests k => contest search tests fun r => (k r).andThen f
  | spawn description g k => spawn description g (k.andThen f)

instance : Monad Prog where
  pure a := done (.ok a)
  bind p f := p.andThen fun
    | .ok a => f a
    | .error e => done (.error e)

instance : MonadExceptOf Failure Prog where
  throw e := done (.error e)
  tryCatch p handle := p.andThen fun
    | .ok a => done (.ok a)
    | .error e => handle e

def perform (a : Action α) : Prog α :=
  update (fun s => (a.run.run s).2) fun s => done (a.run.run s).1

instance : MonadLift Action Prog where
  monadLift := perform

instance : MonadLift (Except Violation) Prog where
  monadLift x := match x with
    | .ok a => pure a
    | .error v => throw (.violated v)

def noted {s : Shape} (g : Goal s) (p : Prog s.Value) : Prog s.Value :=
  p.andThen fun r => note g r (done r)

def awaited (p : Prog α) : Prog α := p.andThen fun r => rest 1 (done r)

def relayed (p : Prog α) : Prog α :=
  mark fun before => p.andThen fun r =>
    mark fun after => rest (if after = before then 2 else 1) (done r)

def ask {s : Shape} (g : Goal s) : Prog s.Value := awaited (call g done)

def relay {s : Shape} (g : Goal s) : Prog s.Value := relayed (call g done)

def raced (decisive : Bool) (tests : List (Goal .truth)) : Prog Bool :=
  if tests.isEmpty then rest 2 (done (.ok !decisive)) else race decisive true tests done

def anyOf (tests : List (Goal .truth)) : Prog Bool := raced true tests

def allOf (tests : List (Goal .truth)) : Prog Bool := raced false tests

def someOf (tests : List (Goal .truth)) : Prog Bool := race true false tests done

def gathered {s : Shape} (goals : List (Goal s)) : Prog (List s.Value) :=
  gather [fun _ => goals] done

def eachGroup (groups : List (Session → List (Goal .unit))) : Prog Unit := do
  let _ ← Prog.gather groups done

def each (goals : List (Goal .unit)) : Prog Unit := eachGroup [fun _ => goals]

/-- All requirements hold, and so does one that is known to. -/
def eachBesides (goals : List (Goal .unit)) : Prog Unit :=
  if goals.isEmpty then rest 2 (done (.ok ())) else each goals

def wait (env : Env) (i : InferIndex) (enough : InferVar → Bool) : Prog Unit :=
  park i env.speculation enough fun _ => done (.ok ())

def post (env : Env) (description : String) (g : Env → Goal .unit) : Prog Unit :=
  spawn description (g env.fork) (done (.ok ()))

def traced (env : Env) (task : String) (values : List String) (result : String)
    (body : Env → Prog α) : Prog α := do
  Action.log env.depth (Style.bold.paint task) values
  let a ← awaited (body env.fork)
  Action.log env.depth (Style.bold.paint task ++ " " ++ Style.green.paint "=>") [result]
  return a

def noResult : String := "undefined"

def someFinding : String := "[object Object]"

def refuse (env : Env) (o : Obligation) (because : Because) : Prog α :=
  perform (Action.refuse env o because)

def raise (r : Report) : Prog α := done (.error (.reported r))

def violate (v : Violation) : Prog α := done (.error (.violated v))

end Prog

end Ownership
