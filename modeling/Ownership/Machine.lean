import Ownership.Prog
import Ownership.Race

namespace Ownership

inductive Dest where
  | root (slot : Nat)
  | task (description : String)
  | child (s : Shape) (join index : Nat)
deriving DecidableEq

def Dest.Answer (β : Type) : Dest → Type
  | .root _ => β
  | .task _ => Unit
  | .child s _ _ => s.Value

structure Fiber (β : Type) where
  dest : Dest
  waits : Nat
  code : Prog (dest.Answer β)

structure Waiting (β ρ : Type) where
  dest : Dest
  waits : Nat
  code : ρ → Prog (dest.Answer β)

def Waiting.resume {β ρ : Type} (f : Waiting β ρ) (r : ρ) : Fiber β :=
  ⟨f.dest, f.waits, f.code r⟩

inductive Join (β : Type) where
  /-- A race whose outcome is taken notice of once it is `noticed`. -/
  | race (state : Race Failure) (noticed : Bool) (fiber : Waiting β (Except Failure Bool))
  /-- A gathering that has asked for `count` answers and has groups left to ask, with the answers that
  were there at once. -/
  | enlist (s : Shape) (groups : List (Session → List (Goal s))) (count : Nat)
    (early : List (Nat × Except Failure s.Value)) (fiber : Waiting β (Except Failure (List s.Value)))
  | gather (s : Shape) (state : Gathering Failure s.Value)
    (fiber : Waiting β (Except Failure (List s.Value)))
  | contest (search : Nat) (state : Race Failure) (fiber : Waiting β (Except Failure (Option Bool)))

inductive Event (β : Type) where
  | run (f : Fiber β)
  | arrive (s : Shape) (join index : Nat) (answer : Except Failure s.Value)
  | enlist (join : Nat)
  /-- What passes the answer of a race on is about to wait for it, in the same turn. -/
  | expect (join : Nat)
  | heed (join : Nat)
  | notice (join : Nat)
  | offer (join : Nat) (outcome : Except Failure (Option Bool))

def Join.notice? {β : Type} (join search : Nat) : Join β → Option (Event β)
  | .contest s _ _ => if s = search then some (.notice join) else none
  | _ => none

abbrev Rules := (s : Shape) → Goal s → Prog s.Value

structure Machine (β : Type) where
  session : Session
  queue : List (Event β) := []
  joins : List (Nat × Join β) := []
  nextJoin : Nat := 0
  suspended : List (Nat × Waiting β Wake) := []
  nextTicket : Nat := 0
  running : Nat := 0
  failures : List Failure := []
  results : List (Nat × Except Failure β) := []

namespace Machine

variable {β : Type}

def log (m : Machine β) (message : String) (values : List String) : Machine β :=
  { m with session := ((Action.log 0 message values).run.run m.session).2 }

def enqueue (m : Machine β) (e : Event β) : Machine β :=
  { m with queue := m.queue ++ [e] }

def proceed (m : Machine β) (f : Fiber β) : Machine β :=
  { m with queue := .run f :: m.queue }

def dropJoin (m : Machine β) (join : Nat) : Machine β :=
  { m with joins := m.joins.filter fun entry => entry.1 ≠ join }

def putJoin (m : Machine β) (join : Nat) (j : Join β) : Machine β :=
  { m with joins := m.joins.map fun entry => if entry.1 = join then (join, j) else entry }

def spawn (m : Machine β) (description : String) (code : Prog Unit) : Machine β :=
  { m.enqueue (.run ⟨.task description, 0, code⟩) with running := m.running + 1 }

def start (m : Machine β) (slot : Nat) (code : Prog β) : Machine β :=
  m.enqueue (.run ⟨.root slot, 0, code⟩)

def wake (m : Machine β) (ticket : Nat) (reason : Wake) : Machine β :=
  match m.suspended.lookup ticket with
  | some fiber =>
    { m.enqueue (.run (fiber.resume reason)) with
      suspended := m.suspended.filter fun entry => entry.1 ≠ ticket }
  | none => m

def stir (m : Machine β) (search : Nat) : Machine β :=
  { m with queue := m.queue ++ m.joins.reverse.filterMap fun (join, j) => j.notice? join search }

def deliver (m : Machine β) : Signal → Machine β
  | .wake ticket reason => m.wake ticket reason
  | .stirred search => m.stir search

def deliverSignals (m : Machine β) : Machine β :=
  let signals := m.session.signals
  if signals.isEmpty then m
  else signals.foldl deliver { m with session := { m.session with signals := [] } }

def decide (m : Machine β) (join : Nat) (f : Fiber β) : Machine β :=
  (m.dropJoin join).enqueue (.run f)

def answerJoin (m : Machine β) (s : Shape) (join index : Nat) (answer : Except Failure s.Value) :
    Machine β :=
  match m.joins.lookup join with
  | none => m
  | some (.race state noticed fiber) =>
    match s, answer with
    | .truth, answer =>
      let state := state.complete answer
      match state.outcome, noticed with
      | some outcome, true => m.decide join (fiber.resume outcome)
      | _, _ => m.putJoin join (.race state noticed fiber)
    | _, _ => m
  | some (.enlist ..) => m
  | some (.gather s' state fiber) =>
    if h : s = s' then
      let state := state.complete index (h ▸ answer)
      match state.outcome with
      | some outcome => m.decide join (fiber.resume outcome)
      | none => m.putJoin join (.gather s' state fiber)
    else m
  | some (.contest search state fiber) =>
    match s, answer with
    | .truth, answer =>
      let decided := state.outcome.isSome
      let state := state.complete answer
      let m := m.putJoin join (.contest search state fiber)
      match state.outcome with
      | some outcome => if decided then m else m.enqueue (.offer join (outcome.map some))
      | none => m
    | _, _ => m

def decideContest (m : Machine β) (join : Nat) (outcome : Except Failure (Option Bool)) :
    Machine β :=
  match m.joins.lookup join with
  | some (.contest _ _ fiber) => m.decide join (fiber.resume outcome)
  | _ => m

def heedRace (m : Machine β) (join : Nat) : Machine β :=
  match m.joins.lookup join with
  | some (.race state _ fiber) =>
    match state.outcome with
    | some outcome => m.decide join (fiber.resume outcome)
    | none => m.putJoin join (.race state true fiber)
  | _ => m

def handIn (m : Machine β) (s : Shape) (join index : Nat) (answer : Except Failure s.Value) :
    Machine β :=
  match m.joins.lookup join with
  | some (.enlist s' groups count early fiber) =>
    if h : s = s' then
      m.putJoin join (.enlist s' groups count (early ++ [(index, h ▸ answer)]) fiber)
    else m
  | _ => m.enqueue (.arrive s join index answer)

/-- Ends a fiber. A task that failed with a report is only noted; a broken assumption is kept. -/
def finish (m : Machine β) : (dest : Dest) → Except Failure (dest.Answer β) → Machine β
  | .root slot, answer => { m with results := (slot, answer) :: m.results }
  | .task description, answer =>
    let m := { m with running := m.running - 1 }
    match answer with
    | .ok () => m
    | .error (.reported r) => m.log (description ++ " failed:") [r.message]
    | .error (.violated v) => { m with failures := m.failures ++ [.violated v] }
  | .child s join index, answer => m.handIn s join index answer

def children {s : Shape} (rules : Rules) (join first : Nat) (goals : List (Goal s)) :
    List (Event β) :=
  (goals.zipIdx first).map fun (g, index) => .run ⟨.child s join index, 0, rules s g⟩

def openJoin (m : Machine β) (j : Join β) (next : Nat → List (Event β)) : Machine β :=
  { m with
    joins := (m.nextJoin, j) :: m.joins
    nextJoin := m.nextJoin + 1
    queue := next m.nextJoin ++ m.queue }

/-- Asks for the next group of a gathering. After the last group the gathering is complete, and the
answers that are there already come in. -/
def enlistNext (rules : Rules) (m : Machine β) (join : Nat) : Machine β :=
  match m.joins.lookup join with
  | some (.enlist s [] count early fiber) =>
    let state : Gathering Failure s.Value := Gathering.start count
    match state.outcome with
    | some outcome => m.decide join (fiber.resume outcome)
    | none =>
      let m := m.putJoin join (.gather s state fiber)
      { m with queue := m.queue ++ early.map fun (index, answer) => .arrive s join index answer }
  | some (.enlist s (group :: groups) count early fiber) =>
    let goals := group m.session
    let m := m.putJoin join (.enlist s groups (count + goals.length) early fiber)
    { m with queue := children rules join count goals ++ .enlist join :: m.queue }
  | _ => m

def woken {α : Type} (i : InferIndex) (speculation : Option Nat) (enough : InferVar → Bool)
    (k : Wake → Prog α) : Wake → Prog α
  | .settled => k .settled
  | .changed => .update id fun s =>
    if s.inferVars[i]?.all enough then k .changed else .park i speculation enough k

def execute (rules : Rules) (m : Machine β) (dest : Dest) (waits : Nat) :
    Prog (dest.Answer β) → Machine β
  | .done r => m.finish dest r
  | .update f k =>
    let s := m.session
    deliverSignals ({ m with session := f s }.proceed ⟨dest, waits, k s⟩)
  | .call (s := s) g k => m.proceed ⟨dest, waits, (rules s g).andThen k⟩
  | .rest 0 k => m.proceed ⟨dest, waits, k⟩
  | .rest (turns + 1) k => m.enqueue (.run ⟨dest, waits + 1, .rest turns k⟩)
  | .mark k => m.proceed ⟨dest, waits, k waits⟩
  | .note _ _ k => m.proceed ⟨dest, waits, k⟩
  | .park i speculation enough k =>
    let waiter : Waiter := ⟨m.nextTicket, i, speculation⟩
    { m with
      session := { m.session with waiters := m.session.waiters ++ [waiter] }
      suspended := m.suspended ++ [(m.nextTicket, ⟨dest, waits + 1, woken i speculation enough k⟩)]
      nextTicket := m.nextTicket + 1 }
  | .race decisive passed tests k =>
    let state : Race Failure := Race.start decisive tests.length
    let fiber : Waiting β (Except Failure Bool) := ⟨dest, waits + 1, k⟩
    match state.outcome with
    | some outcome => m.enqueue (.run (fiber.resume outcome))
    | none =>
      m.openJoin (.race state (!passed) fiber) fun join =>
        children rules join 0 tests ++ if passed then [.expect join] else []
  | .gather (s := s) groups k =>
    m.openJoin (.enlist s groups 0 [] ⟨dest, waits + 1, k⟩) fun join => [.enlist join]
  | .contest search tests k =>
    m.openJoin (.contest search (Race.start false tests.length) ⟨dest, waits + 1, k⟩) fun join =>
      children rules join 0 tests
  | .spawn description g k =>
    (m.spawn description (rules .unit g)).proceed ⟨dest, waits, k⟩

def handle (rules : Rules) (m : Machine β) : Event β → Machine β
  | .run f => m.execute rules f.dest f.waits f.code
  | .arrive s join index answer => m.answerJoin s join index answer
  | .enlist join => m.enlistNext rules join
  | .expect join => m.enqueue (.heed join)
  | .heed join => m.heedRace join
  | .notice join => m.enqueue (.offer join (.ok none))
  | .offer join outcome => m.decideContest join outcome

def step (rules : Rules) (m : Machine β) : Option (Machine β) :=
  match m.queue with
  | [] => none
  | e :: rest => some ({ m with queue := rest }.handle rules e)

def run (rules : Rules) : Nat → Machine β → Machine β
  | 0, m => m
  | fuel + 1, m =>
    match m.step rules with
    | some m => m.run rules fuel
    | none => m

def defaultTy (m : Machine β) (v : InferVar) : Ty :=
  let named? (b : Bound) : Option Ty := match b.term with
    | .ty t => match t.head with
      | .named name args => some (.named name args)
      | _ => none
    | _ => none
  (v.uppers.findSome? named?).getD (.primitive m.session.config.defaultIntegerType)

def applyDefault (rules : Rules) (m : Machine β) (i : InferIndex) (v : InferVar) :
    Default → Except Failure Unit × Machine β
  | .numeric env o =>
    let ty := m.defaultTy v
    let action := Action.log env.depth "numeric default" [(Ty.infer i).render, ty.render]
    let m := { m with session := (action.run.run m.session).2 }
    (.ok (), m.spawn "numeric default" (rules .unit (.subTys env.fork ty (.infer i) o)))
  | .bound target b =>
    let (r, session) := (Action.setLowerBound target b).run.run m.session
    (r, deliverSignals { m with session })

/-- Applies the default of the first variable that has one and needs it, and says whether there was
one. Defaults that came too late are dropped on the way. -/
def applyFallback (rules : Rules) (m : Machine β) : List (InferVar × InferIndex) →
    Except Failure Bool × Machine β
  | [] => (.ok false, m)
  | (v, i) :: rest =>
    match v.fallback with
    | none => m.applyFallback rules rest
    | some d =>
      let clear := Action.modifyInferVar i fun v => { v with fallback := none }
      let m := { m with session := (clear.run.run m.session).2 }
      if v.lower.isSome then m.applyFallback rules rest
      else
        let m := m.log "applying default for" [v.render i]
        let (r, m) := m.applyDefault rules i v d
        (r.map fun _ => true, m)

def settleOldest (m : Machine β) : Except Failure Unit × Machine β :=
  match (Action.settleOldest m.running).run.run m.session with
  | (.ok ticket, session) => (.ok (), { m with session }.wake ticket .settled)
  | (.error e, session) => (.error e, { m with session })

/-- Drives every task to its end. The answer is missing when the fuel did not suffice. -/
def drive (rules : Rules) (fuel : Nat) : Nat → Machine β → Option (Except Failure Unit) × Machine β
  | 0, m => (none, m)
  | rounds + 1, m =>
    let m := m.run rules fuel
    match m.queue, m.failures with
    | _ :: _, _ => (none, m)
    | [], e :: _ => (some (.error e), m)
    | [], [] =>
      if m.running = 0 then (some (.ok ()), m)
      else
        match m.applyFallback rules m.session.inferVars.zipIdx with
        | (.error e, m) => (some (.error e), m)
        | (.ok true, m) => m.drive rules fuel rounds
        | (.ok false, m) =>
          match m.settleOldest with
          | (.error e, m) => (some (.error e), m)
          | (.ok (), m) => m.drive rules fuel rounds

end Machine

end Ownership
