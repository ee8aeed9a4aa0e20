import Ownership.Search

namespace Ownership

structure Contender where
  node : Nat
  breach : Option Violation
  test : Nat

inductive ContestEvent where
  | required (node : Nat)
  | tested (test node : Nat)
  | ended (node : Nat) (answer : Except Violation Bool)

structure Contest where
  search : Search
  contenders : List Contender := []
  abandoned : List Bool := []

namespace Contest

def start : Contest where
  search := .start

/-- What a contender does next: the contest, what happens at once, and what happens when everyone has
looked. -/
def look (c : Contest) (node : Nat) (breach : Option Violation) :
    Contest × ContestEvent × Option ContestEvent :=
  if c.search.isRequired node then
    let answer := match breach with
      | some v => .error v
      | none => .ok true
    (c, .required node, some (.ended node answer))
  else
    let test := c.abandoned.length
    ({ c with
        contenders := c.contenders ++ [⟨node, breach, test⟩]
        abandoned := c.abandoned ++ [false] },
      .tested test node, none)

def enter (c : Contest) (node : Nat) (breach : Option Violation) : Contest × List ContestEvent :=
  let (c, event, ended) := c.look node breach
  (c, event :: ended.toList)

def lookAll (c : Contest) : List Contender → Contest × List ContestEvent × List ContestEvent
  | [] => (c, [], [])
  | contender :: rest =>
    let c := { c with abandoned := c.abandoned.set contender.test true }
    let (c, event, ended) := c.look contender.node contender.breach
    let (c, events, endings) := c.lookAll rest
    (c, event :: events, ended.toList ++ endings)

def changed (c : Contest) (search : Search) : Contest × List ContestEvent :=
  let (c, events, endings) := { c with search, contenders := [] }.lookAll c.contenders
  (c, events ++ endings)

def spawn (c : Contest) (node count : Nat) : Except Violation (Contest × List Nat) := do
  let (search, nodes) ← c.search.spawn node count
  return ({ c with search }, nodes)

def release (c : Contest) (node : Nat) : Contest × List ContestEvent :=
  match c.search.release node with
  | some search => c.changed search
  | none => (c, [])

def conclude (c : Contest) : Contest × List ContestEvent :=
  c.changed c.search.conclude

def answer (c : Contest) (test : Nat) (answer : Except Violation Bool) :
    Contest × List ContestEvent :=
  match c.contenders.find? fun contender => contender.test = test with
  | some contender =>
    ({ c with contenders := c.contenders.filter fun other => other.test ≠ test },
      [.ended contender.node answer])
  | none => (c, [])

end Contest

end Ownership
