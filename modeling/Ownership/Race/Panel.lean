import Ownership.Obligation
import Ownership.Race

namespace Ownership

inductive Verdict where
  | truth (holds : Bool)
  | met

inductive Tally where
  | test (state : Race Failure)
  | requirement (state : Gathering Failure Unit)
  /-- An obligation that fails, for no deeper reason, when its only child says no. -/
  | demand (obligation : Obligation) (outcome : Option (Except Failure Unit))

def Tally.verdict : Tally → Option (Except Failure Verdict)
  | .test state => state.outcome.map fun outcome => outcome.map .truth
  | .requirement state => state.outcome.map fun outcome => outcome.map fun _ => .met
  | .demand _ outcome => outcome.map fun outcome => outcome.map fun _ => .met

structure Panel where
  children : Nat
  tally : Tally
  heard : List Nat := []
  diagnostics : List Diagnostic := []

namespace Panel

def any (count : Nat) : Panel where
  children := count
  tally := .test (.start true count)

def all (count : Nat) : Panel where
  children := count
  tally := .test (.start false count)

def requirement (count : Nat) : Panel where
  children := count
  tally := .requirement (.start count)

def demand (o : Obligation) : Panel where
  children := 1
  tally := .demand o none

def verdict (p : Panel) : Option (Except Failure Verdict) :=
  p.tally.verdict

def count (p : Panel) (child : Nat) (answer : Except Failure Bool) : Panel :=
  match p.tally, answer with
  | .test state, answer => { p with tally := .test (state.complete answer) }
  | .requirement state, answer =>
    { p with tally := .requirement (state.complete child (answer.map fun _ => ())) }
  | .demand o _, .ok true => { p with tally := .demand o (some (.ok ())) }
  | .demand o _, .ok false =>
    let d := o.failure .justSo
    let report : Report := ⟨p.diagnostics.length, d.span, d.message⟩
    { p with
      tally := .demand o (some (.error (.reported report)))
      diagnostics := p.diagnostics ++ [d] }
  | .demand o _, .error e => { p with tally := .demand o (some (.error e)) }

def hear (p : Panel) (child : Nat) (answer : Except Failure Bool) : Panel :=
  if child < p.children ∧ child ∉ p.heard then
    { p with heard := p.heard ++ [child] }.count child answer
  else p

end Panel

end Ownership
