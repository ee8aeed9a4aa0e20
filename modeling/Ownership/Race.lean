namespace Ownership

structure Race (ε : Type) where
  decisive : Bool
  remaining : Nat
  outcome : Option (Except ε Bool)

namespace Race

variable {ε : Type}

def start (decisive : Bool) (count : Nat) : Race ε where
  decisive := decisive
  remaining := count
  outcome := if count = 0 then some (.ok !decisive) else none

def complete (r : Race ε) (answer : Except ε Bool) : Race ε :=
  match r.outcome with
  | some _ => r
  | none =>
    match answer with
    | .error e => { r with outcome := some (.error e) }
    | .ok b =>
      if b = r.decisive then { r with outcome := some (.ok r.decisive) }
      else
        let remaining := r.remaining - 1
        { r with
          remaining := remaining
          outcome := if remaining = 0 then some (.ok !r.decisive) else none }

end Race

structure Gathering (ε α : Type) where
  answers : List (Option α)
  outcome : Option (Except ε (List α))

namespace Gathering

variable {ε α : Type}

def complete? : List (Option α) → Option (List α)
  | [] => some []
  | none :: _ => none
  | some a :: rest => (complete? rest).map (a :: ·)

def start (count : Nat) : Gathering ε α where
  answers := List.replicate count none
  outcome := if count = 0 then some (.ok []) else none

def complete (g : Gathering ε α) (index : Nat) (answer : Except ε α) : Gathering ε α :=
  match g.outcome with
  | some _ => g
  | none =>
    match answer with
    | .error e => { g with outcome := some (.error e) }
    | .ok a =>
      let answers := g.answers.set index (some a)
      { answers, outcome := (complete? answers).map .ok }

end Gathering

end Ownership
