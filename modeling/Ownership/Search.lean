import Ownership.Failure

namespace Ownership

/-- A node of the tree: its ancestors, nearest first, and its children that are not yet released. -/
structure Alternative where
  ancestors : List Nat
  live : Nat
  hasSpawned : Bool
  released : Bool
deriving DecidableEq

structure Search where
  nodes : List Alternative
  concluded : Bool
deriving DecidableEq

namespace Search

def start : Search where
  nodes := [⟨[], 0, false, false⟩]
  concluded := false

def liveAt (s : Search) (node : Nat) : Nat :=
  match s.nodes[node]? with
  | some a => a.live
  | none => 0

def isRequired (s : Search) (node : Nat) : Bool :=
  match s.nodes[node]? with
  | some a => !s.concluded && a.ancestors.all fun ancestor => s.liveAt ancestor == 1
  | none => false

/-- Gives a node all its children at once, so that none counts as required before its siblings
exist. -/
def spawn (s : Search) (node count : Nat) : Except Violation (Search × List Nat) :=
  match s.nodes[node]? with
  | some a =>
    if a.hasSpawned then .error .alternativeHasChildren
    else
      let child : Alternative := ⟨node :: a.ancestors, 0, false, false⟩
      let first := s.nodes.length
      let nodes := s.nodes.set node { a with live := count, hasSpawned := true }
      .ok ({ s with nodes := nodes ++ List.replicate count child },
        (List.range count).map (first + ·))
  | none => .error (.stated s!"no alternative {node}")

def release (s : Search) (node : Nat) : Option Search :=
  match s.nodes[node]? with
  | none => none
  | some a =>
    match a.ancestors with
    | [] => none
    | parent :: _ =>
      if a.released then none
      else
        let marked := s.nodes.set node { a with released := true }
        match marked[parent]? with
        | none => some { s with nodes := marked }
        | some p => some { s with nodes := marked.set parent { p with live := p.live - 1 } }

def conclude (s : Search) : Search :=
  { s with concluded := true }

end Search

end Ownership
