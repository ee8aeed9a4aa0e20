import Ownership.Diagnostic

namespace Ownership

inductive Predicate where
  | copy
  | move
  | owned
  | lent
deriving DecidableEq

namespace Predicate

def name : Predicate → String
  | copy => "copy"
  | move => "move"
  | owned => "owned"
  | lent => "lent"

def ofName? (s : String) : Option Predicate :=
  [copy, move, owned, lent].find? fun p => p.name == s

def opposite : Predicate → Predicate
  | copy => move
  | move => copy
  | owned => lent
  | lent => owned

def code : Predicate → Code
  | copy => .notCopy
  | move => .notMove
  | owned => .notOwned
  | lent => .notLent

@[simp]
theorem opposite_opposite (p : Predicate) : p.opposite.opposite = p := by
  cases p <;> rfl

theorem opposite_ne (p : Predicate) : p.opposite ≠ p := by
  cases p <;> decide

end Predicate

end Ownership
