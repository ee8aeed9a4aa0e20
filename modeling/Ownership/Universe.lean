namespace Ownership

structure Universe where
  level : Nat
deriving DecidableEq

namespace Universe

def root : Universe := ⟨1⟩

def next (u : Universe) : Universe := ⟨u.level + 1⟩

/-- Variables introduced in `other` are visible from `u`. -/
def canSee (u other : Universe) : Bool :=
  other.level ≤ u.level

def render (u : Universe) : String :=
  s!"U{u.level}"

@[simp]
theorem canSee_iff (u other : Universe) : u.canSee other = true ↔ other.level ≤ u.level := by
  simp [canSee]

end Universe

end Ownership
