namespace Ownership

structure Position where
  line : Nat
  character : Nat
deriving DecidableEq, Inhabited

structure Span where
  start : Position
  stop : Position
deriving DecidableEq, Inhabited

def Position.render (p : Position) : String :=
  s!"{p.line + 1}:{p.character + 1}"

def Span.after (s : Span) : Span :=
  ⟨s.stop, s.stop⟩

end Ownership
