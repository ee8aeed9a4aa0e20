import Ownership.Term.Equality

namespace Ownership

inductive Lien where
  | our
  | shared (places : List Place)
  | leased (places : List Place)
  | var (v : Variable)
  | infer (i : InferIndex)
deriving DecidableEq

/-- The empty chain is `my`. -/
abbrev Chain := List Lien

namespace Lien

def toPerm : Lien → Perm
  | our => .our
  | shared places => .shared places
  | leased places => .leased places
  | var v => .var v
  | infer i => .infer i

def isInfer : Lien → Bool
  | infer _ => true
  | _ => false

def placesCovered (lower upper : List Place) : Bool :=
  lower.all fun place => upper.any fun candidate => candidate.covers place

def sub : Lien → Lien → Bool
  | our, our => true
  | our, shared _ => true
  | shared lower, shared upper => placesCovered lower upper
  | leased lower, leased upper => placesCovered lower upper
  | var v, var w => v = w
  | infer i, infer j => i = j
  | _, _ => false

end Lien

namespace Chain

def push (c : Chain) : Perm → Except Report Chain
  | .my => .ok c
  | .our => .ok [.our]
  | .shared places => .ok [.shared places]
  | .leased places => .ok (c ++ [.leased places])
  | .var v => .ok (c ++ [.var v])
  | .infer i => .ok (c ++ [.infer i])
  | .apply _ _ => .ok c
  | .error r => .error r

/-- The liens of a permission; the leftmost error in it is the failure. -/
def ofPerm (p : Perm) : Except Report Chain :=
  p.leaves.foldlM push []

def toPerm : Chain → Perm
  | [] => .my
  | lien :: liens => liens.foldl (fun p l => .apply p l.toPerm) lien.toPerm

def hasInfer (c : Chain) : Bool :=
  c.any Lien.isInfer

def bareInfer : Chain → Option InferIndex
  | [.infer i] => some i
  | _ => none

/-- `my` is below itself and below a plain copy permission; otherwise chains are compared lien by
lien. -/
def sub : Chain → Chain → Bool
  | [], [] => true
  | [], [.our] => true
  | [], [.shared _] => true
  | [], _ => false
  | _ :: _, [] => false
  | l :: ls, u :: us => l.sub u && sub ls us

end Chain

end Ownership
