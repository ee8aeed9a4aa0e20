import Ownership.Term

namespace Ownership

mutual
def Ty.same : Ty → Ty → Bool
  | .perm p t, .perm q u => p == q && t.same u
  | .named m as, .named n bs => m == n && Term.sameAll as bs
  | .infer i, .infer j => i == j
  | .var v, .var w => v == w
  | .never, .never => true
  | .error r, .error s => r == s
  | _, _ => false

def Term.same : Term → Term → Bool
  | .ty t, .ty u => t.same u
  | .perm p, .perm q => p == q
  | .place p, .place q => p == q
  | .error r, .error s => r == s
  | _, _ => false

def Term.sameAll : List Term → List Term → Bool
  | [], [] => true
  | a :: as, b :: bs => a.same b && Term.sameAll as bs
  | _, _ => false
end

mutual
theorem Ty.same_iff (t u : Ty) : t.same u = true ↔ t = u := by
  cases t <;> cases u <;> simp [Ty.same]
  case perm.perm p t q u => simp [Ty.same_iff t u]
  case named.named m as n bs => simp [Term.sameAll_iff as bs]

theorem Term.same_iff (a b : Term) : a.same b = true ↔ a = b := by
  cases a <;> cases b <;> simp [Term.same]
  case ty.ty t u => exact Ty.same_iff t u

theorem Term.sameAll_iff (as bs : List Term) : Term.sameAll as bs = true ↔ as = bs := by
  cases as <;> cases bs <;> simp [Term.sameAll]
  case cons.cons a as b bs => simp [Term.same_iff a b, Term.sameAll_iff as bs]
end

instance : DecidableEq Ty := fun t u => decidable_of_iff _ (Ty.same_iff t u)

instance : DecidableEq Term := fun a b => decidable_of_iff _ (Term.same_iff a b)

end Ownership
