import Ownership.Failure

namespace Ownership

namespace Term

def expectTy : Term → Except Violation Ty
  | ty t => .ok t
  | error r => .ok (.error r)
  | t => .error (.expected .type t)

def expectPerm : Term → Except Violation Perm
  | perm p => .ok p
  | error r => .ok (.error r)
  | t => .error (.expected .perm t)

def expectPlace : Term → Except Violation Place
  | place p => .ok p
  | error r => .ok (.error r)
  | t => .error (.expected .place t)

end Term

/-- What becomes of the leaves of a term; a leaf answered by `none` stays. -/
structure Replacement (m : Type → Type) where
  var : Variable → m (Option Term)
  infer : Kind → InferIndex → m (Option Term)

section Replace

variable {m : Type → Type} [Monad m] [MonadLiftT (Except Violation) m]

def Place.replace (r : Replacement m) : Place → m Place
  | .var v => do
    match ← r.var v with
    | none => pure (.var v)
    | some t => liftM t.expectPlace
  | .field base f => do return .field (← base.replace r) f
  | .index base => do return .index (← base.replace r)
  | .infer i => do
    match ← r.infer .place i with
    | none => pure (.infer i)
    | some t => liftM t.expectPlace
  | .error e => pure (.error e)

def Place.replaceAll (r : Replacement m) : List Place → m (List Place)
  | [] => pure []
  | p :: ps => do
    let p' ← p.replace r
    let ps' ← Place.replaceAll r ps
    pure (p' :: ps')

def Perm.replace (r : Replacement m) : Perm → m Perm
  | .my => pure .my
  | .our => pure .our
  | .shared places => do return .shared (← Place.replaceAll r places)
  | .leased places => do return .leased (← Place.replaceAll r places)
  | .apply left right => do
    let left' ← left.replace r
    let right' ← right.replace r
    pure (.apply left' right')
  | .infer i => do
    match ← r.infer .perm i with
    | none => pure (.infer i)
    | some t => liftM t.expectPerm
  | .var v => do
    match ← r.var v with
    | none => pure (.var v)
    | some t => liftM t.expectPerm
  | .error e => pure (.error e)

mutual
def Ty.replace (r : Replacement m) : Ty → m Ty
  | .perm p t => do
    let p' ← p.replace r
    let t' ← t.replace r
    pure (.perm p' t')
  | .named name args => do return .named name (← Term.replaceAll r args)
  | .infer i => do
    match ← r.infer .type i with
    | none => pure (.infer i)
    | some t => liftM t.expectTy
  | .var v => do
    match ← r.var v with
    | none => pure (.var v)
    | some t => liftM t.expectTy
  | .never => pure .never
  | .error e => pure (.error e)

def Term.replace (r : Replacement m) : Term → m Term
  | .ty t => do return .ty (← t.replace r)
  | .perm p => do return .perm (← p.replace r)
  | .place p => do return .place (← p.replace r)
  | .error e => pure (.error e)

def Term.replaceAll (r : Replacement m) : List Term → m (List Term)
  | [] => pure []
  | t :: ts => do
    let t' ← t.replace r
    let ts' ← Term.replaceAll r ts
    pure (t' :: ts')
end

end Replace

/-- Terms for variables, applied at once. Of two entries for a variable the later one counts. -/
structure Substitution where
  entries : List (Variable × Term)

namespace Substitution

def ofLists (vs : List Variable) (terms : List Term) : Except Violation Substitution :=
  if vs.length = terms.length then .ok ⟨vs.zip terms⟩
  else .error (.substitutionArity terms.length vs.length)

def lookup (s : Substitution) (v : Variable) : Option Term :=
  (s.entries.reverse.find? fun entry => entry.1 = v).map (·.2)

def replacement (s : Substitution) : Replacement (Except Violation) where
  var v := .ok (s.lookup v)
  infer _ _ := .ok none

end Substitution

def Perm.subst (s : Substitution) (p : Perm) : Except Violation Perm :=
  p.replace s.replacement

def Ty.subst (s : Substitution) (t : Ty) : Except Violation Ty :=
  t.replace s.replacement

def Term.subst (s : Substitution) (t : Term) : Except Violation Term :=
  t.replace s.replacement

def Place.occurrences : Place → List Variable
  | .var v => [v]
  | .field base _ => base.occurrences
  | .index base => base.occurrences
  | .infer _ => []
  | .error _ => []

def Perm.occurrences : Perm → List Variable
  | .shared places => places.flatMap Place.occurrences
  | .leased places => places.flatMap Place.occurrences
  | .apply left right => left.occurrences ++ right.occurrences
  | .var v => [v]
  | .my | .our | .infer _ | .error _ => []

mutual
def Ty.occurrences : Ty → List Variable
  | .perm p t => p.occurrences ++ t.occurrences
  | .named _ args => Term.occurrencesAll args
  | .var v => [v]
  | .infer _ | .never | .error _ => []

def Term.occurrences : Term → List Variable
  | .ty t => t.occurrences
  | .perm p => p.occurrences
  | .place p => p.occurrences
  | .error _ => []

def Term.occurrencesAll : List Term → List Variable
  | [] => []
  | t :: ts => t.occurrences ++ Term.occurrencesAll ts
end

def Term.freeVariables (t : Term) : List Variable :=
  t.occurrences.foldl (fun seen v => if seen.contains v then seen else seen ++ [v]) []

end Ownership
