import Ownership.Exchange.Diagnostics
import Ownership.Obligation
import Ownership.Program
import Ownership.Term.Equality

namespace Ownership

open Json (Decoded)

structure Names where
  aggregates : List (String × Aggregate)
  program : Program
  vars : List (String × Variable)

namespace Names

def aggregate (names : Names) (path : String) : Decoded Aggregate :=
  match names.aggregates.lookup path with
  | some a => .ok a
  | none => Json.malformed ("no aggregate " ++ path)

def var (names : Names) (name : String) : Decoded Variable :=
  match names.vars.lookup name with
  | some v => .ok v
  | none => Json.malformed ("no variable " ++ name)

def varsOf (names : Names) (j : Json) : Decoded (List Variable) := do
  (← j.asArray).mapM fun name => do names.var (← name.asString)

def field (names : Names) (path name : String) : Decoded Field := do
  match names.program.member (← names.aggregate path) name with
  | some (.field f) => return f
  | _ => Json.malformed ("no field " ++ name)

end Names

def Report.numbered (n : Nat) : Report := ⟨n, ⟨⟨n, 0⟩, ⟨n, 1⟩⟩, s!"error {n}"⟩

namespace Term

def asked {α : Type} (x : Except Violation α) : Decoded α :=
  x.mapError fun v => .refused v.message

def ofJsonFrom (names : Names) : (fuel : Nat) → Json → Decoded Term
  | 0, j => Json.unexpected "a term" j
  | fuel + 1, j => do
    let ty (j : Json) : Decoded Ty := do asked (← ofJsonFrom names fuel j).expectTy
    let perm (j : Json) : Decoded Perm := do asked (← ofJsonFrom names fuel j).expectPerm
    let place (j : Json) : Decoded Place := do asked (← ofJsonFrom names fuel j).expectPlace
    let report (j : Json) : Decoded Report := do return .numbered (← j.asNat)
    match j with
    | .string s =>
      match Primitive.ofName? s with
      | some p => return .ty (.primitive p)
      | none => Json.unexpected "a primitive" j
    | .array (.string form :: rest) =>
      match form, rest with
      | "named", [path] | "named", [path, .null] =>
        return .ty (.aggregate (← names.aggregate (← path.asString)) [])
      | "named", [path, args] =>
        let args ← (← args.asArray).mapM (ofJsonFrom names fuel)
        return .ty (.aggregate (← names.aggregate (← path.asString)) args)
      | "future", [t] => return .ty (.future (← ofJsonFrom names fuel t))
      | "tuple", [ts] => return .ty (.tuple (← (← ts.asArray).mapM (ofJsonFrom names fuel)))
      | "never", [] => return .ty .never
      | "perm", [p, t] => return .ty (.perm (← perm p) (← ty t))
      | "ty?", [n] => return .ty (.infer (← n.asNat))
      | "perm?", [n] => return .perm (.infer (← n.asNat))
      | "place?", [n] => return .place (.infer (← n.asNat))
      | "tyerr", [n] => return .ty (.error (← report n))
      | "permerr", [n] => return .perm (.error (← report n))
      | "placeerr", [n] => return .place (.error (← report n))
      | "err", [n] => return .error (← report n)
      | "my", [] => return .perm .my
      | "our", [] => return .perm .our
      | "shared", [ps] => return .perm (.shared (← (← ps.asArray).mapM place))
      | "leased", [ps] => return .perm (.leased (← (← ps.asArray).mapM place))
      | "apply", [l, r] => return .perm (.apply (← perm l) (← perm r))
      | "var", [name] => return .ofVariable (← names.var (← name.asString))
      | "field", [base, path, name] =>
        let f ← names.field (← path.asString) (← name.asString)
        return .place (.field (← place base) f)
      | "index", [base] => return .place (.index (← place base))
      | _, _ => Json.unexpected "a term" j
    | _ => Json.unexpected "a term" j

def ofJson (names : Names) (j : Json) : Decoded Term := ofJsonFrom names j.depth j

end Term

def Ty.ofJson (names : Names) (j : Json) : Decoded Ty := do
  Term.asked (← Term.ofJson names j).expectTy

def Perm.ofJson (names : Names) (j : Json) : Decoded Perm := do
  Term.asked (← Term.ofJson names j).expectPerm

def Place.ofJson (names : Names) (j : Json) : Decoded Place := do
  Term.asked (← Term.ofJson names j).expectPlace

def Term.toJsonAll (ts : List Term) : Json := Json.ofStrings (ts.map Term.render)

def WhereClause.ofJson (names : Names) (j : Json) : Decoded WhereClause := do
  let parts ← j.asArray
  return ⟨← Term.ofJson names (← Json.nth parts 0), ← Predicate.ofJson (← Json.nth parts 1),
    ← Span.ofJson parts[2]?⟩

end Ownership
