import Ownership.Diagnostic
import Ownership.Symbol

namespace Ownership

abbrev InferIndex := Nat

inductive Place where
  | var (v : Variable)
  | field (base : Place) (f : Field)
  | index (base : Place)
  | infer (i : InferIndex)
  | error (r : Report)
deriving DecidableEq

/-- How a value may be used. `apply l r` is `r` reached through `l`. -/
inductive Perm where
  | my
  | our
  | shared (places : List Place)
  | leased (places : List Place)
  | apply (left right : Perm)
  | infer (i : InferIndex)
  | var (v : Variable)
  | error (r : Report)
deriving DecidableEq

inductive TyName where
  | primitive (p : Primitive)
  | aggregate (a : Aggregate)
  | future
  | tuple (arity : Nat)
deriving DecidableEq

mutual
inductive Ty where
  | perm (p : Perm) (t : Ty)
  | named (name : TyName) (args : List Term)
  | infer (i : InferIndex)
  | var (v : Variable)
  | never
  | error (r : Report)

inductive Term where
  | ty (t : Ty)
  | perm (p : Perm)
  | place (p : Place)
  | error (r : Report)
end

instance : Coe Ty Term := ⟨.ty⟩

instance : Coe Place Term := ⟨.place⟩

namespace Place

def render : Place → String
  | var v => v.render
  | field base f => base.render ++ "." ++ f.name
  | index base => base.render ++ "[_]"
  | infer i => s!"?L{i}"
  | error _ => "<error>"

/-- A place covers itself and every field projection reachable from it, but not what is reached by
indexing. -/
def covers (p : Place) : Place → Bool
  | field base f => p == field base f || p.covers base
  | q => p == q

end Place

namespace Perm

def renderPlaces (places : List Place) : String :=
  "[" ++ ", ".intercalate (places.map Place.render) ++ "]"

def render : Perm → String
  | my => "my"
  | our => "our"
  | shared places => "shared" ++ renderPlaces places
  | leased places => "leased" ++ renderPlaces places
  | apply l r => l.render ++ " " ++ r.render
  | infer i => s!"?P{i}"
  | var v => v.render
  | error _ => "<error>"

def leaves : Perm → List Perm
  | apply l r => l.leaves ++ r.leaves
  | p => [p]

def applyTo : Perm → Ty → Ty
  | my, t => t
  | p, t => .perm p t

end Perm

mutual
def Ty.render : Ty → String
  | .perm p t => p.render ++ " " ++ t.render
  | .named name args =>
    let list := ", ".intercalate (Term.renderAll args)
    match name with
    | .tuple _ => "(" ++ list ++ ")"
    | .future => "Future[" ++ list ++ "]"
    | .primitive p => p.name
    | .aggregate a => if args.isEmpty then a.name else a.name ++ "[" ++ list ++ "]"
  | .infer i => s!"?T{i}"
  | .var v => v.render
  | .never => "!"
  | .error _ => "<error>"

def Term.render : Term → String
  | .ty t => t.render
  | .perm p => p.render
  | .place p => p.render
  | .error _ => "<error>"

def Term.renderAll : List Term → List String
  | [] => []
  | t :: ts => t.render :: Term.renderAll ts
end

namespace Ty

def primitive (p : Primitive) : Ty := named (.primitive p) []

def aggregate (a : Aggregate) (args : List Term) : Ty := named (.aggregate a) args

def future (awaited : Term) : Ty := named .future [awaited]

def tuple (elements : List Term) : Ty := named (.tuple elements.length) elements

def unit : Ty := tuple []

def bool : Ty := primitive .bool

def sharedFrom (t : Ty) (place : Place) : Ty := perm (.shared [place]) t

def leasedFrom (t : Ty) (place : Place) : Ty := perm (.leased [place]) t

def isNever : Ty → Bool
  | never => true
  | _ => false

end Ty

namespace Term

def detail : Term → String
  | error r => if r.message.isEmpty then "Reported" else "Reported: " ++ r.message
  | t => t.render

def kind? : Term → Option Kind
  | ty _ => some .type
  | perm _ => some .perm
  | place _ => some .place
  | error _ => none

def hasKind (t : Term) (k : Kind) : Bool :=
  match t.kind? with
  | some actual => actual = k
  | none => true

def ofVariable (v : Variable) : Term :=
  match v.kind with
  | .type => ty (.var v)
  | .perm => perm (.var v)
  | .place => place (.var v)

def ofInfer (k : Kind) (i : InferIndex) : Term :=
  match k with
  | .type => ty (.infer i)
  | .perm => perm (.infer i)
  | .place => place (.infer i)

end Term

end Ownership
