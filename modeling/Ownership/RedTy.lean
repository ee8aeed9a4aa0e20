import Ownership.Term.Equality

namespace Ownership

inductive Head where
  | named (name : TyName) (args : List Term)
  | infer (i : InferIndex)
  | var (v : Variable)
  | never
  | error (r : Report)

structure RedTy where
  head : Head
  perm : Perm

def Head.toTy : Head → Ty
  | .named name args => .named name args
  | .infer i => .infer i
  | .var v => .var v
  | .never => .never
  | .error r => .error r

def Head.isRigid : Head → Bool
  | .named _ _ => true
  | .var _ => true
  | _ => false

def Perm.compose : Perm → Perm → Perm
  | .my, inner => inner
  | outer, .my => outer
  | outer, inner => .apply outer inner

def Ty.red : Ty → RedTy
  | .perm p t =>
    let inner := t.red
    ⟨inner.head, p.compose inner.perm⟩
  | .named name args => ⟨.named name args, .my⟩
  | .infer i => ⟨.infer i, .my⟩
  | .var v => ⟨.var v, .my⟩
  | .never => ⟨.never, .my⟩
  | .error r => ⟨.error r, .my⟩

def RedTy.bareInfer (red : RedTy) : Option InferIndex :=
  match red.head, red.perm with
  | .infer i, .my => some i
  | _, _ => none

def Ty.head (t : Ty) : Head := t.red.head

end Ownership
