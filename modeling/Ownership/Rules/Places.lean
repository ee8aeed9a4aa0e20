import Ownership.Prog

namespace Ownership

namespace Rules

def declaredFieldTy (program : Program) (f : Field) (args : List Term) : Except Violation Ty := do
  match program.fieldTy f with
  | none => throw (.noField (.aggregate f.owner args) f.name)
  | some ty => ty.subst (← Substitution.ofLists f.owner.generics args)

def annotationsNeededForField (span : Span) (f : Field) : Diagnostic :=
  (Diagnostic.error span "type annotations needed" (some .typeAnnotationsNeeded)).label .error f.span
    s!"I need to know the type here to find the field `{f.name}`"

def fieldTy (env : Env) (owner : Ty) (f : Field) : Prog Ty := do
  let red := owner.red
  match red.head with
  | .named (.aggregate a) args =>
    if a ≠ f.owner then .violate (.noField owner f.name)
    else
      let program := (← (get : Action Session)).program
      return red.perm.applyTo (← declaredFieldTy program f args)
  | .named _ _ => .violate (.noField owner f.name)
  | .infer i =>
    match ← Prog.ask (.lowerBound env i) with
    | some ⟨.ty t, _⟩ => return red.perm.applyTo (← Prog.ask (.fieldTy env t f))
    | _ =>
      let span := (← Action.inferVar i).span
      .raise (← Action.report env (annotationsNeededForField span f))
  | .error r => .raise r
  | .var _ => .violate (.noField owner f.name)
  | .never => .violate (.noField owner f.name)

def placeTy (env : Env) : Place → Prog Ty
  | .var v => Action.variableTy v
  | .field base f => do
    let owner ← Prog.awaited (placeTy env base)
    .relay (.fieldTy env owner f)
  | .error r => .raise r
  | .index base => .violate (.untypedPlace (.index base))
  | .infer i => .violate (.untypedPlace (.infer i))

end Rules

end Ownership
