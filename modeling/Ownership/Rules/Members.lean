import Ownership.Rules.Places

namespace Ownership

namespace Rules

def noSuchMember (name : Name) (found : String) : Diagnostic :=
  (Diagnostic.error name.span s!"no member named `{name.id}`" (some .noSuchMember)).label .error
    name.span s!"I could not find a member `{name.id}` on {found}"

def notAMethod (name : Name) (f : Function) : Diagnostic :=
  ((Diagnostic.error name.span s!"`{f.name}` does not take `self`"
    (some .associatedFunctionOnInstance)).label .error name.span
    s!"`{f.name}` is an associated function; call it through the type").label .info f.span
    s!"`{f.name}` defined here"

def annotationsNeededForMember (span : Span) (name : Name) : Diagnostic :=
  (Diagnostic.error span "type annotations needed" (some .typeAnnotationsNeeded)).label .error span
    s!"I need to know the type of this to look up `{name.id}`"

def reportFinding (env : Env) (d : Diagnostic) : Action Finding := do
  return .ofReport (← Action.report env d)

def member (env : Env) (owner : Finding) (ownerTy t : Ty) (name : Name) (span : Span) :
    Prog Finding := do
  let missing := noSuchMember name s!"a value of type `{ownerTy.render}`"
  match t.head with
  | .named (.aggregate a) _ =>
    match (← (get : Action Session)).program.member a name.id with
    | some (.field f) =>
      let place ← owner.toPlace env
      let fieldTy ← Prog.ask (.fieldTy env ownerTy f)
      return .ofPlace (.field span fieldTy place.node f) place.temporaries
    | some (.function f) =>
      if !f.hasSelf then reportFinding env (notAMethod name f)
      else
        let self ← owner.toExpr env
        return ⟨self.temporaries, span, .method self.node name.span f none⟩
    | none => reportFinding env missing
  | .named _ _ => reportFinding env missing
  | .infer i =>
    match ← Prog.ask (.lowerBound env i) with
    | some ⟨.ty bound, _⟩ => .relay (.member env owner ownerTy bound name span)
    | _ => reportFinding env (annotationsNeededForMember owner.span name)
  | .error r => return .ofReport r
  | .var _ => reportFinding env missing
  | .never => reportFinding env missing

def recovering (p : Prog Finding) : Prog Finding :=
  p.andThen fun
    | .ok f => return f
    | .error (.reported r) => return .ofReport r
    | .error e => throw e

def lookupMember (env : Env) (owner : Finding) (name : Name) (span : Span) : Prog Finding :=
  match owner.found with
  | .place p => recovering (.ask (.member env owner p.ty p.ty name span))
  | .value e => recovering (.ask (.member env owner e.ty e.ty name span))
  | .method self _ f _ => reportFinding env (.missingCall self.span f)
  | .name r => reportFinding env (noSuchMember name r.describe)

end Rules

end Ownership
