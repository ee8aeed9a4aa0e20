import Ownership.Proofs.Requests

namespace Ownership

/-- What an obligation is passed on with: the bound it is checked against, or a place leased from. -/
inductive Attachment where
  | lowerBound (bound : Term) (origin : Option Obligation)
  | leasedPlace (place : Term)

namespace Attachment

def provenance : Attachment → Provenance
  | lowerBound bound origin => .lowerBound bound (origin.map Obligation.span)
  | leasedPlace place => .leasedPlace place

def note : Attachment → String
  | lowerBound bound origin =>
    let place := match origin with
      | some o => s!" (inferred at {o.span.start.render})"
      | none => ""
    s!"the inferred lower bound is `{bound.render}`{place}"
  | leasedPlace place => s!"the lease includes `{place.detail}`, which is not copy"

def isLeasedPlace : Attachment → Bool
  | lowerBound _ _ => false
  | leasedPlace _ => true

variable {because : Because}

theorem describe_wrap (a : Attachment) : (a.provenance.wrap because).describe = a.note :: because.describe := by
  rw [Because.describe.eq_def]
  cases a with
  | lowerBound bound origin => cases origin <;> rfl
  | leasedPlace place => rfl

theorem subtypeCode_wrap (a : Attachment) :
    (a.provenance.wrap because).subtypeCode = if a.isLeasedPlace then .typeMismatch else because.subtypeCode := by
  cases a <;> rfl

end Attachment

namespace Obligation

def attach (o : Obligation) : Attachment → Obligation
  | .lowerBound bound origin => o.becauseOfLowerBound bound origin
  | .leasedPlace place => o.becauseOfLeasedPlace place

variable {o : Obligation} {stack : List Attachment} {because : Because}

theorem foldl_attach :
    stack.foldl attach o = { o with provenance := o.provenance ++ stack.map Attachment.provenance } := by
  induction stack generalizing o with
  | nil => simp
  | cons a stack ih =>
    have first : o.attach a = { o with provenance := o.provenance ++ [a.provenance] } := by cases a <;> rfl
    simp [ih, first]

/-- An obligation of the requirement with all of the stack attached to it. -/
def stacked (r : Requirement) (stack : List Attachment) : Obligation := stack.foldl attach ⟨r, []⟩

variable {r : Requirement}

theorem explain_stacked :
    (stacked r stack).explain because = stack.foldr (fun a => a.provenance.wrap) because := by
  simp [stacked, foldl_attach, explain, List.foldr_map]

theorem describe_explain :
    ((stacked r stack).explain because).describe = stack.map Attachment.note ++ because.describe := by
  rw [explain_stacked]
  induction stack with
  | nil => rfl
  | cons a stack ih => rw [List.foldr_cons, a.describe_wrap, ih, List.map_cons, List.cons_append]

theorem subtypeCode_explain : ((stacked r stack).explain because).subtypeCode =
    if stack.any Attachment.isLeasedPlace then .typeMismatch else because.subtypeCode := by
  rw [explain_stacked]
  induction stack with
  | nil => rfl
  | cons a stack ih =>
    rw [List.foldr_cons, a.subtypeCode_wrap, ih, List.any_cons]
    cases a.isLeasedPlace <;> rfl

end Obligation

/-- The reason of a failure shows in the code of a failed subtyping, and nowhere else. -/
theorem Requirement.diagnostic_eq (r : Requirement) (because other : Because) :
    r.diagnostic because = { r.diagnostic other with code := (r.diagnostic because).code } ∧
      (r.diagnostic because).because = [] ∧ (r.diagnostic because).span = r.span := by
  cases r with
  | numeric span ty operator => cases operator <;> exact ⟨rfl, rfl, rfl⟩
  | _ => exact ⟨rfl, rfl, rfl⟩

theorem Requirement.code_eq {r : Requirement} {because other : Because}
    (same : (∃ span lower upper, r = .subtype span lower upper) → because.subtypeCode = other.subtypeCode) :
    (r.diagnostic because).code = (r.diagnostic other).code := by
  cases r with
  | subtype span lower upper => exact congrArg some (same ⟨span, lower, upper, rfl⟩)
  | numeric span ty operator => cases operator <;> rfl
  | _ => rfl

open Obligation in
/-- A failure that is reported through attachments is the failure of the requirement itself, for the reason given,
with the notes of the attachments before those of the reason. -/
theorem Requirement.failure_keeps_provenance (r : Requirement) (stack : List Attachment) (because : Because) (env : Env)
    (s : Session) : ∃ d report trace,
      (Action.refuse env (stacked r stack) because : Action Unit).exec s = (.error (.reported report),
        { s with trace := trace, diagnostics := s.diagnostics ++ [d], nextReport := s.nextReport + 1 }) ∧
      d.span = r.span ∧ d.message = (r.diagnostic because).message ∧ d.labels = (r.diagnostic because).labels ∧
      d.because = stack.map Attachment.note ++ because.describe ∧
      d = { (stacked r stack).diagnostic because with because := d.because } ∧
      d = { r.diagnostic because with code := d.code, because := d.because } ∧
      ((¬ ∃ span lower upper, r = .subtype span lower upper) → d.code = (r.diagnostic because).code) ∧
      d.code = ((stacked r (stack.filter Attachment.isLeasedPlace)).diagnostic because).code := by
  obtain ⟨report, trace, refused⟩ := Action.exec_refuse (α := Unit) env (stacked r stack) because s
  have built (stack : List Attachment) :
      (stacked r stack).diagnostic because = r.diagnostic ((stacked r stack).explain because) := by
    rw [Obligation.diagnostic, stacked, foldl_attach]
  obtain ⟨same, quiet, span⟩ := r.diagnostic_eq ((stacked r stack).explain because) because
  rw [← built] at same quiet span
  have notes : (stacked r stack).failure because =
      { (stacked r stack).diagnostic because with because := stack.map Attachment.note ++ because.describe } := by
    rw [Obligation.failure, Diagnostic.becauseOf, quiet, describe_explain, List.nil_append]
  refine ⟨_, report, trace, refused, ?_⟩
  rw [notes]
  refine ⟨span, (congrArg Diagnostic.message same :), (congrArg Diagnostic.labels same :), rfl, rfl, ?_, ?_, ?_⟩
  · rw [same]
  · intro other
    rw [built, Requirement.code_eq fun subtype => (other subtype).elim]
  · rw [built, built]
    refine Requirement.code_eq fun _ => ?_
    simp [subtypeCode_explain]

end Ownership
