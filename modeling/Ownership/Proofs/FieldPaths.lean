import Ownership.Proofs.Ground
import Ownership.Proofs.Preorder
import Ownership.Proofs.SoloRuns

namespace Ownership

open Prog

/-- Every field of an aggregate was declared there, with a type. -/
def Program.DeclaresFields (p : Program) : Prop :=
  ∀ a name f, p.member a name = some (.field f) → f.owner = a ∧ (p.fieldTy f).isSome

/-- It is not a field that is missing, if fields are declared. -/
def Violation.Otherwise (p : Program) (x : Violation) : Prop :=
  p.DeclaresFields → ∀ owner name, x ≠ .noField owner name

/-- Where names lead from a place: to another place, or to an owner whose type is an error, has a head that is yet to be
inferred, shows no such field, or is not known. -/
inductive Lead where
  | place (p : Place)
  | error (r : Report)
  | inferred
  | missing
  | untyped

namespace Session

variable {s s' : Session} {v : Variable} {names more : List String} {base place : Place} {t : Ty}

def lead (s : Session) (base : Place) : List String → Lead
  | [] => .place base
  | name :: names =>
    match s.placeTy? base with
    | none => .untyped
    | some t =>
      match t.head with
      | .error r => .error r
      | .infer _ => .inferred
      | .named (.aggregate a) _ =>
        match s.program.member a name with
        | some (.field f) => s.lead (.field base f) names
        | _ => .missing
      | _ => .missing

theorem lead_append : s.lead base (names ++ more) =
    match s.lead base names with
    | .place p => s.lead p more
    | l => l := by
  fun_induction s.lead base names <;> simp_all [lead]

theorem lead_eq_inferred_iff : s.lead base names = .inferred ↔ ∃ pre name post p t i,
    names = pre ++ name :: post ∧ s.lead base pre = .place p ∧ s.placeTy? p = some t ∧ t.head = .infer i := by
  constructor
  · intro inferred
    fun_induction s.lead base names with
    | case4 base name names t typed i head => exact ⟨[], name, names, base, t, i, rfl, rfl, typed, head⟩
    | case5 base name names t typed a args head f member ih =>
      obtain ⟨pre, next, post, p, u, i, rfl, led, found⟩ := ih inferred
      refine ⟨name :: pre, next, post, p, u, i, rfl, ?_, found⟩
      simp only [lead, typed, head, member, led]
    | _ => cases inferred
  · rintro ⟨pre, name, post, p, t, i, rfl, led, typed, head⟩
    simp only [lead_append, led, lead, typed, head]

/-- What asking for a type ends in, if the type is known or not. -/
inductive Typing (s : Session) : Option Ty → Except Failure Ty → Prop
  | known (t : Ty) : s.Typing (some t) (.ok t)
  | unknown {x : Violation} : x.Otherwise s.program → s.Typing none (.error (.violated x))

/-- Wherever the program and the types are as in `s`, the place is checked to have the type that `s` gives it. -/
def Settles (s : Session) (base : Place) : Prop :=
  ∀ (env : Env) s', s.Akin s' → (Rules.placeTy env base).Reports s' fun r ds => ds = [] ∧ s.Typing (s.placeTy? base) r

/-- What following names ends in, where `next` is the number of the next report. -/
inductive Ends (s : Session) (next : Nat) : Lead → Except Failure Place → List Diagnostic → Prop
  | place {p : Place} : s.Settles p → s.Ends next (.place p) (.ok p) []
  | error (r : Report) : s.Ends next (.error r) (.error (.reported r)) []
  | blamed {l : Lead} (d : Diagnostic) : l = .inferred ∨ l = .missing →
    s.Ends next l (.error (.reported ⟨next, d.span, d.message⟩)) [d]
  | untyped {x : Violation} : x.Otherwise s.program → s.Ends next .untyped (.error (.violated x)) []

/-- What looking for a field of a place ends in. -/
inductive Finds (s : Session) (next : Nat) (base : Place) (name : String) :
    Except Failure Field → List Diagnostic → Prop
  | field {f : Field} : s.Settles (.field base f) →
    (∀ names, s.lead base (name :: names) = s.lead (.field base f) names) → s.Finds next base name (.ok f) []
  | fails {e : Failure} {ds : List Diagnostic} : (∀ names, s.Ends next (s.lead base (name :: names)) (.error e) ds) →
    s.Finds next base name (.error e) ds

/-- What checking an expression of names ends in, unless the type of an owner has yet to be inferred. -/
inductive Reads (s : Session) (v : Variable) (names : List String) : Except Failure Finding → List Diagnostic → Prop
  | place (span : Span) {q : Core.PlaceExpr} : s.lead (.var v) names = .place q.toPlace →
    s.placeTy? q.toPlace = some q.ty → s.Reads v names (.ok ⟨[], span, .place q⟩) []
  | error {r : Report} : s.lead (.var v) names = .error r → s.Reads v names (.ok (.ofReport r)) []
  | blamed {ds : List Diagnostic} (r : Report) : ds ≠ [] → s.Reads v names (.ok (.ofReport r)) ds
  | method (temporaries : List Core.Temporary) (span : Span) (self : Core.Expr) (idSpan : Span) (f : Function)
    (ds : List Diagnostic) : s.Reads v names (.ok ⟨temporaries, span, .method self idSpan f none⟩) ds
  | violated (x : Violation) (ds : List Diagnostic) : s.Reads v names (.error (.violated x)) ds

end Session

/-- The expression is a variable with names after it. -/
inductive Source.Expr.Spells (root : String) : Source.Expr → List String → Prop
  | id (span : Span) : Spells root (.id span root) []
  | dot (span : Span) {e : Source.Expr} {names : List String} (name : Name) : Spells root e names →
    Spells root (.dot span e name) (names ++ [name.id])

namespace Rules

open Session

variable {s s' : Session} {env : Env} {v : Variable} {base : Place} {t : Ty}

/-- A field with a declared type is at fault for nothing; its arguments may be. -/
theorem otherwise_declaredFieldTy {program : Program} {a : Aggregate} {name : String} {f : Field} {args : List Term}
    {x : Violation} (member : program.member a name = some (.field f))
    (missing : declaredFieldTy program f args = .error x) : x.Otherwise program := by
  rintro declares _ _ rfl
  obtain ⟨ty, known⟩ := Option.isSome_iff_exists.mp (declares a name f member).2
  unfold declaredFieldTy Substitution.ofLists at missing
  rw [known] at missing
  dsimp only at missing
  split at missing
  · have ends := ty.ends_replace (Substitution.sends_under (σ := ⟨f.owner.generics.zip args⟩) (L := .all)).relates ty.in_all
    rw [show ty.replace _ = _ from missing] at ends
    exact ends
  · cases missing

section Fields

variable {a : Aggregate} {args : List Term} {name : String} {f : Field}

theorem reports_fieldTy (env : Env) {owner : Ty} (head : owner.head = .named (.aggregate a) args)
    (member : s.program.member a name = some (.field f)) (akin : s.Akin s') :
    (fieldTy env owner f).Reports s' fun r ds => ds = [] ∧ s.Typing (s.fieldTy? owner f) r := by
  unfold fieldTy fieldTy?
  simp only [show owner.red.head = _ from head, head]
  by_cases same : a = f.owner
  · simp only [same, ne_eq, not_true, if_false, if_true]
    refine reports_get_bind fun s'' _ => ?_
    rw [akin.program]
    cases declared : declaredFieldTy s.program f args with
    | ok t => exact reports_done ⟨rfl, .known _⟩
    | error x => exact reports_done ⟨rfl, .unknown (otherwise_declaredFieldTy member declared)⟩
  · simp only [same, ne_eq, not_false_eq_true, if_true, if_false]
    exact reports_done ⟨rfl, .unknown fun declares => absurd (declares a name f member).1.symm same⟩

theorem settles_var (s : Session) (v : Variable) : s.Settles (.var v) := by
  intro env s' akin
  refine reports_perform (Action.exec_variableTy _ s') (.refl s') ⟨rfl, ?_⟩
  rw [akin.variableTys, placeTy?]
  cases s.variableTys.lookup v with
  | some t => exact .known t
  | none => exact .unknown fun _ _ _ same => by cases same

theorem settles_field (settles : s.Settles base) (typed : s.placeTy? base = some t)
    (head : t.head = .named (.aggregate a) args) (member : s.program.member a name = some (.field f)) :
    s.Settles (.field base f) := by
  intro env s' akin
  refine ((settles env s' akin).awaited.mono fun r ds ended s'' tells => ?_).bind
  obtain ⟨rfl, ended⟩ := ended
  rw [typed] at ended
  cases ended
  have rule := reports_fieldTy env head member (akin.trans tells.akin)
  rw [placeTy?, typed]
  exact (Reports.relay (g := .fieldTy env t f) rule).mono fun _ _ => id

end Fields

theorem reports_findField (settles : s.Settles base) (akin : s.Akin s') (segment : Name) :
    (findField env base segment).Reports s' (s.Finds s'.nextReport base segment.id) := by
  unfold findField
  refine ((settles env s' akin).awaited.mono fun r ds ended s₁ tells => ?_).bind
  obtain ⟨rfl, ended⟩ := ended
  cases typed : s.placeTy? base with
  | none =>
    rw [typed] at ended
    cases ended with
    | unknown other => exact reports_done (.fails fun _ => by simpa only [lead, typed] using .untyped other)
  | some t =>
    rw [typed] at ended
    cases ended
    refine reports_get_bind fun s₂ alike => ?_
    rw [(akin.trans tells.akin).program]
    have next : s₂.nextReport = s'.nextReport := (tells.trans alike.tells).nextReport
    have blamed (d : Diagnostic) (why : ∀ names, s.lead base (segment.id :: names) = .inferred ∨
        s.lead base (segment.id :: names) = .missing) :
        ((do .raise (← Action.report env d)) : Prog Field).Reports s₂ (s.Finds s'.nextReport base segment.id) := by
      rw [← next]
      exact (reports_report env d fun s₃ _ => reports_done (.fails fun names => .blamed d (why names))).bind
    split
    · rename_i r head
      exact reports_done (.fails fun _ => by simpa only [lead, typed, head] using .error r)
    · rename_i a args head
      dsimp only
      split
      · rename_i f member
        refine reports_done (.field (settles_field settles typed head member) fun _ => ?_)
        simp only [lead, typed, head, member]
      · refine blamed _ fun _ => .inr ?_
        simp only [lead, typed, head]
    · rename_i errorless unshown
      refine blamed _ fun _ => ?_
      cases head : t.head <;> simp_all [lead]

theorem reports_placeFields (settles : s.Settles base) (akin : s.Akin s') (segments : List Name) :
    (placeFields env base segments).Reports s' (s.Ends s'.nextReport (s.lead base (segments.map Name.id))) := by
  induction segments generalizing base s' with
  | nil => exact reports_done (.place settles)
  | cons segment segments ih =>
    refine ((reports_findField settles akin segment).awaited.mono fun r ds ended s₁ tells => ?_).bind
    cases ended with
    | field settles led =>
      rw [List.map_cons, led, ← show s₁.nextReport = s'.nextReport from tells.nextReport]
      exact ih settles (akin.trans tells.akin)
    | fails ends => exact reports_done (by simpa using ends _)

theorem resolveName_local {name : String} {e : Entity} (bound : env.scope.lookup name = some e) (span : Span) :
    resolveName env name span = pure (.ok ⟨e, []⟩) := by
  unfold resolveName
  simp only [Scope.resolve, Scope.resolve?, bound]

/-- A place that cannot be followed is an error place. -/
def orErrorPlace : Except Failure Place → Except Failure Place
  | .error (.reported report) => .ok (.error report)
  | r => r

theorem reports_place {p : Source.Place} (bound : env.scope.lookup p.root.id = some (.var v)) (kind : v.kind = .place) :
    (Rules.place env p).Reports s fun r ds =>
      ∃ r', r = orErrorPlace r' ∧ s.Ends s.nextReport (s.lead (.var v) (p.fields.map Name.id)) r' ds := by
  unfold Rules.place
  rw [resolveName_local bound]
  refine (reports_perform rfl (.refl s) fun s₁ tells => ?_).bind
  simp only [resume, kind, ne_eq, not_true, if_false]
  refine ((reports_placeFields (settles_var s v) tells.akin p.fields).mono fun r ds ended s₂ _ => ?_).andThen
  rw [show s₁.nextReport = _ from tells.nextReport] at ended
  refine Reports.mono (P := fun r' more => r' = orErrorPlace r ∧ more = []) ?_ ?_
  · rcases r with (_ | _) | _ <;> exact reports_done ⟨rfl, rfl⟩
  · rintro _ _ ⟨rfl, rfl⟩
    exact ⟨r, rfl, by simpa using ended⟩

variable {names : List String}

theorem reports_reportFinding (env : Env) (d : Diagnostic) (s' : Session) :
    (perform (reportFinding env d)).Reports s' fun r ds => ∃ report, r = .ok (.ofReport report) ∧ ds = [d] := by
  obtain ⟨s'', exec, tells⟩ := Action.exec_report_tells env d s'
  have found : (reportFinding env d).exec s' = (.ok (.ofReport ⟨s'.nextReport, d.span, d.message⟩), s'') := by
    rw [reportFinding, Action.exec_bind, exec]
    rfl
  exact reports_perform found tells ⟨_, rfl, rfl⟩

theorem toExpr_place (env : Env) (span : Span) (q : Core.PlaceExpr) :
    ∃ e, Finding.toExpr env ⟨[], span, .place q⟩ = pure ⟨e, []⟩ := by
  cases q <;> exact ⟨_, rfl⟩

theorem reports_member {q : Core.PlaceExpr} (led : s.lead (.var v) names = .place q.toPlace)
    (typed : s.placeTy? q.toPlace = some q.ty) (known : ∀ i, q.ty.head ≠ .infer i) (akin : s.Akin s') (found : Span)
    (name : Name) (span : Span) :
    (member env ⟨[], found, .place q⟩ q.ty q.ty name span).Reports s' (s.Reads v (names ++ [name.id])) := by
  have blamed (d : Diagnostic) (s' : Session) :
      (perform (reportFinding env d)).Reports s' (s.Reads v (names ++ [name.id])) := by
    refine (reports_reportFinding env d s').mono ?_
    rintro r ds ⟨report, rfl, rfl⟩
    exact .blamed report (List.cons_ne_nil _ _)
  unfold member
  dsimp only
  split
  · rename_i a args head
    refine reports_get_bind fun s₁ alike => ?_
    rw [akin.program]
    split
    · rename_i f shown
      refine (reports_perform rfl (.refl s₁) fun s₂ tells => ?_).bind
      have rule := reports_fieldTy env head shown (akin.trans (alike.tells.trans tells).akin)
      refine ((Reports.ask (g := .fieldTy env q.ty f) rule).mono fun r ds ended s₃ _ => ?_).bind
      obtain ⟨rfl, ended⟩ := ended
      cases declared : s.fieldTy? q.ty f <;> rw [declared] at ended <;> cases ended
      · exact reports_done (.violated _ _)
      · refine reports_done (.place _ ?_ ?_)
        · simp only [lead_append, led, lead, typed, head, shown, Core.PlaceExpr.toPlace]
        · rw [Core.PlaceExpr.toPlace, placeTy?, typed]
          exact declared
    · rename_i f _
      split
      · exact blamed _ _
      · obtain ⟨self, lifted⟩ := toExpr_place env found q
        rw [lifted]
        exact (reports_perform rfl (.refl s₁) fun s₂ _ => reports_done (.method ..)).bind
    · exact blamed _ _
  · exact blamed _ _
  · rename_i i head
    exact absurd head (known i)
  · rename_i r head
    refine reports_done (.error ?_)
    simp only [lead_append, led, lead, typed, head]
  · exact blamed _ _
  · exact blamed _ _

theorem reports_lookupMember {f : Finding} {q : Core.PlaceExpr} {P : Except Failure Finding → List Diagnostic → Prop}
    (found : f.found = .place q) {name : Name} {span : Span} (rule : (member env f q.ty q.ty name span).Reports s' P)
    (fails : ∀ e ds, P (.error e) ds → ∃ x, e = .violated x) : (lookupMember env f name span).Reports s' P := by
  unfold lookupMember
  simp only [found]
  refine ((Reports.ask (g := .member env f q.ty q.ty name span) rule).mono fun r ds holds s₁ _ => ?_).andThen
  cases r with
  | ok f => exact reports_done (by simpa using holds)
  | error e =>
    obtain ⟨x, rfl⟩ := fails e ds holds
    exact reports_done (by simpa using holds)

theorem reports_lookupMember_ofReport (r : Report) (name : Name) (span : Span) :
    (lookupMember env (.ofReport r) name span).Reports s' fun r' ds => r' = .ok (.ofReport r) ∧ ds = [] := by
  refine reports_lookupMember (q := .error r) rfl ?_ fun _ _ ended => nomatch ended.1
  change (done (.ok (Finding.ofReport r))).Reports s' _
  exact reports_done ⟨rfl, rfl⟩

theorem exec_ofResolution (kind : v.kind = .place) (span : Span) (s : Session) :
    (Finding.ofResolution ⟨.var v, []⟩ span).exec s = ((s.variableTys.lookup v).elim
      (.error (.violated (.untypedVariable v))) fun t => .ok (.ofPlace (.var span t v)), s) := by
  simp only [Finding.ofResolution, kind, if_true, Action.exec_bind, Action.exec_variableTy]
  cases s.variableTys.lookup v <;> rfl

theorem reports_expr {root : String} {e : Source.Expr} (bound : env.scope.lookup root = some (.var v))
    (kind : v.kind = .place) (spells : e.Spells root names) (apparent : s.lead (.var v) names ≠ .inferred)
    (akin : s.Akin s') : (expr env e).Reports s' (s.Reads v names) := by
  induction spells generalizing env s' with
  | id span =>
    refine .traced fun s₁ alike => ?_
    rw [exprForm, resolveName_local (show env.fork.scope.lookup root = _ from bound)]
    refine (reports_perform rfl (.refl s₁) fun s₂ tells => ?_).bind
    have recorded : s₂.variableTys = s.variableTys := (akin.trans (alike.tells.trans tells).akin).variableTys
    refine reports_perform (exec_ofResolution kind span s₂) (.refl s₂) ?_
    rw [recorded]
    cases typed : s.variableTys.lookup v with
    | some t => exact .place span rfl typed
    | none => exact .violated ..
  | @dot span e names name spells ih =>
    rw [lead_append] at apparent
    have before : s.lead (.var v) names ≠ .inferred := fun inferred => apparent (by rw [inferred])
    refine .traced fun s₁ alike => .relayed ?_
    refine ((Reports.ask (g := .expr env.fork e) (ih bound before (akin.trans alike.akin))).mono
      fun r ds reads s₂ tells => ?_).bind
    cases reads with
    | @place found q led typed =>
      have known : ∀ i, q.ty.head ≠ .infer i := fun i head => apparent (by simp only [led, lead, typed, head])
      have akin := akin.trans (alike.tells.trans tells).akin
      refine .relayed (reports_lookupMember rfl (reports_member led typed known akin found name span) ?_)
      rintro e ds ⟨⟩
      exact ⟨_, rfl⟩
    | error led =>
      refine .relayed ((reports_lookupMember_ofReport _ name span).mono ?_)
      rintro r ds ⟨rfl, rfl⟩
      exact .error (by rw [lead_append, led])
    | blamed r told =>
      refine .relayed ((reports_lookupMember_ofReport r name span).mono ?_)
      rintro r ds ⟨rfl, rfl⟩
      exact .blamed _ (by simpa using told)
    | method =>
      refine (reports_reportFinding _ _ s₂).mono ?_
      rintro r ds ⟨report, rfl, rfl⟩
      exact .blamed report (by simp)
    | violated x => exact reports_done (.violated ..)

end Rules

namespace Session

variable {s : Session} {env : Env} {v : Variable} {p : Source.Place}

section Local

variable (bound : env.scope.lookup p.root.id = some (.var v)) (kind : v.kind = .place)
include bound kind

theorem lead_of_yields {base : Place} {t : Ty} {last last' : Session}
    (place : (Rules.place env p).Yields s (.ok base) last) (typed : (Rules.placeTy env base).Yields s (.ok t) last') :
    s.lead (.var v) (p.fields.map Name.id) = .place base ∧ s.placeTy? base = some t := by
  obtain ⟨r, _, ds, yields, -, r', rfl, ended⟩ := (Rules.reports_place bound kind).yields
  obtain ⟨same, -⟩ := yields.unique place
  have raised (report : Report) : base ≠ .error report := by
    rintro rfl
    have rule : (raise report : Prog Ty).Reports s fun r _ => r = .error (.reported report) := reports_done rfl
    obtain ⟨_, _, _, yields, -, rfl⟩ := rule.yields
    cases (yields.unique typed).1
  generalize led : s.lead (.var v) (p.fields.map Name.id) = l at ended
  cases ended with
  | place settles =>
    cases same
    obtain ⟨_, _, _, yields, -, -, answers⟩ := (settles env s (.refl s)).yields
    obtain ⟨rfl, -⟩ := yields.unique typed
    generalize s.placeTy? base = known at answers
    cases answers
    exact ⟨rfl, rfl⟩
  | error r | blamed d =>
    cases same
    exact absurd rfl (raised _)
  | untyped x => cases same

theorem yields_of_lead {base : Place} {t : Ty} (led : s.lead (.var v) (p.fields.map Name.id) = .place base)
    (typed : s.placeTy? base = some t) :
    ∃ last last', (Rules.place env p).Yields s (.ok base) last ∧ (Rules.placeTy env base).Yields s (.ok t) last' := by
  obtain ⟨r, last, ds, yields, -, r', rfl, ended⟩ := (Rules.reports_place bound kind).yields
  rw [led] at ended
  cases ended with
  | place settles =>
    obtain ⟨_, last', _, yields', -, -, answers⟩ := (settles env s (.refl s)).yields
    rw [typed] at answers
    cases answers
    exact ⟨last, last', yields, yields'⟩
  | blamed d why => cases why <;> contradiction

theorem lead_ne_inferred_iff : s.lead (.var v) (p.fields.map Name.id) ≠ .inferred ↔ ∀ pre name post base t last last',
    p.fields = pre ++ name :: post → (Rules.place env ⟨p.root, pre⟩).Yields s (.ok base) last →
    (Rules.placeTy env base).Yields s (.ok t) last' → ∀ i, t.head ≠ .infer i := by
  rw [ne_eq, lead_eq_inferred_iff]
  constructor
  · intro apparent pre name post base t last last' split place typed i head
    obtain ⟨led, typed⟩ := lead_of_yields (p := ⟨p.root, pre⟩) bound kind place typed
    exact apparent ⟨pre.map Name.id, name.id, post.map Name.id, base, t, i,
      by rw [split, List.map_append, List.map_cons], led, typed, head⟩
  · rintro known ⟨pre, name, post, base, t, i, split, led, typed, head⟩
    obtain ⟨pre, rest, fields, rfl, whole⟩ := List.map_eq_append_iff.mp split
    obtain ⟨first, post, rfl, -, -⟩ := List.map_eq_cons_iff.mp whole
    obtain ⟨last, last', place, typed⟩ := yields_of_lead (p := ⟨p.root, pre⟩) bound kind led typed
    exact known pre first post base t last last' fields place typed i head

end Local

/-- An expression `x.f₁…fₙ` that is a place and the path `x.f₁…fₙ` in a type mean the same place, unless the type of an
owner on the way has an inference variable as its head: there the path has no field. -/
theorem path_means_place_iff (s : Session) (env : Env) (p : Source.Place) {v : Variable} {e : Source.Expr} {f : Finding}
    {q : Core.PlaceExpr} {last : Session} (bound : env.scope.lookup p.root.id = some (.var v)) (kind : v.kind = .place)
    (spells : e.Spells p.root.id (p.fields.map Name.id)) (yields : (Goal.expr env e).Yields s (.ok f) last)
    (found : f.found = .place q) (quiet : last.diagnostics = s.diagnostics) :
    (∃ last', (Rules.place env p).Yields s (.ok q.toPlace) last' ∧ last'.diagnostics = s.diagnostics) ↔
      ∀ pre name post base t last₁ last₂, p.fields = pre ++ name :: post →
        (Rules.place env ⟨p.root, pre⟩).Yields s (.ok base) last₁ →
        (Rules.placeTy env base).Yields s (.ok t) last₂ → ∀ i, t.head ≠ .infer i := by
  rw [← lead_ne_inferred_iff bound kind]
  obtain ⟨r, last₁, ds, place, tells, r', rfl, ended⟩ := (Rules.reports_place bound kind).yields
  constructor
  · rintro ⟨last', place', quiet'⟩ inferred
    obtain ⟨-, rfl⟩ := place.unique place'
    obtain rfl := tells.quiet quiet'
    rw [inferred] at ended
    cases ended
  · intro apparent
    have rule := Rules.reports_expr bound kind spells apparent (.refl s)
    obtain ⟨_, _, _, yields', tells', reads⟩ := (Reports.ask (g := .expr env e) rule).yields
    obtain ⟨rfl, rfl⟩ := yields'.unique yields
    obtain rfl := tells'.quiet quiet
    cases reads with
    | place _ led _ =>
      cases found
      rw [led] at ended
      cases ended with
      | place _ => exact ⟨last₁, place, by simpa using tells.diagnostics⟩
      | blamed _ why => cases why <;> contradiction
    | error led =>
      cases found
      rw [led] at ended
      cases ended with
      | error _ => exact ⟨last₁, place, by simpa using tells.diagnostics⟩
      | blamed _ why => cases why <;> contradiction
    | blamed r told => exact absurd rfl told
    | method => cases found

section Unpacking

def contentKind : Variable := ⟨3, .type, some "T", default⟩

def box : Aggregate := ⟨1, "Box", .classDecl, [contentKind], default⟩

def content : Field := ⟨0, "b", box, default⟩

def boxOf (t : Ty) : Ty := .aggregate box [.ty t]

def unpacked : Obligation := ⟨.subtype default (.ty point) (.ty point), []⟩

/-- A class `Box[T]` with a field `b` of type `T`, and a variable `x` of a type that is a box of something below
`upper`. Both types have yet to be inferred. -/
def boxing (upper : Ty) : Session :=
  { leasing with
    program := Program.empty.addField content (.var contentKind)
    variableTys := [(owner, .infer 0)]
    inferVars := [
      { kind := .type, span := default, home := ⟨0⟩, lower := some ⟨.ty (boxOf (.infer 1)), unpacked⟩ },
      { kind := .type, span := default, home := ⟨0⟩, uppers := [⟨.ty upper, unpacked⟩] }] }

/-- The place `x.b`. -/
def unpacking : Place := .field (.var owner) content

/-- `x` is a box of a box, shared from `y`. -/
def packed : Session :=
  { boxing point with variableTys := [(owner, .perm (.shared [.var borrower]) (boxOf (boxOf point)))] }

def unpackingScope : Env := .root [[("x", .var owner)]]

def unpackingPath (fields : List Name) : Source.Place := ⟨⟨"x", default⟩, fields⟩

def unpack (e : Source.Expr) : Source.Expr := .dot default e ⟨"b", default⟩

/-- `x.b.b` is the same place in a type and as an expression. -/
theorem path_means_place_iff_packed : ∃ f q last,
    (Goal.expr unpackingScope (unpack (unpack (.id default "x")))).Yields packed (.ok f) last ∧ f.found = .place q ∧
      last.diagnostics = packed.diagnostics ∧ ∃ last', (Rules.place unpackingScope
        (unpackingPath [⟨"b", default⟩, ⟨"b", default⟩])).Yields packed (.ok q.toPlace) last' ∧
        last'.diagnostics = packed.diagnostics := by
  have spells : (unpack (unpack (.id default "x"))).Spells "x" ["b", "b"] := .dot _ _ (.dot _ _ (.id _))
  have yields : ∃ f last, (Goal.expr unpackingScope (unpack (unpack (.id default "x")))).Yields packed (.ok f) last ∧
      ∃ q, f.found = .place q ∧ last.diagnostics = packed.diagnostics :=
    ⟨_, _, ⟨200, _, rfl, rfl, rfl, rfl⟩, _, rfl, rfl⟩
  obtain ⟨f, last, yields, q, found, quiet⟩ := yields
  refine ⟨f, q, last, yields, found, quiet, ?_⟩
  let path : Source.Place := unpackingPath [⟨"b", default⟩, ⟨"b", default⟩]
  refine (path_means_place_iff packed unpackingScope path (v := owner) rfl rfl spells yields found quiet).mpr ?_
  have led : packed.lead (.var owner) ["b", "b"] = .place (.field (.field (.var owner) content) content) := rfl
  exact (lead_ne_inferred_iff (p := path) rfl rfl).mp (by simp [path, unpackingPath, led])

/-- If the type of `x` has yet to be inferred, and a box is below it, then the expression `x.b` is a place, but the path
`x.b` has no field. -/
theorem inferred_owner_has_no_field : unpackingScope.scope.lookup "x" = some (.var owner) ∧ owner.kind = .place ∧
    (unpack (.id default "x")).Spells "x" ["b"] ∧ ∃ f q last last' report d,
      (Goal.expr unpackingScope (unpack (.id default "x"))).Yields (boxing point) (.ok f) last ∧ f.found = .place q ∧
      last.diagnostics = (boxing point).diagnostics ∧ q.toPlace = unpacking ∧
      (Rules.place unpackingScope (unpackingPath [⟨"b", default⟩])).Yields (boxing point) (.ok (.error report)) last' ∧
      last'.diagnostics = (boxing point).diagnostics ++ [d] ∧ d.message = "no field named `b`" :=
  ⟨rfl, rfl, .dot _ _ (.id _), _, _, _, _, _, _, ⟨200, _, rfl, rfl, rfl, rfl⟩, rfl, rfl, rfl,
    ⟨200, _, rfl, rfl, rfl, rfl⟩, rfl, rfl⟩

end Unpacking

end Session

end Ownership
