import Ownership.Proofs.FieldPaths

namespace Ownership

inductive Part where
  | head (name : TyName) (args : List Term)
  | var (kind : Kind) (v : Variable)
  | infer (kind : Kind) (i : InferIndex)
  | place (p : Place)
  | error (r : Report)

def Perm.parts : Perm → List Part
  | .shared places => places.map .place
  | .leased places => places.map .place
  | .apply l r => l.parts ++ r.parts
  | .infer i => [.infer .perm i]
  | .var v => [.var .perm v]
  | .error r => [.error r]
  | .my => []
  | .our => []

mutual
def Ty.parts : Ty → List Part
  | .perm p t => p.parts ++ t.parts
  | .named name args => .head name args :: Term.allParts args
  | .infer i => [.infer .type i]
  | .var v => [.var .type v]
  | .never => []
  | .error r => [.error r]

def Term.parts : Term → List Part
  | .ty t => t.parts
  | .perm p => p.parts
  | .place p => [.place p]
  | .error r => [.error r]

def Term.allParts : List Term → List Part
  | [] => []
  | t :: ts => t.parts ++ Term.allParts ts
end

theorem Term.allParts_eq_flatMap (ts : List Term) : Term.allParts ts = ts.flatMap Term.parts := by
  induction ts with
  | nil => rfl
  | cons t ts ih => rw [allParts, ih, List.flatMap_cons]

/-- The arguments that a name takes; an error stands for any argument of an aggregate. -/
def TyName.Takes : TyName → List Term → Prop
  | .primitive _, args => args = []
  | .aggregate a, args => List.Forall₂ (fun v t => t.hasKind v.kind) a.generics args
  | .future, args => ∃ t, args = [.ty t]
  | .tuple arity, args => ∃ ts : List Ty, args = ts.map .ty ∧ ts.length = arity

/-- The term is well formed at this part, with places that are `placed` and errors that are `blamed`. -/
def Part.WellFormed (placed : Place → Prop) (blamed : Report → Prop) : Part → Prop
  | .head name args => name.Takes args
  | .var kind v => v.kind = kind
  | .infer _ _ => False
  | .place p => placed p ∨ ∃ r, p = .error r ∧ blamed r
  | .error r => blamed r

theorem Part.WellFormed.mono {placed placed' : Place → Prop} {blamed blamed' : Report → Prop} {part : Part}
    (formed : part.WellFormed placed blamed) (places : ∀ p, placed p → placed' p) (errors : ∀ r, blamed r → blamed' r) :
    part.WellFormed placed' blamed' := by
  cases part with
  | head name args | var kind v | infer kind i => exact formed
  | place p => exact formed.imp (places p) fun ⟨r, same, blamed⟩ => ⟨r, same, errors r blamed⟩
  | error r => exact errors r formed

theorem Ty.parts_applyTo {N : Part → Prop} {p : Perm} {t : Ty} (outer : ∀ part ∈ p.parts, N part)
    (inner : ∀ part ∈ t.parts, N part) : ∀ part ∈ (p.applyTo t).parts, N part := by
  unfold Perm.applyTo
  split
  · exact inner
  · exact List.forall_mem_append.mpr ⟨outer, inner⟩

theorem Ty.parts_red {N : Part → Prop} : {t : Ty} → (∀ part ∈ t.parts, N part) →
    (∀ part ∈ t.red.perm.parts, N part) ∧ ∀ part ∈ t.head.toTy.parts, N part
  | .perm p t, all => by
    obtain ⟨outer, inner⟩ := List.forall_mem_append.mp all
    obtain ⟨perm, head⟩ := parts_red inner
    refine ⟨?_, head⟩
    rw [red]
    unfold Perm.compose
    split
    · exact perm
    · exact outer
    · exact List.forall_mem_append.mpr ⟨outer, perm⟩
  | .named _ _, all | .infer _, all | .var _, all | .never, all | .error _, all => ⟨List.forall_mem_nil _, all⟩

def Place.report? : Place → Option Report
  | .field base _ => base.report?
  | .index base => base.report?
  | .error r => some r
  | _ => none

def Part.report? : Part → Option Report
  | .place p => p.report?
  | .error r => some r
  | _ => none

/-- Whatever error stands there is `E`. -/
def Part.Carries (E : Report → Prop) (part : Part) : Prop := ∀ r, part.report? = some r → E r

section Substituting

variable {E : Report → Prop}

/-- Terms that carry errors of this sort only, if what they were made from does. -/
def Congruence.carrying (E : Report → Prop) : Congruence where
  place p q := (Part.place p).Carries E → (Part.place q).Carries E
  perm p q := (∀ part ∈ p.parts, part.Carries E) → ∀ part ∈ q.parts, part.Carries E
  ty t u := (∀ part ∈ t.parts, part.Carries E) → ∀ part ∈ u.parts, part.Carries E
  term t u := (∀ part ∈ t.parts, part.Carries E) → ∀ part ∈ u.parts, part.Carries E
  field _ := id
  index := id
  placeError _ := id
  my := id
  our := id
  shared all := by
    simp only [Perm.parts, List.forall_mem_map]
    exact forall_mem_of_forall₂ all fun _ _ => id
  leased all := by
    simp only [Perm.parts, List.forall_mem_map]
    exact forall_mem_of_forall₂ all fun _ _ => id
  apply left right both :=
    have ⟨first, second⟩ := List.forall_mem_append.mp both
    List.forall_mem_append.mpr ⟨left first, right second⟩
  permError _ := id
  applied outer inner both :=
    have ⟨first, second⟩ := List.forall_mem_append.mp both
    List.forall_mem_append.mpr ⟨outer first, inner second⟩
  named name ts us all := by
    simp only [Ty.parts, List.forall_mem_cons, Term.allParts_eq_flatMap, List.forall_mem_flatMap]
    exact fun args => ⟨(fun _ none => by cases none), forall_mem_of_forall₂ all (fun _ _ => id) args.2⟩
  never := id
  tyError _ := id
  ofTy := id
  ofPerm := id
  ofPlace h all := List.forall_mem_singleton.mpr (h (List.forall_mem_singleton.mp all))
  termError _ := id

theorem Substitution.sends_carrying {σ : Substitution}
    (entries : ∀ v t, σ.lookup v = some t → ∀ part ∈ t.parts, part.Carries E) : σ.Sends .all (.carrying E) where
  shown _ := id
  itself _ _ _ := ⟨id, id, id⟩
  place v _ _ found _ := entries v _ found _ List.mem_cons_self
  perm v _ _ found _ := entries v _ found
  ty v _ _ found _ := entries v _ found
  error v _ r found := ⟨fun _ => entries v _ found (.error r) List.mem_cons_self, fun _ => entries v _ found,
    fun _ => entries v _ found⟩
  infer _ := ⟨id, id, id⟩

end Substituting

/-- The recorded types of the variables in scope, and the declared types of fields. -/
inductive Session.Gives (s : Session) (scope : Scope) : Ty → Prop
  | var {name : String} {v : Variable} {t : Ty} : scope.lookup name = some (.var v) → s.variableTys.lookup v = some t →
    s.Gives scope t
  | field {f : Field} {t : Ty} : s.program.fieldTy f = some t → s.Gives scope t

/-- The error stands in a type that the scope gives. -/
def Session.Carries (s : Session) (scope : Scope) (r : Report) : Prop :=
  ∃ t, s.Gives scope t ∧ ∃ part ∈ t.parts, part.report? = some r

theorem Session.Gives.carries {s : Session} {scope : Scope} {t : Ty} (gives : s.Gives scope t) :
    ∀ part ∈ t.parts, part.Carries (s.Carries scope) := fun part member _ same => ⟨t, gives, part, member, same⟩

/-- The place is rooted at a place variable in scope, and each field belongs to the aggregate that heads the type of
its base. -/
def Place.Stands (env : Env) (s : Session) : Place → Prop
  | .var v => v.kind = .place ∧ ∃ name, env.scope.lookup name = some (.var v)
  | .field base f => base.Stands env s ∧ ∃ t last args name, (Rules.placeTy env base).Yields s (.ok t) last ∧
      t.head = .named (.aggregate f.owner) args ∧ s.program.member f.owner name = some (.field f)
  | _ => False

/-- Asking for the type of the place comes to an end, and it is never a field that the type cannot be had for. -/
def Place.HasFields (env : Env) (s : Session) (p : Place) : Prop :=
  ∃ r last, (Rules.placeTy env p).Yields s r last ∧ ∀ owner name, r ≠ .error (.violated (.noField owner name))

namespace Session

variable {s s' : Session} {env : Env} {base : Place} {t : Ty}

theorem Settles.yields (settles : s.Settles base) (akin : s.Akin s') (env : Env) :
    ∃ r last, (Rules.placeTy env base).Yields s' r last ∧ s.Typing (s.placeTy? base) r := by
  obtain ⟨r, last, _, yields, -, -, typing⟩ := (settles env s' akin).yields
  exact ⟨r, last, yields, typing⟩

theorem Settles.hasFields (settles : s.Settles base) (declares : s.program.DeclaresFields) (akin : s.Akin s') (env : Env) :
    base.HasFields env s' := by
  obtain ⟨r, last, yields, typing⟩ := settles.yields akin env
  refine ⟨r, last, yields, ?_⟩
  rintro owner name rfl
  generalize s.placeTy? base = known at typing
  cases typing with
  | unknown other => exact other declares owner name rfl

/-- What holds of the places that fields lead to from a variable in scope. -/
structure Accesses (s : Session) (env : Env) (p : Place) : Prop where
  stands : ∀ s', s.Akin s' → p.Stands env s'
  settles : s.Settles p
  carries : ∀ t, s.placeTy? p = some t → ∀ part ∈ t.parts, part.Carries (s.Carries env.scope)

theorem accesses_var {v : Variable} {name : String} (bound : env.scope.lookup name = some (.var v)) (kind : v.kind = .place) :
    s.Accesses env (.var v) where
  stands _ _ := ⟨kind, name, bound⟩
  settles := Rules.settles_var s v
  carries _ recorded := (Gives.var bound recorded).carries

theorem Accesses.field (declares : s.program.DeclaresFields) (accesses : s.Accesses env base) {a : Aggregate}
    {args : List Term} {f : Field} {name : String} (typed : s.placeTy? base = some t)
    (head : t.head = .named (.aggregate a) args) (member : s.program.member a name = some (.field f)) :
    s.Accesses env (.field base f) where
  stands s' akin := by
    obtain ⟨rfl, -⟩ := declares a name f member
    obtain ⟨r, last, yields, typing⟩ := accesses.settles.yields akin env
    rw [typed] at typing
    cases typing
    exact ⟨accesses.stands s' akin, t, last, args, name, yields, head, akin.program ▸ member⟩
  settles := Rules.settles_field accesses.settles typed head member
  carries u typed' := by
    rw [placeTy?, typed] at typed'
    obtain ⟨args, ty, u, head, known, -, replaced, rfl⟩ := fieldTy?_eq_some_iff.mp typed'
    obtain ⟨perm, parts⟩ := Ty.parts_red (accesses.carries t typed)
    rw [head] at parts
    have sends := Substitution.sends_carrying (σ := ⟨f.owner.generics.zip args⟩) (E := s.Carries env.scope)
      fun w u found part inside => parts part (List.mem_cons_of_mem _ ?_)
    · exact Ty.parts_applyTo perm (Ty.replaced sends ty.in_all replaced (Gives.field known).carries)
    · rw [Term.allParts_eq_flatMap]
      exact List.mem_flatMap.mpr ⟨u, (List.of_mem_zip (Substitution.mem_of_lookup found)).2, inside⟩

/-- Some place that fields lead to has no type. -/
def Lacks (s : Session) (env : Env) : Prop := ∃ p, s.Accesses env p ∧ s.placeTy? p = none

theorem Accesses.lead (declares : s.program.DeclaresFields) (accesses : s.Accesses env base) (names : List String) :
    match s.lead base names with
    | .place p => s.Accesses env p
    | .error r => s.Carries env.scope r
    | .untyped => s.Lacks env
    | _ => True := by
  fun_induction s.lead base names with
  | case1 => exact accesses
  | case2 base name names untyped => exact ⟨base, accesses, untyped⟩
  | case3 base name names t typed r head =>
    have parts := (Ty.parts_red (accesses.carries t typed)).2
    rw [head] at parts
    exact parts _ List.mem_cons_self r rfl
  | case5 base name names t typed a args head f member ih => exact ih (accesses.field declares typed head member)
  | _ => trivial

end Session

namespace Diagnostic

/-- The reports of diagnostics that are recorded one after the other, numbered from `next` on. -/
def reportsFrom (next : Nat) (ds : List Diagnostic) : List Report := (ds.zipIdx next).map fun (d, n) => ⟨n, d.span, d.message⟩

theorem reportsFrom_append (next : Nat) (ds more : List Diagnostic) :
    reportsFrom next (ds ++ more) = reportsFrom next ds ++ reportsFrom (next + ds.length) more := by
  rw [reportsFrom, List.zipIdx_append, List.map_append]
  rfl

end Diagnostic

namespace Session

variable {s s' : Session} {env : Env} {told more : List Diagnostic} {r : Report} {parts parts' : List Part}

/-- The error stands in the scope's types already, or belongs to one of the diagnostics. -/
def Blames (s : Session) (scope : Scope) (told : List Diagnostic) (r : Report) : Prop :=
  s.Carries scope r ∨ r ∈ Diagnostic.reportsFrom s.nextReport told

theorem Blames.later (blames : s.Blames env.scope told r) (more : List Diagnostic) :
    s.Blames env.scope (told ++ more) r := by
  refine blames.imp_right fun named => ?_
  rw [Diagnostic.reportsFrom_append]
  exact List.mem_append_left _ named

theorem blames_reported (tells : s.Tells told s') (d : Diagnostic) :
    s.Blames env.scope (told ++ [d]) ⟨s'.nextReport, d.span, d.message⟩ := by
  rw [tells.nextReport, Blames, Diagnostic.reportsFrom_append]
  exact .inr (List.mem_append_right _ List.mem_cons_self)

def Forms (s : Session) (env : Env) (told : List Diagnostic) (parts : List Part) : Prop :=
  ∀ part ∈ parts, part.WellFormed (s.Accesses env) (s.Blames env.scope told)

theorem Forms.later (forms : s.Forms env told parts) (more : List Diagnostic) : s.Forms env (told ++ more) parts :=
  fun part member => (forms part member).mono (fun _ => id) fun _ blames => blames.later more

theorem Forms.append (first : s.Forms env told parts) (second : s.Forms env told parts') :
    s.Forms env told (parts ++ parts') := List.forall_mem_append.mpr ⟨first, second⟩

theorem forms_error (blames : s.Blames env.scope told r) : s.Forms env told [.error r] :=
  List.forall_mem_singleton.mpr blames

/-- How reading ends: with something that is `W`, or else, as some place has no type, with a violation. -/
inductive Delivers {α : Type} (s : Session) (env : Env) (W : α → Prop) : Except Failure α → Prop
  | made {a : α} : W a → s.Delivers env W (.ok a)
  | violated {x : Violation} : x.Otherwise s.program → s.Lacks env → s.Delivers env W (.error (.violated x))

end Session

open Prog Session

section Makes

variable {α β : Type} {s : Session} {env : Env} {told : List Diagnostic}
variable {W W' : List Diagnostic → α → Prop} {V : List Diagnostic → β → Prop}

/-- Where all that happened since `s` is that diagnostics were told, the action succeeds with something that is `W` for
these and those that it tells. -/
def Action.Makes (s : Session) (told : List Diagnostic) (a : Action α) (W : List Diagnostic → α → Prop) : Prop :=
  ∀ s', s.Tells told s' → ∃ x s'' more, a.exec s' = (.ok x, s'') ∧ s'.Tells more s'' ∧ W (told ++ more) x

def Prog.Makes (s : Session) (env : Env) (told : List Diagnostic) (p : Prog α) (W : List Diagnostic → α → Prop) : Prop :=
  ∀ s', s.Tells told s' → p.Reports s' fun r more => s.Delivers env (W (told ++ more)) r

namespace Action

variable {a : Action α}

theorem makes_pure {x : α} (h : W told x) : (pure x : Action α).Makes s told W :=
  fun s' _ => ⟨x, s', [], rfl, .refl s', by rwa [List.append_nil]⟩

theorem Makes.bind {f : α → Action β} (first : a.Makes s told W)
    (next : ∀ x more, W (told ++ more) x → (f x).Makes s (told ++ more) V) : (a >>= f).Makes s told V := by
  intro s₁ before
  obtain ⟨x, s₂, more, exec, tells, holds⟩ := first s₁ before
  obtain ⟨y, s₃, more', exec', tells', holds'⟩ := next x more holds s₂ (before.trans tells)
  refine ⟨y, s₃, more ++ more', ?_, tells.trans tells', by rwa [← List.append_assoc]⟩
  rw [exec_bind, exec]
  exact exec'

theorem makes_get_bind {f : Session → Action α} (h : ∀ s', s.Tells told s' → (f s').Makes s told W) :
    (get >>= f).Makes s told W := by
  intro s' tells
  rw [exec_bind, exec_get]
  exact h s' tells s' tells

theorem makes_report (env : Env) (d : Diagnostic) : (report env d).Makes s told (s.Blames env.scope) := by
  intro s' before
  obtain ⟨s'', exec, tells⟩ := exec_report_tells env d s'
  exact ⟨_, s'', [d], exec, tells, blames_reported before d⟩

theorem makes_reported {f : Report → α} (d : Diagnostic) (h : ∀ told r, s.Blames env.scope told r → W told (f r)) :
    (do return f (← report env d)).Makes s told W :=
  (makes_report env d).bind fun r _ blames => makes_pure (h _ r blames)

end Action

namespace Prog

variable {p : Prog α}

theorem makes_pure {x : α} (h : W told x) : (pure x : Prog α).Makes s env told W :=
  fun _ _ => reports_done (.made (by rwa [List.append_nil]))

theorem makes_perform {a : Action α} (h : a.Makes s told W) : (perform a).Makes s env told W := by
  intro s' before
  obtain ⟨x, s'', ds, exec, tells, holds⟩ := h s' before
  exact reports_perform exec tells (.made holds)

theorem Makes.bind {f : α → Prog β} (first : p.Makes s env told W)
    (next : ∀ x more, W (told ++ more) x → (f x).Makes s env (told ++ more) V) : (p >>= f).Makes s env told V := by
  refine fun s₁ before => ((first s₁ before).mono fun r more ended s₂ tells => ?_).bind
  cases ended with
  | violated other lacks => exact reports_done (.violated other lacks)
  | made holds =>
    refine (next _ more holds s₂ (before.trans tells)).mono fun r' more' ended' => ?_
    rwa [← List.append_assoc]

theorem Makes.awaited (h : p.Makes s env told W) : p.awaited.Makes s env told W := fun s' before => (h s' before).awaited

theorem Makes.relayed (h : p.Makes s env told W) : p.relayed.Makes s env told W := fun s' before => (h s' before).relayed

theorem makes_reported {f : Report → α} (d : Diagnostic) (h : ∀ told r, s.Blames env.scope told r → W told (f r)) :
    (do return f (← Action.report env d) : Prog α).Makes s env told W :=
  (makes_perform (Action.makes_report env d)).bind fun r _ blames => makes_pure (h _ r blames)

end Prog

end Makes

namespace Rules

variable {s : Session} {env : Env} {told : List Diagnostic}

theorem makes_resolveName (name : String) (span : Span) : (resolveName env name span).Makes s told fun told =>
    EndsIn (fun r => env.scope.resolve? name = some r) (s.Blames env.scope told) := by
  unfold resolveName Scope.resolve
  cases found : env.scope.resolve? name with
  | some r => exact Action.makes_pure rfl
  | none => exact Action.makes_reported _ fun _ _ blames => blames

theorem makes_resolveRest (r : Resolution) (rest : List Name) : (resolveRest env r rest).Makes s told fun told =>
    EndsIn (fun _ => True) (s.Blames env.scope told) := by
  induction rest generalizing r told with
  | nil => exact Action.makes_pure trivial
  | cons segment rest ih =>
    have relative : (resolveRelative env r segment.id segment.span).Makes s told fun told =>
        EndsIn (fun _ => True) (s.Blames env.scope told) := by
      refine Action.makes_get_bind fun s' _ => ?_
      split
      · exact Action.makes_pure trivial
      · exact Action.makes_reported _ fun _ _ blames => blames
    refine relative.bind fun x more found => ?_
    cases x with
    | error report => exact Action.makes_pure found
    | ok relative =>
      cases relative with
      | found r => exact ih r
      | notFound _ => exact Action.makes_reported _ fun _ _ blames => blames

theorem makes_resolvePath (first : Name) (rest : List Name) : (resolvePath env first rest).Makes s told fun told =>
    EndsIn (fun _ => True) (s.Blames env.scope told) := by
  refine (makes_resolveName first.id first.span).bind fun x more found => ?_
  cases x with
  | error report => exact Action.makes_pure found
  | ok r => exact makes_resolveRest r rest

theorem forall₂_of_firstMisfit {ks : List Kind} {ts : List Term} {spans : List Span} {parameters : List (Option Variable)}
    (terms : ts.length = ks.length) (spanned : spans.length = ks.length) (named : parameters.length = ks.length)
    (fit : firstMisfit ks ts spans parameters = none) : List.Forall₂ (fun k t => t.hasKind k) ks ts := by
  induction ks generalizing ts spans parameters with
  | nil =>
    cases List.length_eq_zero_iff.mp terms
    exact .nil
  | cons k ks ih =>
    obtain ⟨t, ts, rfl⟩ := List.exists_cons_of_length_eq_add_one terms
    obtain ⟨span, spans, rfl⟩ := List.exists_cons_of_length_eq_add_one spanned
    obtain ⟨v, parameters, rfl⟩ := List.exists_cons_of_length_eq_add_one named
    unfold firstMisfit at fit
    split at fit
    · rename_i fits
      exact .cons fits (ih (Nat.succ.inj terms) (Nat.succ.inj spanned) (Nat.succ.inj named) fit)
    · cases fit

section Args

variable {span : Span} {written : List Source.Generic} {args : List Term} (count : args.length = written.length)
include count

theorem makes_checkGenericArgs {name : String} {expected : List Kind} {parameters : List (Option Variable)}
    (named : parameters.length = expected.length) :
    (checkGenericArgs env span name expected parameters written args).Makes s told fun told x =>
      match x with
      | some r => s.Blames env.scope told r
      | none => List.Forall₂ (fun k t => Term.hasKind t k) expected args := by
  unfold checkGenericArgs
  split
  · exact Action.makes_reported _ fun _ _ blames => blames
  · rename_i same
    have same : args.length = expected.length := (not_not.mp same).symm
    split
    · rename_i fit
      exact Action.makes_pure (forall₂_of_firstMisfit same (by rw [List.length_map, ← count, same]) named fit)
    · exact Action.makes_reported _ fun _ _ blames => blames

variable (forms : s.Forms env told (Term.allParts args))
include forms

theorem makes_namedTyOfResolution (r : Resolution) : (namedTyOfResolution env span written args r).Makes s told
    fun told t => s.Forms env told (Ty.parts t) := by
  unfold namedTyOfResolution
  dsimp only
  split
  · split
    · exact Action.makes_pure (List.forall_mem_singleton.mpr rfl)
    · exact Action.makes_reported _ fun _ _ => forms_error
  · rename_i a
    refine (makes_checkGenericArgs count (by rw [List.length_map, List.length_map])).bind fun x more checked => ?_
    cases x with
    | some r => exact Action.makes_pure (forms_error checked)
    | none =>
      refine Action.makes_pure (List.forall_mem_cons.mpr ⟨?_, forms.later more⟩)
      exact (List.forall₂_map_left_iff.mp checked).imp fun _ _ => id
  · split
    · exact Action.makes_reported _ fun _ _ => forms_error
    · rename_i kind
      split
      · exact Action.makes_pure (List.forall_mem_singleton.mpr (not_not.mp kind))
      · exact Action.makes_reported _ fun _ _ => forms_error
  · exact Action.makes_reported _ fun _ _ => forms_error

theorem makes_namedTy (kinds : ∀ t ∈ args, t.kind?.isSome) (first : Name) (rest : List Name) :
    (namedTy env span first rest written args).Makes s told fun told t => s.Forms env told (Ty.parts t) := by
  unfold namedTy
  split
  · refine (makes_checkGenericArgs count rfl).bind fun x more checked => ?_
    cases x with
    | some r => exact Action.makes_pure (forms_error checked)
    | none =>
      refine Action.makes_pure (List.forall_mem_cons.mpr ⟨?_, forms.later more⟩)
      obtain ⟨t, _, fits, none, rfl⟩ := List.forall₂_cons_left_iff.mp checked
      cases none
      have kind := kinds t List.mem_cons_self
      cases t with
      | ty t => exact ⟨t, rfl⟩
      | perm | place => simp [Term.hasKind, Term.kind?] at fits
      | error => cases kind
  · refine (makes_resolvePath first rest).bind fun x more found => ?_
    cases x with
    | error r => exact Action.makes_pure (forms_error found)
    | ok r => exact makes_namedTyOfResolution count (forms.later more) r

end Args

section Places

variable (declares : s.program.DeclaresFields)
include declares

theorem makes_place (p : Source.Place) :
    (place env p).Makes s env told fun told q => s.Forms env told [.place q] := by
  have blame {told : List Diagnostic} {r : Report} (blames : s.Blames env.scope told r) :
      s.Forms env told [.place (.error r)] := List.forall_mem_singleton.mpr (.inr ⟨r, rfl, blames⟩)
  refine (makes_perform (makes_resolveName p.root.id p.root.span)).bind fun x more found => ?_
  cases x with
  | error r => exact makes_pure (blame found)
  | ok r =>
    dsimp only
    split
    · rename_i v entity
      split
      · exact makes_reported _ fun _ _ => blame
      · rename_i kind
        have bound : env.scope.lookup p.root.id = some (.var v) := by
          obtain ⟨entity, generics⟩ := r
          cases entity
          have found : env.scope.resolve? p.root.id = some ⟨.var v, generics⟩ := found
          unfold Scope.resolve? at found
          split at found
          · cases found
            assumption
          · cases named : Primitive.ofName? p.root.id <;> rw [named] at found <;> cases found
        have accesses : s.Accesses env (.var v) := accesses_var bound (not_not.mp kind)
        intro s' before
        refine ((reports_placeFields accesses.settles before.akin p.fields).mono fun r ds ended s'' _ => ?_).andThen
        have led := accesses.lead declares (p.fields.map Name.id)
        generalize s.lead (.var v) (p.fields.map Name.id) = l at ended led
        refine Reports.mono (P := fun r' more => r' = orErrorPlace r ∧ more = []) ?_ ?_
        · rcases r with (_ | _) | _ <;> exact reports_done ⟨rfl, rfl⟩
        · rintro _ _ ⟨rfl, rfl⟩
          rw [List.append_nil]
          cases ended with
          | place => exact .made (List.forall_mem_singleton.mpr (.inl led))
          | error r => exact .made (blame (.inl led))
          | blamed d => exact .made (blame (blames_reported before d))
          | untyped other => exact .violated other led
    · exact makes_reported _ fun _ _ => blame

theorem makes_places (ps : List Source.Place) :
    (places env ps).Makes s env told fun told qs => s.Forms env told (qs.map .place) := by
  induction ps generalizing told with
  | nil => exact makes_pure (List.forall_mem_nil _)
  | cons p ps ih =>
    refine (makes_place declares p).awaited.bind fun q more formed => ?_
    exact ih.bind fun qs more' formed' => makes_pure ((formed.later more').append formed')

theorem makes_perm (p : Source.Perm) : (perm env p).Makes s env told fun told q => s.Forms env told q.parts := by
  cases p with
  | my | our => exact makes_pure (List.forall_mem_nil _)
  | shared span written | leased span written =>
    exact (makes_places declares written).awaited.bind fun qs more formed => makes_pure formed
  | named span name =>
    cases name with
    | none => exact makes_reported _ fun _ _ => forms_error
    | some name =>
      refine (makes_perform (makes_resolveName name.id name.span)).bind fun x more found => ?_
      cases x with
      | error r => exact makes_pure (forms_error found)
      | ok r =>
        dsimp only
        split
        · split
          · rename_i kind
            exact makes_pure (List.forall_mem_singleton.mpr kind)
          · exact makes_reported _ fun _ _ => forms_error
        · exact makes_reported _ fun _ _ => forms_error

end Places

theorem forms_ofVariable_of_lone {v : Variable} {t : Source.Ty} (lone : loneVariable env t = some v) :
    (Term.ofVariable v).kind?.isSome ∧ s.Forms env told (Term.ofVariable v).parts := by
  unfold loneVariable at lone
  split at lone
  · split at lone
    · rename_i bound
      cases lone
      unfold Term.ofVariable
      split
      · rename_i kind
        exact ⟨rfl, List.forall_mem_singleton.mpr kind⟩
      · rename_i kind
        exact ⟨rfl, List.forall_mem_singleton.mpr kind⟩
      · rename_i kind
        exact ⟨rfl, List.forall_mem_singleton.mpr (.inl (accesses_var bound kind))⟩
    · cases lone
  · cases lone

mutual
theorem makes_ty (declares : s.program.DeclaresFields) {told : List Diagnostic} : (t : Source.Ty) →
    (ty env t).Makes s env told fun told u => s.Forms env told u.parts
  | .named span first segments written => by
    unfold ty
    refine Makes.relayed ((makes_generics declares written).bind fun args more made => ?_)
    obtain ⟨count, kinds, forms⟩ := made
    exact makes_perform (makes_namedTy count forms kinds first segments)
  | .perm _ p t => by
    unfold ty
    refine (makes_perm declares p).awaited.bind fun q more outer => ?_
    exact (makes_ty declares t).awaited.bind fun u more' inner => makes_pure (Ty.parts_applyTo (outer.later more') inner)
  | .tuple _ elements => by
    unfold ty
    refine (makes_tys declares elements).bind fun us more forms => makes_pure (List.forall_mem_cons.mpr ⟨?_, ?_⟩)
    · exact ⟨us, rfl, (List.length_map _).symm⟩
    · rw [Term.allParts_eq_flatMap, List.flatMap_map]
      exact forms

theorem makes_tys (declares : s.program.DeclaresFields) {told : List Diagnostic} : (ts : List Source.Ty) →
    (tys env ts).Makes s env told fun told us => s.Forms env told (us.flatMap Ty.parts)
  | [] => by
    unfold tys
    exact makes_pure (List.forall_mem_nil _)
  | t :: ts => by
    unfold tys
    refine (makes_ty declares t).awaited.bind fun u more first => ?_
    exact (makes_tys declares ts).bind fun us more' rest => makes_pure ((first.later more').append rest)

theorem makes_generic (declares : s.program.DeclaresFields) {told : List Diagnostic} : (g : Source.Generic) →
    (generic env g).Makes s env told fun told u => u.kind?.isSome ∧ s.Forms env told u.parts
  | .perm p => by
    unfold generic
    exact Makes.relayed ((makes_perm declares p).bind fun q more forms => makes_pure ⟨rfl, forms⟩)
  | .ty t => by
    unfold generic
    split
    · rename_i v lone
      exact makes_pure (forms_ofVariable_of_lone lone)
    · exact Makes.relayed ((makes_ty declares t).bind fun u more forms => makes_pure ⟨rfl, forms⟩)

theorem makes_generics (declares : s.program.DeclaresFields) {told : List Diagnostic} : (gs : List Source.Generic) →
    (generics env gs).Makes s env told fun told us =>
      us.length = gs.length ∧ (∀ u ∈ us, u.kind?.isSome) ∧ s.Forms env told (Term.allParts us)
  | [] => by
    unfold generics
    exact makes_pure ⟨rfl, List.forall_mem_nil _, List.forall_mem_nil _⟩
  | g :: gs => by
    unfold generics
    refine (makes_generic declares g).awaited.bind fun u more first => ?_
    refine (makes_generics declares gs).bind fun us more' rest => ?_
    obtain ⟨count, kinds, forms⟩ := rest
    refine makes_pure ⟨congrArg _ count, List.forall_mem_cons.mpr ⟨first.1, kinds⟩, ?_⟩
    exact (first.2.later more').append forms
end

end Rules

namespace Session

/-- The program comes to an end with a term whose parts are well formed. If it does not, then a place that stands in the
scope has no type; the violation is never about a field. -/
def ReadsTerm {α : Type} (s : Session) (env : Env) (p : Prog α) (parts : α → List Part) : Prop :=
  ∃ r last told, p.Yields s r last ∧ s.Tells told last ∧
    (∀ a, r = .ok a → ∀ part ∈ parts a,
      part.WellFormed (fun q => q.Stands env last ∧ q.HasFields env last) (s.Blames env.scope told)) ∧
    ∀ e, r = .error e → (∃ x, e = .violated x ∧ ∀ owner name, x ≠ .noField owner name) ∧
      ∃ q x last', q.Stands env last ∧ (Rules.placeTy env q).Yields last (.error (.violated x)) last'

theorem readsTerm_of_makes {α : Type} {s : Session} {env : Env} {p : Prog α} {parts : α → List Part}
    (declares : s.program.DeclaresFields) (makes : p.Makes s env [] fun told a => s.Forms env told (parts a)) :
    s.ReadsTerm env p parts := by
  obtain ⟨r, last, told, yields, tells, ended⟩ := (makes s (.refl s)).yields
  have akin := tells.akin
  refine ⟨r, last, told, yields, tells, ?_⟩
  cases ended with
  | @made a forms =>
    refine ⟨fun _ same part member => ?_, nofun⟩
    cases same
    refine (forms part member).mono (fun q accesses => ?_) fun _ => id
    exact ⟨accesses.stands last akin, accesses.settles.hasFields declares akin env⟩
  | violated other lacks =>
    refine ⟨nofun, fun e same => ?_⟩
    cases same
    obtain ⟨q, accesses, untyped⟩ := lacks
    obtain ⟨_, last', yields', typing⟩ := accesses.settles.yields akin env
    rw [untyped] at typing
    cases typing
    exact ⟨⟨_, rfl, other declares⟩, q, _, last', accesses.stands last akin, yields'⟩

/-- Every type and every generic argument of the source becomes a well-formed term, whatever the scope and the recorded
types are. -/
theorem source_terms_well_formed (s : Session) (declares : s.program.DeclaresFields) (env : Env) :
    (∀ t : Source.Ty, s.ReadsTerm env (Rules.ty env t) Ty.parts) ∧
      ∀ g : Source.Generic, s.ReadsTerm env (Rules.generic env g) Term.parts := by
  refine ⟨fun t => readsTerm_of_makes declares (Rules.makes_ty declares t), fun g => readsTerm_of_makes declares ?_⟩
  intro s' before
  refine (Rules.makes_generic declares g s' before).mono fun r more ended => ?_
  cases ended with
  | made formed => exact .made formed.2
  | violated other lacks => exact .violated other lacks

section Packed

/-- `x` is a box of a box, and boxes are in scope. -/
def packingScope : Env := .root [[("x", .var owner), ("Box", .aggregate box)]]

/-- `leased[x.b.b, x.c] Box[Future[u32]]`, where a box has no field `c`. -/
def packingTy : Source.Ty :=
  .perm default (.leased default [unpackingPath [⟨"b", default⟩, ⟨"b", default⟩], unpackingPath [⟨"c", default⟩]])
    (.named default ⟨"Box", default⟩ [] [.ty (.named default ⟨"Future", default⟩ []
      [.ty (.named default ⟨"u32", default⟩ [] [])])])

theorem packed_declaresFields : packed.program.DeclaresFields := by
  intro a name f member
  have listed : packed.program.members = [(box, [("b", .field content)])] := rfl
  by_cases same : box = a
  · simp only [Program.member, Program.membersOf, listed, List.find?_singleton, same, decide_true, if_true,
      List.lookup_cons, List.lookup_nil] at member
    split at member
    · cases member
      exact ⟨same, rfl⟩
    · cases member
  · simp [Program.member, Program.membersOf, listed, same] at member

theorem packing_reads : ∃ t last, (Rules.ty packingScope packingTy).Yields packed (.ok t) last ∧
    last.diagnostics.length = 1 := by
  let m := (({ session := packed } : Machine Ty).start 0 (Rules.ty packingScope packingTy)).run Rules.answer 200
  have ended : (m.queue.isEmpty, m.results.map fun (i, r) => (i, r.isOk), m.session.diagnostics.length) =
      (true, [(0, true)], 1) := by decide +kernel
  simp only [Prod.mk.injEq, List.isEmpty_iff, List.map_eq_singleton_iff] at ended
  obtain ⟨empty, ⟨⟨_, r⟩, results, rfl, good⟩, told⟩ := ended
  cases r with
  | ok t => exact ⟨t, _, ⟨200, m, rfl, empty, results, rfl⟩, told⟩
  | error => cases good

/-- The path `x.b.b` becomes a place in the term; `x.c` becomes an error, which is reported. -/
theorem source_terms_well_formed_packed : packed.program.DeclaresFields ∧
    ∃ t last told, (Rules.ty packingScope packingTy).Yields packed (.ok t) last ∧ packed.Tells told last ∧
      told.length = 1 ∧ ∀ part ∈ t.parts, part.WellFormed (fun q => q.Stands packingScope last ∧
        q.HasFields packingScope last) (packed.Blames packingScope.scope told) := by
  obtain ⟨r, last, told, yields, tells, formed, -⟩ :=
    (source_terms_well_formed packed packed_declaresFields packingScope).1 packingTy
  obtain ⟨t, _, yields', once⟩ := packing_reads
  obtain ⟨rfl, rfl⟩ := yields.unique yields'
  rw [tells.diagnostics] at once
  exact ⟨packed_declaresFields, t, last, told, yields, tells, once, formed t rfl⟩

end Packed

end Session

end Ownership
