import Ownership.Proofs.Conduct
import Ownership.Proofs.RegimeConstraints

namespace Ownership

/-- The diagnostic says that nothing constrains an inferred type. -/
def Diagnostic.BlamesNothing (d : Diagnostic) : Prop := "nothing constrains the inferred type" ∈ d.because

def Because.isUnconstrained : Because → Bool
  | unconstrainedInfer _ => true
  | leasedPlaceIsNotCopy _ cause => cause.isUnconstrained
  | inferredLowerBound _ _ cause => cause.isUnconstrained
  | _ => false

theorem ne_unconstrained {s : String} (other : s.toList.head? ≠ some 'n') :
    "nothing constrains the inferred type" ≠ s := by
  rintro rfl
  exact other rfl

theorem Because.mem_describe {because : Because} :
    "nothing constrains the inferred type" ∈ because.describe ↔ because.isUnconstrained := by
  induction because with
  | justSo | unconstrainedInfer span => simp [describe, isUnconstrained]
  | inferredLowerBound bound origin cause ih | leasedPlaceIsNotCopy place cause ih =>
    rw [isUnconstrained, ← ih, describe.eq_def]
    exact List.mem_cons.trans (or_iff_right (ne_unconstrained (by simp [toString, String.toList_append])))
  | _ =>
    refine iff_of_false (fun member => ?_) (by simp [isUnconstrained])
    rw [describe, List.mem_singleton] at member
    exact ne_unconstrained (by simp [toString, String.toList_append]) member

theorem Obligation.isUnconstrained_explain (o : Obligation) (because : Because) :
    (o.explain because).isUnconstrained = because.isUnconstrained := by
  unfold explain
  induction o.provenance with
  | nil => rfl
  | cons step rest ih => cases step <;> exact ih

theorem Requirement.because_diagnostic (because : Because) (r : Requirement) : (r.diagnostic because).because = [] := by
  cases r with
  | numeric span ty operator => cases operator <;> rfl
  | _ => rfl

theorem Obligation.blamesNothing_failure {o : Obligation} {because : Because} :
    (o.failure because).BlamesNothing ↔ because.isUnconstrained := by
  rw [← o.isUnconstrained_explain, ← Because.mem_describe, Diagnostic.BlamesNothing, failure, Diagnostic.becauseOf,
    diagnostic, Requirement.because_diagnostic, List.nil_append]

def Goal.Inspects {s : Shape} : Goal s → Prop
  | .holds .. => True
  | .tyHolds .. => True
  | .permHolds .. => True
  | .refuted .. => True
  | .tyRefuted .. => True
  | .permRefuted .. => True
  | .placeHolds .. => True
  | .placeRefuted .. => True
  | .inferHolds .. => True
  | .fieldTy .. => True
  | .lowerBound .. => True
  | .evidence .. => True
  | _ => False

def Goal.Demands (p : Predicate) {s : Shape} : Goal s → Prop
  | .require _ q _ _ => q = p
  | .establish _ q _ _ => q = p
  | .establishTy _ q _ _ => q = p
  | .establishPerm _ q _ _ => q = p
  | .establishUnless _ q _ _ _ => q = p
  | .establishCopyPlace .. => p = .copy
  | .establishMovePlace .. => p = .move
  | _ => False

def Goal.Compares {s : Shape} : Goal s → Prop
  | .attempt .. => True
  | .contend .. => True
  | .require .. => True
  | .subTerms .. => True
  | .subTys .. => True
  | .subPerms .. => True
  | _ => False

/-- The goal is no numeric obligation; what is awaited carries an obligation of the given sort. Some goals
hold names of symbols. -/
def Goal.Usual (awaits : Obligation → Prop) (holding : Prop) {s : Shape} : Goal s → Prop
  | .numeric .. => False
  | .body .. => holding
  | .argument .. => holding
  | .member .. => holding
  | .future _ _ _ o => awaits o
  | .futureHead _ _ _ o => awaits o
  | _ => True

section Sorts

variable {s : Shape} {g : Goal s} {awaits : Obligation → Prop} {holding : Prop}

theorem Goal.Inspects.usual (tests : g.Inspects) : g.Usual awaits holding := by
  cases g <;> trivial

theorem Goal.Compares.usual (part : g.Compares) : g.Usual awaits holding := by
  cases g <;> trivial

theorem Goal.Demands.usual {p : Predicate} (demands : g.Demands p) : g.Usual awaits holding := by
  cases g <;> trivial

end Sorts

def Session.Sees (s : Session) (i : InferIndex) (t : Term) : Prop :=
  ∀ v, s.inferVars[i]? = some v → ∀ u ∈ t.freeVariables, v.home.canSee (s.universeOf u) = true

def Deed.Searches : Deed → Prop
  | .search _ => True
  | .conclude _ => True
  | .release .. => True
  | .speculate => True
  | .abandon _ => True
  | _ => False

/-- The deed is none of a numeric obligation; upper bounds mention only what their variable can see. -/
def Deed.Usual (holding : Prop) (s : Session) : Deed → Prop
  | .report d => ¬ d.BlamesNothing
  | .fallback .. => False
  | .upper i b => s.Sees i b.term
  | .name .. => holding
  | .keep _ => holding
  | _ => True

namespace Conduct

structure Looks (C : Conduct) : Prop where
  log : ∀ s depth message values, C.May s (.log depth message values)
  report : ∀ s (d : Diagnostic), ¬ d.BlamesNothing → C.May s (.report d)
  calls : ∀ ⦃s⦄ (g : Goal s), g.Inspects → C.Calls g
  asks : ∀ ⦃s⦄ (g : Goal s), g.Inspects → C.Asks g

structure Compares (C : Conduct) : Prop extends C.Looks where
  searches : ∀ s (d : Deed), d.Searches → C.May s d
  callsCheck : ∀ g : Goal .truth, g.Compares → C.Calls g
  asksCheck : ∀ ⦃s⦄ (g : Goal s), g.Compares → C.Asks g
  contests : C.Contests

structure Checks (C : Conduct) (awaits : Obligation → Prop) (holding : Prop) : Prop where
  may : ∀ s (d : Deed), d.Usual holding s → C.May s d
  calls : ∀ ⦃s⦄ (g : Goal s), g.Usual awaits holding → C.Calls g
  asks : ∀ ⦃s⦄ (g : Goal s), g.Usual awaits holding → C.Asks g
  posts : ∀ g : Goal .unit, g.Usual awaits holding → C.Posts g
  postsNumeric : ∀ env t o, C.Posts (.numeric env t o)
  contests : C.Contests
  awaitable : ∀ span futureSpan t, awaits ⟨.awaitable span futureSpan t, []⟩
  because : ∀ {o} bound origin, awaits o → awaits (o.becauseOfLowerBound bound origin)
  refuses : ∀ {o}, awaits o → ∀ s span, C.May s (.report (o.failure (.unconstrainedInfer span)))

variable {C : Conduct} {awaits : Obligation → Prop} {holding : Prop}

theorem Checks.compares (checks : C.Checks awaits holding) : C.Compares where
  log _ _ _ _ := checks.may _ _ trivial
  report _ _ plain := checks.may _ _ plain
  calls _ g tests := checks.calls g tests.usual
  asks _ g tests := checks.asks g tests.usual
  searches s d part := checks.may s d (by cases d <;> first | exact part.elim | trivial)
  callsCheck g part := checks.calls g part.usual
  asksCheck _ g part := checks.asks g part.usual
  contests := checks.contests

theorem Checks.looks (checks : C.Checks awaits holding) : C.Looks := checks.compares.toLooks

end Conduct

namespace Action

variable {C : Conduct} {α β : Type}

theorem Within.andThen {a : Action α} {f : α → Action β} (first : a.Within C.Does)
    (next : ∀ x, (f x).Within C.Does) : (a >>= f).Within C.Does :=
  Within.bind Relation.ReflTransGen.trans first next

theorem within_pure (a : α) : (pure a : Action α).Within C.Does := fun _ => .refl

theorem within_throw (e : Failure) : (throw e : Action α).Within C.Does := fun _ => .refl

theorem within_get : (get : Action Session).Within C.Does := fun _ => .refl

theorem within_inferVar (i : InferIndex) : (inferVar i).Within C.Does := by
  intro s
  rw [exec_inferVar]
  exact .refl

theorem within_variableTy (v : Variable) : (variableTy v).Within C.Does := by
  intro s
  rw [exec_variableTy]
  exact .refl

theorem within_universeOf (v : Variable) : (universeOf v).Within C.Does := fun _ => .refl

theorem within_search (i : Nat) : (search i).Within C.Does := fun _ => .refl

theorem within_mapM {f : β → Action α} (each : ∀ b, (f b).Within C.Does) (bs : List β) : (bs.mapM f).Within C.Does := by
  induction bs with
  | nil => exact within_pure _
  | cons b bs ih =>
    rw [List.mapM_cons]
    exact (each b).andThen fun _ => ih.andThen fun _ => within_pure _

section Looking

variable (looks : C.Looks) (env : Env)
include looks

theorem within_log (depth : Nat) (message : String) (values : List String) : (log depth message values).Within C.Does :=
  fun s => Conduct.does_apply (looks.log s depth message values)

theorem within_report {d : Diagnostic} (plain : ¬ d.BlamesNothing) : (report env d).Within C.Does :=
  (within_log looks _ _ _).andThen fun _ s => Conduct.does_apply (looks.report s d plain)

theorem within_tell {d : Diagnostic} (plain : d.because = []) : (report env d).Within C.Does :=
  within_report looks env (by simp [Diagnostic.BlamesNothing, plain])

theorem within_refuse (o : Obligation) {because : Because} (other : because.isUnconstrained = false) :
    (refuse env o because : Action α).Within C.Does := by
  have plain : ¬ (o.failure because).BlamesNothing := by simp [Obligation.blamesNothing_failure, other]
  exact (within_report looks env plain).andThen fun _ => within_throw _

end Looking

section Checking

variable {awaits : Obligation → Prop} {holding : Prop} (checks : C.Checks awaits holding)
include checks

theorem within_deed {a : Action α} {d : Deed} (same : ∀ s, (a.exec s).2 = d.apply s) (usual : ∀ s, d.Usual holding s) :
    a.Within C.Does := by
  intro s
  rw [same]
  exact Conduct.does_apply (checks.may s d (usual s))

theorem within_freshTy (env : Env) (span : Span) : (freshTy env span).Within C.Does :=
  (within_deed checks (d := .fresh env .type span) (fun _ => rfl) fun _ => trivial).andThen fun _ => within_pure _

theorem within_freshFor (env : Env) (span : Span) (vs : List Variable) : (freshFor env span vs).Within C.Does := by
  refine within_mapM (fun v => ?_) vs
  exact (within_deed checks (d := .fresh env v.kind span) (fun _ => rfl) fun _ => trivial).andThen fun _ => within_pure _

theorem within_setVariableTy (v : Variable) (t : Ty) : (setVariableTy v t).Within C.Does :=
  within_deed checks (d := .assign v t) (fun _ => rfl) fun _ => trivial

theorem within_withLocal (env : Env) (text : String) (v : Variable) (t : Ty) : (withLocal env text v t).Within C.Does :=
  (within_setVariableTy checks v t).andThen fun _ => within_pure _

end Checking

theorem within_newVariable {awaits : Obligation → Prop} (checks : C.Checks awaits True) (kind : Kind)
    (text : Option String) (span : Span) : (newVariable kind text span).Within C.Does :=
  within_deed checks (d := .name kind text span) (fun _ => rfl) fun _ => trivial

end Action

namespace Prog

variable {C : Manner} {α : Type} (looks : C.Looks) (env : Env)
include looks

theorem heeds_log (depth : Nat) (message : String) (values : List String) :
    (perform (Action.log depth message values)).Heeds C := heeds_perform (Action.within_log looks _ _ _)

theorem heeds_tell {d : Diagnostic} (plain : d.because = []) : (perform (Action.report env d)).Heeds C :=
  heeds_perform (Action.within_tell looks env plain)

theorem heeds_refuse (o : Obligation) {because : Because} (other : because.isUnconstrained = false) :
    (refuse env o because : Prog α).Heeds C := heeds_perform (Action.within_refuse looks env o other)

variable {env}

theorem Heeds.traced {task result : String} {values : List String} {body : Env → Prog α}
    (h : (body env.fork).Heeds C) : (Prog.traced env task values result body).Heeds C :=
  (heeds_log looks _ _ _).bind fun _ => h.awaited.bind fun _ => (heeds_log looks _ _ _).bind fun _ =>
    heeds_pure _

theorem heeds_asksTest {s : Shape} {g : Goal s} (tests : g.Inspects) :
    (ask g).Heeds C := heeds_ask (looks.calls g tests)

theorem heeds_relaysTest {s : Shape} {g : Goal s} (tests : g.Inspects) : (relay g).Heeds C :=
  heeds_relay (looks.calls g tests)

theorem heeds_combine {disjunctive : Bool} {g h : Goal .truth} (first : g.Inspects) (second : h.Inspects) :
    (Rules.combine disjunctive [g, h]).Heeds C := by
  unfold Rules.combine
  split
  all_goals exact heeds_raced (asks_pair (looks.asks g first) (looks.asks h second)) _

theorem heeds_testsAll {β : Type} {decisive : Bool} {f : β → Goal .truth} {bs : List β} (tests : ∀ b, (f b).Inspects) :
    (raced decisive (bs.map f)).Heeds C := heeds_raced_map fun b => looks.asks (f b) (tests b)

end Prog

structure Manner.Demands (C : Manner) (p : Predicate) : Prop extends C.Looks where
  callsDemand : ∀ ⦃s⦄ (g : Goal s), g.Demands p → C.Calls g
  asksDemand : ∀ ⦃s⦄ (g : Goal s), g.Demands p → C.Asks g
  establishInfer : ∀ env i o, (Rules.establishInfer env i p o).Heeds C

namespace Rules

open Prog

variable {C : Manner}

theorem heeds_inferVar (i : InferIndex) : (perform (Action.inferVar i)).Heeds C :=
  heeds_perform (Action.within_inferVar i)

theorem heeds_get : (perform get : Prog Session).Heeds C := heeds_perform Action.within_get

section Tests

variable (looks : C.Looks) (env : Env) (p : Predicate) (i : InferIndex)

theorem heeds_lowerBound : (lowerBound env i).Heeds C := by
  refine C.has_wait fun v => ?_
  split
  · exact .inl (heeds_pure _)
  · exact .inr ⟨_, _, _, rfl, fun _ => (heeds_inferVar i).bind fun _ => heeds_pure _⟩

theorem heeds_evidence : (evidence env i p).Heeds C := by
  refine C.has_wait fun v => ?_
  dsimp only
  split
  · exact .inl (heeds_pure _)
  · exact .inr ⟨_, _, _, rfl, fun _ => (heeds_inferVar i).bind fun _ => heeds_pure _⟩

include looks

theorem heeds_fieldTy (owner : Ty) (f : Field) : (fieldTy env owner f).Heeds C := by
  unfold fieldTy
  dsimp only
  split
  · split
    · exact heeds_violate _
    · exact heeds_get.bind fun _ => (heeds_lift _).bind fun _ => heeds_pure _
  · exact heeds_violate _
  · refine Heeds.bind (heeds_asksTest looks trivial) fun bound => ?_
    split
    · exact Heeds.bind (heeds_asksTest looks trivial) fun _ => heeds_pure _
    · exact (heeds_inferVar _).bind fun _ => (heeds_tell looks env rfl).bind fun _ => heeds_raise _
  · exact heeds_raise _
  · exact heeds_violate _
  · exact heeds_violate _

theorem heeds_placeTy : (place : Place) → (placeTy env place).Heeds C
  | .var v => heeds_perform (Action.within_variableTy v)
  | .field base _ => (heeds_placeTy base).awaited.bind fun _ => heeds_relaysTest looks trivial
  | .error r => heeds_raise r
  | .index _ | .infer _ => heeds_violate _

theorem heeds_permHolds (q : Perm) : (permHolds env p q).Heeds C := by
  cases q with
  | error r => exact heeds_raise r
  | my | our | shared ps | var v => exact heeds_pure _
  | leased ps =>
    cases p with
    | copy | move => exact heeds_testsAll looks fun _ => trivial
    | owned | lent => exact heeds_pure _
  | apply l r => exact heeds_combine looks trivial trivial
  | infer i => exact heeds_relaysTest looks trivial

theorem heeds_tyHolds (t : Ty) : (tyHolds env p t).Heeds C := by
  cases t with
  | error r => exact heeds_raise r
  | perm q t => exact heeds_combine looks trivial trivial
  | named name args =>
    dsimp only [tyHolds]
    split
    · exact heeds_pure _
    · exact heeds_pure _
    · exact heeds_testsAll looks fun _ => trivial
    · exact heeds_testsAll looks fun _ => trivial
  | infer i => exact heeds_relaysTest looks trivial
  | var v | never => exact heeds_pure _

theorem heeds_holds (t : Term) : (holds env p t).Heeds C := by
  cases t with
  | error r => exact heeds_raise r
  | ty t | perm q => exact heeds_relaysTest looks trivial
  | place place => exact heeds_violate _

theorem heeds_inferRefuted : (inferRefuted env i p).Heeds C := by
  refine (heeds_inferVar i).bind fun v => ?_
  split
  · exact heeds_pure _
  · split
    · exact heeds_pure _
    · split
      · exact heeds_relaysTest looks trivial
      · exact heeds_pure _

theorem heeds_permRefuted (q : Perm) : (permRefuted env p q).Heeds C := by
  cases q with
  | error r => exact heeds_raise r
  | my | our | shared ps | var v => exact heeds_pure _
  | leased ps => exact heeds_testsAll looks fun _ => trivial
  | apply l r => exact heeds_combine looks trivial trivial
  | infer i => exact (heeds_inferRefuted looks env p i).relayed

theorem heeds_tyRefuted (t : Ty) : (tyRefuted env p t).Heeds C := by
  cases t with
  | error r => exact heeds_raise r
  | perm q t => exact heeds_combine looks trivial trivial
  | named name args =>
    dsimp only [tyRefuted]
    split
    · exact heeds_pure _
    · exact heeds_pure _
    · exact heeds_testsAll looks fun _ => trivial
    · exact heeds_testsAll looks fun _ => trivial
  | infer i => exact (heeds_inferRefuted looks env p i).relayed
  | var v | never => exact heeds_pure _

theorem heeds_refuted (t : Term) : (refuted env p t).Heeds C := by
  unfold refuted
  split
  · exact heeds_holds looks env _ _
  · exact heeds_holds looks env _ _
  · exact heeds_raise _
  · exact heeds_relaysTest looks trivial
  · exact heeds_relaysTest looks trivial
  · exact heeds_violate _

theorem heeds_inferHolds : (inferHolds env i p).Heeds C := by
  refine Heeds.bind (heeds_asksTest looks trivial) fun known => ?_
  cases known with
  | decided b | unknown => exact heeds_pure _
  | bounded b => exact heeds_relaysTest looks trivial

theorem heeds_test {s : Shape} (g : Goal s) (tests : g.Inspects) : (rule s g).Heeds C := by
  cases g with
  | holds env p t => exact heeds_holds looks env p t
  | tyHolds env p t => exact heeds_tyHolds looks env p t
  | permHolds env p q => exact heeds_permHolds looks env p q
  | refuted env p t => exact heeds_refuted looks env p t
  | tyRefuted env p t => exact heeds_tyRefuted looks env p t
  | permRefuted env p q => exact heeds_permRefuted looks env p q
  | placeHolds env p place => exact (heeds_placeTy looks env place).awaited.bind fun _ => heeds_relaysTest looks trivial
  | placeRefuted env p place =>
    exact (heeds_placeTy looks env place).awaited.bind fun _ => heeds_relaysTest looks trivial
  | inferHolds env i p => exact heeds_inferHolds looks env p i
  | fieldTy env owner f => exact heeds_fieldTy looks env owner f
  | lowerBound env i => exact heeds_lowerBound env i
  | evidence env i p => exact heeds_evidence env p i
  | _ => exact tests.elim

end Tests

section Facts

variable {p : Predicate} (looks : C.Looks) (fact : ∀ s i o, C.May s (.fact i p o))
variable (excludes : ∀ s i, C.May s (.exclude i p.opposite))
include looks fact excludes

theorem within_recordFact (env : Env) (o : Obligation) (i : InferIndex) : (recordFact env i p o).Within C.Does := by
  refine (Action.within_inferVar i).andThen fun v => ?_
  have rest : (do
      if !(← Action.addFact i p o) then return none
      if v.kind = .perm then Action.exclude i p.opposite
      return v.lower : Action (Option Bound)).Within C.Does := by
    refine Action.Within.andThen (fun s => Conduct.does_apply (fact s i o)) fun new => ?_
    split
    · exact Action.within_pure _
    · dsimp only
      split
      · exact Action.Within.andThen (fun s => Conduct.does_apply (excludes s i)) fun _ => Action.within_pure _
      · exact Action.within_pure _
  dsimp only
  split
  · exact (Action.within_refuse looks env o rfl).andThen fun _ => rest
  · exact rest

theorem demands_of_facts (calls : ∀ ⦃s⦄ (g : Goal s), g.Demands p → C.Calls g)
    (asks : ∀ ⦃s⦄ (g : Goal s), g.Demands p → C.Asks g) : C.Demands p := by
  refine ⟨looks, calls, asks, fun env i o => ?_⟩
  refine (heeds_perform (within_recordFact looks fact excludes env o i)).bind fun bound => ?_
  cases bound with
  | some b => exact heeds_ask (calls _ rfl)
  | none => exact heeds_pure _

end Facts

section Demands

variable {p : Predicate} (demands : C.Demands p) (env : Env) (o : Obligation)
include demands

theorem heeds_asksDemand {s : Shape} {g : Goal s} (part : g.Demands p) : (ask g).Heeds C :=
  heeds_ask (demands.callsDemand g part)

theorem heeds_relaysDemand {s : Shape} {g : Goal s} (part : g.Demands p) : (relay g).Heeds C :=
  heeds_relay (demands.callsDemand g part)

theorem heeds_demandsBoth {g h : Goal .unit} (first : g.Demands p) (second : h.Demands p) : (each [g, h]).Heeds C :=
  heeds_each_pair (demands.asksDemand g first) (demands.asksDemand h second)

theorem heeds_demandsAll {β : Type} {f : β → Goal .unit} {bs : List β} (part : ∀ b, (f b).Demands p) :
    (each (bs.map f)).Heeds C := heeds_each_map fun b => demands.asksDemand (f b) (part b)

theorem heeds_establishVar (v : Variable) : (establishVar env v p o).Heeds C := by
  unfold establishVar
  split
  · exact heeds_pure _
  · exact heeds_refuse demands.toLooks env o rfl

theorem heeds_check (condition : Bool) : (check env o condition).Heeds C := by
  cases condition with
  | true => exact heeds_pure _
  | false => exact heeds_refuse demands.toLooks env o rfl

theorem heeds_checkSome (args : List Term) : (checkSome env o (args.map (.holds env p))).Heeds C := by
  refine Heeds.bind (C.has_race true false (List.forall_mem_map.mpr fun t _ => ?_)) fun found => ?_
  · exact demands.asks _ trivial
  · split
    · exact heeds_pure _
    · exact heeds_refuse demands.toLooks env o rfl

theorem heeds_establishEither (l r : Term) : (establishEither env p l r o).Heeds C :=
  Heeds.awaited (heeds_demandsBoth demands rfl rfl)

theorem heeds_establishPerm (q : Perm) : (establishPerm env p o q).Heeds C := by
  cases q with
  | error r => exact heeds_raise r
  | my | our | shared ps => exact heeds_check demands env o _
  | leased ps =>
    cases p with
    | copy | move => exact Heeds.relayed (heeds_demandsAll demands fun _ => rfl)
    | owned => exact heeds_refuse demands.toLooks env o rfl
    | lent => exact heeds_pure _
  | apply l r =>
    dsimp only [establishPerm]
    split
    · exact (heeds_establishEither demands env o _ _).relayed
    · exact Heeds.relayed (heeds_demandsBoth demands rfl rfl)
  | var v => exact (heeds_establishVar demands env o v).relayed
  | infer i => exact (demands.establishInfer env i o).relayed

omit demands in
theorem isUnconstrained_namedReason (p : Predicate) (name : TyName) (args : List Term) :
    (namedReason p name args).isUnconstrained = false := by
  cases p <;> cases name <;> rfl

theorem heeds_establishTy (t : Ty) : (establishTy env p o t).Heeds C := by
  cases t with
  | error r => exact heeds_raise r
  | perm q t =>
    dsimp only [establishTy]
    split
    · exact (heeds_establishEither demands env o _ _).relayed
    · exact Heeds.relayed (heeds_demandsBoth demands rfl rfl)
  | named name args =>
    dsimp only [establishTy]
    split
    · exact heeds_pure _
    · exact heeds_refuse demands.toLooks env o (isUnconstrained_namedReason p name args)
    · exact (heeds_checkSome demands env o args).relayed
    · exact Heeds.relayed (heeds_demandsAll demands fun _ => rfl)
  | infer i => exact (demands.establishInfer env i o).relayed
  | var v => exact (heeds_establishVar demands env o v).relayed
  | never =>
    cases p with
    | copy | lent => exact heeds_refuse demands.toLooks env o rfl
    | move | owned => exact heeds_pure _

theorem heeds_establish (t : Term) : (establish env p t o).Heeds C := by
  cases t with
  | error r => exact heeds_raise r
  | ty t | perm q => exact heeds_relaysDemand demands rfl
  | place place => exact heeds_violate _

theorem heeds_require (t : Term) : (require env p t o).Heeds C := by
  refine Heeds.awaited (Heeds.traced demands.toLooks ?_)
  exact heeds_relaysDemand demands rfl

theorem heeds_establishUnless (other t : Term) : (establishUnless env p other t o).Heeds C := by
  refine Heeds.bind (heeds_asksTest demands.toLooks trivial) fun vouched => ?_
  split
  · exact heeds_pure _
  · exact heeds_asksDemand demands rfl

omit demands in
theorem heeds_establishCopyPlace (demands : C.Demands .copy) (place : Place) :
    (establishCopyPlace env place o).Heeds C :=
  (heeds_placeTy demands.toLooks env place).awaited.bind fun _ => heeds_relaysDemand demands rfl

theorem heeds_establishMovePlace (place : Place) : (establishMovePlace env place o).Heeds C := by
  refine (heeds_placeTy demands.toLooks env place).awaited.bind fun t =>
    Heeds.bind (heeds_asksTest demands.toLooks trivial) fun moved => ?_
  split
  · exact heeds_pure _
  · exact heeds_refuse demands.toLooks env o rfl

omit env o in
theorem heeds_demand {s : Shape} (g : Goal s) (part : g.Demands p) : (rule s g).Heeds C := by
  cases g with
  | require env q t o =>
    obtain rfl : q = p := part
    exact heeds_require demands env o t
  | establish env q t o =>
    obtain rfl : q = p := part
    exact heeds_establish demands env o t
  | establishTy env q t o =>
    obtain rfl : q = p := part
    exact heeds_establishTy demands env o t
  | establishPerm env q r o =>
    obtain rfl : q = p := part
    exact heeds_establishPerm demands env o r
  | establishUnless env q other t o =>
    obtain rfl : q = p := part
    exact heeds_establishUnless demands env o other t
  | establishCopyPlace env place o =>
    obtain rfl : p = .copy := part
    exact heeds_establishCopyPlace env o demands place
  | establishMovePlace env place o => exact heeds_establishMovePlace demands env o place
  | _ => exact part.elim

end Demands

section Comparisons

variable (compares : C.Compares) (env : Env) (o : Obligation)
include compares

theorem within_search {α : Type} {a : Action α} {d : Deed} (same : ∀ s, (a.exec s).2 = d.apply s) (part : d.Searches) :
    a.Within C.Does := by
  intro s
  rw [same]
  exact Conduct.does_apply (compares.searches s d part)

section Heads

variable (calls : ∀ g : Goal .unit, g.Compares → C.Calls g)
include calls

theorem heeds_subPermsOfHeads (l u : RedTy) : (subPermsOfHeads env l u o).Heeds C := by
  unfold subPermsOfHeads
  split
  · exact heeds_pure _
  · split
    · refine Heeds.bind (heeds_asksTest compares.toLooks trivial) fun copied => ?_
      split
      · exact heeds_pure _
      · exact heeds_ask (calls _ trivial)
    · exact heeds_ask (calls _ trivial)

omit calls in
theorem heeds_headMismatch (l u : Head) : (headMismatch env l u o).Heeds C := heeds_refuse compares.toLooks env o rfl

theorem heeds_subHeads (l u : Head) : (subHeads env l u o).Heeds C := by
  have arguments (as bs : List Term) :
      (liftM (subArguments env o as bs) >>= fun goals => (each goals).relayed : Prog Unit).Heeds C := by
    cases goals : subArguments env o as bs with
    | error v => exact heeds_throw _
    | ok goals =>
      refine (heeds_each ?_).relayed
      exact forall_subArguments env o (P := @C.Asks .unit) (fun _ _ => compares.asksCheck _ trivial) goals
  unfold subHeads
  split
  · exact heeds_relay (calls _ trivial)
  · exact heeds_relay (calls _ trivial)
  · split
    · exact arguments _ _
    · exact heeds_headMismatch compares env o _ _
  · split
    · exact heeds_pure _
    · exact heeds_headMismatch compares env o _ _
  · exact heeds_headMismatch compares env o _ _

end Heads

theorem heeds_compatibleChains (l u : Perm) : (compatibleChains env l u o).Heeds C := by
  refine (heeds_perform (within_search compares (d := .search 2) (fun _ => rfl) trivial)).bind fun started => ?_
  refine Heeds.bind (C.has_race true false (List.forall_mem_map.mpr fun _ _ => ?_)) fun found => ?_
  · exact compares.asksCheck _ trivial
  · split
    · exact heeds_pure _
    · exact heeds_refuse compares.toLooks env o rfl

theorem within_endBranch (search node : Nat) (answer : Except Failure Bool) :
    (endBranch search node answer).Within C.Does := by
  have releases : (Action.releaseBranch search node).Within C.Does :=
    within_search compares (d := .release search node) (fun _ => rfl) trivial
  cases answer with
  | error e => exact releases.andThen fun _ => Action.within_throw _
  | ok held =>
    have rest := releases.andThen fun _ => Action.within_pure held
    cases held with
    | true => exact (within_search compares (d := .conclude search) (fun _ => rfl) trivial).andThen fun _ => rest
    | false => exact rest

section Branches

variable (search node : Nat) (p : Predicate) (l u : Perm)

theorem heeds_attempt : (attempt env search node p l u o).Heeds C :=
  heeds_call (compares.callsCheck _ trivial) fun answer =>
    C.has_rest 1 (heeds_perform (within_endBranch compares search node answer))

theorem heeds_contend : (contend env search node p l u o).Heeds C := by
  refine (heeds_perform (Action.within_search search)).bind fun found => ?_
  split
  · refine Heeds.bind (Heeds.awaited (heeds_each_pair ?_ ?_)) fun _ => heeds_pure _
    all_goals exact compares.asksCheck _ trivial
  · refine (heeds_perform (within_search compares (d := .speculate) (fun _ => rfl) trivial)).bind fun n => ?_
    refine Heeds.bind (C.has_contest search compares.contests (List.cons_ne_nil _ _) (asks_pair ?_ ?_)) fun answer => ?_
    any_goals exact compares.asks _ trivial
    cases answer with
    | some b => exact heeds_pure _
    | none =>
      refine (heeds_perform (within_search compares (d := .abandon n) (fun _ => rfl) trivial)).bind fun _ => ?_
      exact C.has_call (compares.callsCheck _ trivial)

end Branches

end Comparisons

section Constraints

variable {awaits : Obligation → Prop} {holding : Prop} (checks : C.Checks awaits holding) (env : Env) (o : Obligation)
  (i : InferIndex) (t : Term)
include checks

omit env o in
theorem demands_of_checks (p : Predicate) : C.Demands p :=
  demands_of_facts checks.looks (fun _ _ _ => checks.may _ _ trivial) (fun _ _ => checks.may _ _ trivial)
    (fun _ g part => checks.calls g part.usual) fun _ g part => checks.asks g part.usual

theorem heeds_asks {s : Shape} {g : Goal s} (usual : g.Usual awaits holding) : (ask g).Heeds C :=
  heeds_ask (checks.calls g usual)

theorem heeds_relays {s : Shape} {g : Goal s} (usual : g.Usual awaits holding) : (relay g).Heeds C :=
  heeds_relay (checks.calls g usual)

theorem heeds_eachOf {g h : Goal .unit} (first : g.Usual awaits holding) (second : h.Usual awaits holding) :
    (each [g, h]).Heeds C :=
  heeds_each_pair (checks.asks g first) (checks.asks h second)

theorem heeds_rejects {α : Type} {because : Because} (other : because.isUnconstrained = false) :
    (refuse env o because : Prog α).Heeds C := heeds_refuse checks.looks env o other

theorem heeds_checkFacts : (checkFacts env i).Heeds C := by
  refine (heeds_inferVar i).bind fun v => ?_
  split
  · exact heeds_pure _
  · exact heeds_each_map fun _ => checks.asks _ trivial

theorem within_checkHome : (checkHome env i t o).Within C.Does := by
  refine (Action.within_inferVar i).andThen fun v => ?_
  refine Action.Within.forM Relation.ReflTransGen.trans (fun _ => .refl) (fun w => ?_) _
  refine (Action.within_universeOf w).andThen fun u => ?_
  split
  · exact Action.within_pure _
  · exact Action.within_refuse checks.looks env o rfl

theorem within_recordLower : (recordLower env i t o).Within C.Does := by
  refine (Action.within_inferVar i).andThen fun v => ?_
  split
  · exact Action.within_pure _
  · refine (within_checkHome checks env o i t).andThen fun _ => ?_
    exact (Action.within_deed checks (d := .lower i ⟨t, o⟩) (fun _ => rfl) fun _ => trivial).andThen fun _ =>
      Action.within_pure _

theorem within_recordUpper : (recordUpper env i t o).Within C.Does := by
  -- the bound is recorded in the session that was checked
  intro s
  rw [recordUpper, Action.exec_bind, Action.exec_inferVar]
  cases found : s.inferVars[i]? with
  | none => exact .refl
  | some v =>
    have checked := within_checkHome checks env o i t s
    simp only [Option.elim, Action.exec_bind]
    rcases checkHome_spec env o t found with ⟨passed, seen⟩ | ⟨r, s', failed, _⟩
    · have sees : s.Sees i t := fun w known => by
        cases found.symm.trans known
        exact seen
      have records : C.Does s ((Action.addUpperBound i ⟨t, o⟩).exec s).2 :=
        Conduct.does_apply (d := .upper i ⟨t, o⟩) (checks.may s _ sees)
      rw [passed]
      dsimp only
      split
      · rename_i new s' added
        rw [added] at records
        split <;> exact records
      · rename_i e s' failed
        rw [failed] at records
        exact records
    · rw [failed] at checked ⊢
      exact checked

omit env o in
theorem within_recordEdge (i j : InferIndex) : (recordEdge i j).Within C.Does := by
  unfold recordEdge
  split
  · exact Action.within_pure _
  · refine (Action.within_deed checks (d := .edge i j) (fun _ => rfl) fun _ => trivial).andThen fun new => ?_
    split
    · exact Action.within_pure _
    · exact (Action.within_inferVar i).andThen fun _ => (Action.within_inferVar j).andThen fun _ =>
        Action.within_pure _

theorem heeds_addLowerBound : (addLowerBound env i t o).Heeds C := by
  refine (heeds_perform (within_recordLower checks env o i t)).bind fun found => ?_
  cases found with
  | inl b => exact heeds_relays checks trivial
  | inr uppers =>
    refine heeds_eachGroup ?_
    simp only [List.forall_mem_cons, List.forall_mem_map]
    refine ⟨fun _ _ _ => checks.asks _ trivial, ?_, fun _ => ⟨checks.asks _ trivial, by simp⟩, by simp⟩
    exact forall_passToSuccessors env i t o (P := @C.Asks .unit) fun _ => checks.asks _ trivial

theorem heeds_addUpperBound : (addUpperBound env i t o).Heeds C := by
  have passes := forall_passToPredecessors env i t o (P := @C.Asks .unit) fun _ => checks.asks _ trivial
  refine (heeds_perform (within_recordUpper checks env o i t)).bind fun found => ?_
  split
  · exact heeds_pure _
  · exact heeds_get.bind fun s => heeds_eachBesides (passes s)
  · refine heeds_eachGroup ?_
    simp only [List.forall_mem_cons]
    exact ⟨fun _ => ⟨checks.asks _ trivial, by simp⟩, passes, by simp⟩

theorem heeds_relate (i j : InferIndex) : (relate env i j o).Heeds C := by
  refine (heeds_perform (within_recordEdge checks i j)).bind fun found => ?_
  split
  · exact heeds_pure _
  · refine heeds_eachBesides ?_
    simp only [List.forall_mem_append, List.forall_mem_map]
    exact ⟨fun _ _ => checks.asks _ trivial, fun _ _ => checks.asks _ trivial⟩

theorem heeds_subTerms (l u : Term) : (subTerms env l u o).Heeds C := by
  unfold subTerms
  split
  · exact heeds_raise _
  · exact heeds_raise _
  · exact heeds_relays checks trivial
  · exact heeds_relays checks trivial
  · split
    · exact heeds_pure _
    · exact heeds_rejects checks env o rfl
  · exact heeds_violate _

omit o in
theorem heeds_withoutCopyPerm (red : RedTy) : (withoutCopyPerm env red).Heeds C := by
  unfold withoutCopyPerm
  dsimp only
  split
  · exact heeds_pure _
  · refine Heeds.bind (heeds_asks checks trivial) fun copied => ?_
    split
    · exact (heeds_log checks.looks _ _ _).bind fun _ => heeds_pure _
    · exact heeds_pure _

theorem heeds_subReduced (t u : Ty) (l r : RedTy) : (subReduced env t u l r o).Heeds C := by
  unfold subReduced
  split
  · exact (heeds_relate checks env o _ _).relayed
  · exact heeds_relays checks trivial
  · exact heeds_relays checks trivial
  · exact Heeds.awaited (heeds_eachOf checks trivial trivial)

theorem heeds_subApart (t u : Ty) : (subApart env t u o).Heeds C := by
  unfold subApart
  split
  · exact heeds_raise _
  · exact heeds_raise _
  · exact heeds_pure _
  · exact (heeds_withoutCopyPerm checks env _).awaited.bind fun _ =>
      (heeds_withoutCopyPerm checks env _).awaited.bind fun _ => heeds_subReduced checks env o t u _ _

theorem heeds_subTys (t u : Ty) : (subTys env t u o).Heeds C := by
  unfold subTys
  split
  · exact heeds_pure _
  · exact (Heeds.traced checks.looks (heeds_subApart checks env.fork o t u)).awaited

theorem heeds_subChains (l u : Chain) : (subChains env l u o).Heeds C := by
  unfold subChains
  split
  · exact (heeds_relate checks env o _ _).relayed
  · exact heeds_relays checks trivial
  · exact heeds_relays checks trivial
  · split
    · exact (heeds_compatibleChains checks.compares env o _ _).relayed
    · split
      · exact heeds_pure _
      · exact heeds_rejects checks env o rfl

omit checks env o in
theorem heeds_chainOf (q : Perm) : (chainOf q).Heeds C := by
  unfold chainOf
  split
  · exact heeds_pure _
  · exact heeds_raise _

theorem heeds_subPerms (l u : Perm) : (subPerms env l u o).Heeds C := by
  unfold subPerms
  split
  · exact heeds_pure _
  · exact (heeds_chainOf l).bind fun _ => (heeds_chainOf u).bind fun _ => heeds_subChains checks env o _ _

theorem heeds_equalTys (t u : Ty) : (equalTys env t u o).Heeds C := Heeds.awaited (heeds_eachOf checks trivial trivial)

theorem heeds_postNumeric (t : Ty) : (postNumeric env t o).Heeds C := heeds_post env _ (checks.postsNumeric _ _ _)

theorem heeds_postAssignable (t u : Ty) : (postAssignable env t u o).Heeds C :=
  heeds_post env _ (checks.posts _ trivial)

theorem heeds_postEqualTys (t u : Ty) : (postEqualTys env t u o).Heeds C := heeds_post env _ (checks.posts _ trivial)

theorem heeds_postFuture {o : Obligation} (t awaited : Ty) (owns : awaits o) : (postFuture env t awaited o).Heeds C :=
  heeds_post env _ (checks.posts _ owns)

theorem heeds_postWhereClause (p : Predicate) (t : Term) : (postWhereClause env p t o).Heeds C :=
  heeds_post env _ (checks.posts _ trivial)

omit o in
theorem heeds_postOperands (opSpan : Span) (left right : Core.Expr) : (postOperands env opSpan left right).Heeds C := by
  refine (heeds_postNumeric checks env _ _).bind fun _ => (heeds_postNumeric checks env _ _).bind fun _ => ?_
  split
  · exact heeds_pure _
  · exact heeds_post env _ (checks.posts _ trivial)

omit checks in
theorem heeds_onLowerBound (looks : C.Looks) (i : InferIndex) {next : Ty → Obligation → Prog Unit}
    (refuses : ∀ s span, C.May s (.report (o.failure (.unconstrainedInfer span))))
    (goes_on : ∀ t origin, (next t (o.becauseOfLowerBound (.ty t) origin)).Heeds C) :
    (onLowerBound env i o next).Heeds C := by
  refine Heeds.bind (heeds_asksTest looks trivial) fun bound => ?_
  split
  · refine (heeds_inferVar i).bind fun v => heeds_perform ?_
    refine ((Action.within_log looks _ _ _).andThen fun _ => ?_).andThen fun _ => Action.within_throw _
    exact fun s => Conduct.does_apply (refuses s v.span)
  · exact goes_on _ _
  · exact heeds_violate _

theorem heeds_futureHead (t awaited : Ty) (owns : awaits o) : (futureHead env t awaited o).Heeds C := by
  unfold futureHead
  split
  · exact heeds_raise _
  · exact (heeds_lift _).bind fun _ => heeds_relays checks trivial
  · exact heeds_violate _
  · exact heeds_rejects checks env o rfl
  · exact heeds_rejects checks env o rfl
  · exact heeds_rejects checks env o rfl
  · exact heeds_onLowerBound env o checks.looks _ (checks.refuses owns) fun t origin =>
      heeds_relays checks (checks.because _ origin owns)

omit checks in
theorem heeds_numeric (looks : C.Looks) (t : Ty) (fallback : ∀ s i, C.May s (.fallback i (.numeric env o)))
    (refuses : ∀ s span, C.May s (.report (o.failure (.unconstrainedInfer span))))
    (again : ∀ t origin, C.Calls (.numeric env t (o.becauseOfLowerBound (.ty t) origin))) :
    (numeric env t o).Heeds C := by
  unfold numeric
  split
  · exact heeds_raise _
  · exact heeds_pure _
  · exact heeds_refuse looks env o rfl
  · split
    · exact heeds_pure _
    · exact heeds_refuse looks env o rfl
  · exact heeds_refuse looks env o rfl
  · exact (heeds_perform fun s => Conduct.does_apply (fallback s _)).bind fun _ =>
      heeds_onLowerBound env o looks _ refuses fun t origin => heeds_relay (again t origin)

end Constraints

end Rules

end Ownership
