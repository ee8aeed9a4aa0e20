import Ownership.Proofs.ConductExpressions
import Ownership.Proofs.Custody

namespace Ownership

def Goal.Light {s : Shape} : Goal s → Prop
  | .body .. => False
  | .argument .. => False
  | .member .. => False
  | _ => True

def Custody.Lenient (K : Custody) : Prop := ∀ ⦃s : Shape⦄ (g : Goal s), g.Light → K.Takes g 0

namespace Prog

variable {α β : Type} {p : Prog α} {K : Custody} {O : Multiset Nat}

def Idle (p : Prog α) : Prop := ∀ K : Custody, K.Lenient → p.Tracks K (fun _ _ => True) 0

theorem Idle.tracks (idle : p.Idle) (lenient : K.Lenient) : p.Tracks K (fun _ _ => True) O :=
  (idle K lenient).mono (Multiset.zero_le O)

theorem Idle.andThen_tracks {f : Except Failure α → Prog β} {R : β → Multiset Nat → Prop} (idle : p.Idle)
    (lenient : K.Lenient) (next : ∀ r, (f r).Tracks K R O) : (p.andThen f).Tracks K R O := by
  have := (idle K lenient).andThen (F := O) (R := R) (f := f)
    (fun a G _ => (next (.ok a)).mono (Multiset.le_add_left O G))
    fun e G => (next (.error e)).mono (Multiset.le_add_left O G)
  rwa [zero_add] at this

theorem Idle.bind_tracks {f : α → Prog β} {R : β → Multiset Nat → Prop} (idle : p.Idle)
    (lenient : K.Lenient) (next : ∀ a, (f a).Tracks K R O) : (p >>= f).Tracks K R O := by
  refine idle.andThen_tracks lenient fun r => ?_
  cases r with
  | ok a => exact next a
  | error e => trivial

theorem idle_done (r : Except Failure α) : (done r).Idle := by
  intro K _
  cases r with
  | ok a => exact ⟨0, le_rfl, trivial⟩
  | error e => trivial

theorem idle_pure (a : α) : (pure a : Prog α).Idle := idle_done (.ok a)

theorem Idle.bind {f : α → Prog β} (first : p.Idle) (next : ∀ a, (f a).Idle) : (p >>= f).Idle :=
  fun _ lenient => first.bind_tracks lenient fun a => (next a).tracks lenient

theorem Idle.forM {f : β → Prog Unit} (each : ∀ b, (f b).Idle) (bs : List β) : (bs.forM f).Idle := by
  induction bs with
  | nil => exact idle_pure _
  | cons b bs ih => exact (each b).bind fun _ => ih

theorem idle_perform {a : Action α} (steady : a.Steady) : (perform a).Idle := by
  intro K _ s safe _ _
  obtain ⟨numbers, outcome⟩ := steady s
  refine ⟨numbers.ge, fun e kept => safe e (outcome.symm.trans kept), ?_⟩
  exact (idle_done _).tracks ‹_›

theorem idle_log (depth : Nat) (message : String) (values : List String) :
    (perform (Action.log depth message values)).Idle :=
  idle_perform (Action.steady_log depth message values)

theorem idle_report (env : Env) (d : Diagnostic) : (perform (Action.report env d)).Idle :=
  idle_perform (Action.steady_report env d)

end Prog

def Conduct.idle : Conduct where
  May
    | _, .name .. => False
    | _, .keep _ => False
    | _, _ => True
  Calls _ g := g.Light
  Asks _ g := g.Light
  Posts g := g.Light
  Contests := True

theorem Goal.Usual.light {s : Shape} {g : Goal s} {awaits : Obligation → Prop} (usual : g.Usual awaits False) :
    g.Light := by
  cases g <;> trivial

theorem Deed.steady {d : Deed} {s : Session} (may : Conduct.idle.May s d) : s.Steady (d.apply s) := by
  cases d with
  | log depth message values => exact Action.steady_log depth message values s
  | report d | assign v t | conclude i | speculate | abandon n => exact ⟨rfl, rfl⟩
  | fresh env kind span =>
    let v : InferVar := { kind, span, home := env.home }
    exact Action.steady_log _ _ _ { s with inferVars := s.inferVars ++ [v] }
  | lower i b => exact Change.steady (.lower i b) s
  | upper i b => exact Change.steady (.upper i b) s
  | edge i j => exact Change.steady (.edge i j) s
  | fact i p o => exact Change.steady (.fact i p o) s
  | exclude i p => exact Change.steady (.exclusion i p) s
  | fallback i d =>
    refine (Action.steady_inferVar i).bind (fun v => ?_) s
    split
    · exact fun _ => ⟨rfl, rfl⟩
    · exact .refl
  | name kind text span | keep e => exact may.elim
  | search branches =>
    simp only [apply, Action.startSearch]
    cases Search.start.spawn 0 branches <;> exact ⟨rfl, rfl⟩
  | release i node =>
    rw [apply, Action.session_releaseBranch]
    cases (s.searches[i]?.getD .start).release node <;> exact ⟨rfl, rfl⟩

theorem Conduct.Does.steady {s s' : Session} (does : Conduct.idle.Does s s') : s.Steady s' :=
  does.within .refl .trans fun _ _ => Deed.steady

theorem Action.Within.steady {α : Type} {a : Action α} (within : a.Within Conduct.idle.Does) : a.Steady :=
  fun s => (within s).steady

namespace Manner

def idle : Manner where
  toConduct := .idle
  Has p := p.Idle
  has_done := Prog.idle_done
  has_andThen first next _ lenient := first.andThen_tracks lenient fun r => next r _ lenient
  has_rest _ h := h
  has_mark h K lenient n := h n K lenient
  has_perform within := Prog.idle_perform within.steady
  has_wait h K lenient := (Prog.idle_perform (Action.steady_inferVar _)).bind_tracks lenient fun v => by
    rcases h v with idle | ⟨_, _, k, parks, idle⟩
    · exact idle K lenient
    · rw [parks]
      exact fun wake => idle wake K lenient
  has_call light _ lenient := ⟨0, 0, le_rfl, lenient _ light, fun v _ _ => (Prog.idle_done _).tracks lenient,
    fun e _ => (Prog.idle_done _).tracks lenient⟩
  has_race _ _ light _ lenient := ⟨fun g member => lenient g (light g member), fun r => Prog.idle_done r _ lenient⟩
  has_gather {s groups} light K lenient := by
    have ends (r : Except Failure (List s.Value)) (G : Multiset Nat) : (Prog.done r).Tracks K (fun _ _ => True) G :=
      (Prog.idle_done r).tracks lenient
    have gathers (asked : List (Goal s)) :
        K.Gathers (fun r => (Prog.done r).Tracks K fun _ _ => True) groups asked 0 := by
      induction groups generalizing asked with
      | nil => exact ⟨fun _ _ _ => ends _ _, fun _ _ => ends _ _⟩
      | cons group groups ih =>
        refine fun s => ⟨0, 0, le_rfl, ?_, ih (fun g member => light g (List.mem_cons_of_mem _ member)) _⟩
        exact .of_forall fun g member => lenient g (light group List.mem_cons_self s g member)
    exact gathers []
  has_contest _ _ _ light _ lenient := ⟨fun g member => lenient g (light g member), fun r => Prog.idle_done r _ lenient⟩
  has_spawn _ light _ lenient := ⟨lenient _ light, Prog.idle_done _ _ lenient⟩

theorem checks_idle : idle.Checks (fun _ => True) False where
  may s d usual := by
    cases d with
    | name kind text span | keep e => exact usual
    | _ => trivial
  calls _ _ := Goal.Usual.light
  asks _ _ := Goal.Usual.light
  posts _ := Goal.Usual.light
  postsNumeric _ _ _ := trivial
  contests := trivial
  awaitable _ _ _ := trivial
  because _ _ := id
  refuses _ _ _ := trivial

end Manner

theorem Prog.Idle.awaited {α : Type} {p : Prog α} (first : p.Idle) : p.awaited.Idle := Heeds.awaited (C := .idle) first

theorem Prog.idle_ask {s : Shape} {g : Goal s} (light : g.Light) : (ask g).Idle := heeds_ask (C := .idle) light

namespace Rules

open Manner (checks_idle)

variable (env : Env) (o : Obligation)

theorem idle_postAssignable (t u : Ty) : (postAssignable env t u o).Idle :=
  heeds_postAssignable checks_idle env o t u

theorem idle_postNumeric (t : Ty) : (postNumeric env t o).Idle := heeds_postNumeric checks_idle env o t

theorem idle_postFuture (t awaited : Ty) : (postFuture env t awaited o).Idle :=
  heeds_postFuture checks_idle env t awaited trivial

theorem idle_postWhereClause (p : Predicate) (t : Term) : (postWhereClause env p t o).Idle :=
  heeds_postWhereClause checks_idle env o p t

theorem idle_postBoolean (e : Core.Expr) : (postBoolean env e).Idle := heeds_postBoolean checks_idle env e

theorem idle_postOperands (opSpan : Span) (left right : Core.Expr) : (postOperands env opSpan left right).Idle :=
  heeds_postOperands checks_idle env opSpan left right

theorem steady_freshTy (span : Span) : (Action.freshTy env span).Steady :=
  (Action.within_freshTy checks_idle env span).steady

theorem steady_resolveName (name : String) (span : Span) : (resolveName env name span).Steady :=
  (within_resolveName checks_idle.looks env name span).steady

theorem steady_resolveRelative (r : Resolution) (name : String) (span : Span) :
    (resolveRelative env r name span).Steady := (within_resolveRelative checks_idle.looks env r name span).steady

theorem steady_genericTarget (span : Span) (r : Resolution) : (genericTarget env span r).Steady :=
  (within_genericTarget checks_idle env span r).steady

theorem idle_explicitGenerics (pointed : Source.Generic → Span) (vs : List Variable) (gs : List Source.Generic) :
    (explicitGenerics env pointed vs gs).Idle := heeds_explicitGenerics checks_idle.looks env pointed vs gs

theorem idle_methodSubstitution (idSpan : Span) (f : Function) (s : Signature)
    (written : Option (List Source.Generic)) : (methodSubstitution env idSpan f s written).Idle :=
  heeds_methodSubstitution checks_idle env idSpan f s written

theorem idle_signatureOrCheckArgs (f : Function) (args : List Source.Expr) (written : List Source.Generic) :
    (signatureOrCheckArgs env f args written).Idle := heeds_signatureOrCheckArgs checks_idle env f args written

theorem idle_letTy (name : Name) (declared : Option Source.Ty) : (letTy env name declared).Idle :=
  heeds_letTy checks_idle env name declared

/-- Every rule for a goal that asks for no finding and checks no body is idle. -/
theorem idle_rule {s : Shape} (g : Goal s) (plain : s ≠ .finding) (light : g.Light) : (rule s g).Idle := by
  cases g with
  | numeric env t o =>
    exact heeds_numeric env o checks_idle.looks t (fun _ _ => trivial) (fun _ _ => trivial) fun _ _ => trivial
  | body env e expected | argument env a v inputTy | member env owner ownerTy t name span => exact light.elim
  | _ =>
    refine heeds_rule_plain (C := .idle) checks_idle _ ?_ plain
    trivial

end Rules

end Ownership
