import Ownership.Proofs.Regime
import Ownership.Proofs.Schedules

namespace Ownership

/-- What a variable of a kind stands for, before its own inference variables are resolved. -/
def InferVar.stance (v : InferVar) : Kind → Option Term
  | .type => (v.lower.orElse fun _ => v.uppers.head?).map Bound.term
  | .perm => v.lower.map Bound.term
  | .place => none

def Failure.OfResolution : Failure → Prop
  | .violated (.expected _ _) => True
  | .violated (.unknownInferVar _) => True
  | _ => False

namespace Resolving

structure Trail (L : Lexicon) (vars : List InferVar) (state : ResolutionState) (s : Session) : Prop where
  inferVars : s.inferVars = vars
  resolved : ∀ entry ∈ state.resolved, ∀ k, L.infer k entry.1 → entry.2.Fills L

variable {L : Lexicon} {vars : List InferVar} {α β : Type} {P : α → Prop} {Q : β → Prop}

def Stays (L : Lexicon) (vars : List InferVar) (P : α → Prop) (a : Resolving α) : Prop :=
  ∀ state s, Trail L vars state s →
    EndsIn (fun found => Trail L vars found.2 ((a.run state).exec s).2 ∧ P found.1) Failure.OfResolution
      ((a.run state).exec s).1

theorem stays_pure {x : α} (h : P x) : (pure x : Resolving α).Stays L vars P := fun _ _ trail => ⟨trail, h⟩

theorem Stays.bind {a : Resolving α} {f : α → Resolving β} (first : a.Stays L vars P)
    (next : ∀ x, P x → (f x).Stays L vars Q) : (a >>= f).Stays L vars Q := by
  intro state s trail
  have ends := first state s trail
  rw [StateT.run_bind, Action.exec_bind]
  rcases outcome : (a.run state).exec s with ⟨_ | found, s'⟩
  · rw [outcome] at ends
    exact ends
  · rw [outcome] at ends
    exact next found.1 ends.2 found.2 s' ends.1

theorem Stays.imp {P' : α → Prop} {a : Resolving α} (h : a.Stays L vars P) (imp : ∀ x, P x → P' x) :
    a.Stays L vars P' := fun state s trail => (h state s trail).imp fun _ found => ⟨found.1, imp _ found.2⟩

theorem Stays.some {a : Resolving α} (h : a.Stays L vars P) :
    (some <$> a).Stays L vars fun found => ∀ x, found = some x → P x := by
  rw [map_eq_pure_bind]
  refine h.bind fun x given => stays_pure fun _ same => ?_
  cases same
  exact given

theorem stays_get : (get : Resolving ResolutionState).Stays L vars
    (fun state => ∀ entry ∈ state.resolved, ∀ k, L.infer k entry.1 → entry.2.Fills L) :=
  fun _ _ trail => ⟨trail, trail.resolved⟩

theorem stays_set {state : ResolutionState} (h : ∀ entry ∈ state.resolved, ∀ k, L.infer k entry.1 → entry.2.Fills L) :
    (set state : Resolving PUnit).Stays L vars fun _ => True :=
  fun _ _ trail => ⟨⟨trail.inferVars, h⟩, trivial⟩

theorem stays_modify {f : ResolutionState → ResolutionState}
    (h : ∀ state, (∀ entry ∈ state.resolved, ∀ k, L.infer k entry.1 → entry.2.Fills L) →
      ∀ entry ∈ (f state).resolved, ∀ k, L.infer k entry.1 → entry.2.Fills L) :
    (modify f : Resolving PUnit).Stays L vars fun _ => True :=
  fun state _ trail => ⟨⟨trail.inferVars, h state trail.resolved⟩, trivial⟩

theorem stays_lift {a : Action α} (h : ∀ s, s.inferVars = vars →
    (a.exec s).2.inferVars = vars ∧ EndsIn P Failure.OfResolution (a.exec s).1) :
    (liftM a : Resolving α).Stays L vars P := by
  intro state s trail
  obtain ⟨same, ends⟩ := h s trail.inferVars
  have exec : ((liftM a : Resolving α).run state).exec s = ((a.exec s).1.map (·, state), (a.exec s).2) := by
    change ((a >>= fun x => pure (x, state)) : Action (α × ResolutionState)).exec s = _
    rw [Action.exec_bind]
    rcases a.exec s with ⟨_ | _, s'⟩ <;> rfl
  rw [exec]
  generalize a.exec s = outcome at same ends
  obtain ⟨_ | x, s'⟩ := outcome
  · exact ends
  · exact ⟨⟨same, trail.resolved⟩, ends⟩

theorem stays_expected {x : Except Violation α} (h : EndsIn P Violation.IsMisfit x) :
    (liftM x : Resolving α).Stays L vars P := by
  intro state s trail
  cases x with
  | ok a => exact ⟨trail, h⟩
  | error v =>
    cases v with
    | expected wanted found => trivial
    | _ => exact h.elim

end Resolving

def Judgment.stays (L : Lexicon) (vars : List InferVar) : Judgment Resolving where
  Ends x P := x.Stays L vars P
  ends_pure := Resolving.stays_pure
  ends_bind := Resolving.Stays.bind

structure Replacement.Stays (L : Lexicon) (vars : List InferVar) (r : Replacement Resolving) : Prop where
  shown : L.shown = L.var
  var : ∀ v, r.var v = pure none
  infer : ∀ k i, (r.infer k i).Stays L vars fun found => ∀ t, found = some t → L.infer k i → t.Fills L

open Resolving

section Replacing

variable {L : Lexicon} {vars : List InferVar} {r : Replacement Resolving} (stays : r.Stays L vars)
include stays

theorem Replacement.Stays.filled {α : Type} {P : α → Prop} {k : Kind} {i : InferIndex} {x : α}
    {f : Term → Except Violation α} (itself : L.infer k i → P x)
    (becomes : ∀ t, EndsIn (fun a => t.Fills L → P a) Violation.IsMisfit (f t)) :
    (do match ← r.infer k i with
      | none => pure x
      | some t => liftM (f t) : Resolving α).Stays L vars fun a => L.infer k i → P a := by
  refine (stays.infer k i).bind fun found fills => ?_
  cases found with
  | none => exact stays_pure itself
  | some t => exact stays_expected ((becomes t).imp fun _ given known => given (fills t rfl known))

theorem Replacement.Stays.relates : r.Relates (.stays L vars) .all (.keeping L L id) where
  shown _ := id
  placeVar v _ := by
    rw [Place.replace, stays.var]
    exact stays_pure ⟨id, id⟩
  permVar v _ := by
    rw [Perm.replace, stays.var]
    exact stays_pure id
  tyVar v _ := by
    rw [Ty.replace, stays.var]
    exact stays_pure id
  placeInfer i _ := by
    refine (stays.filled (P := Place.In L) id fun t => ?_).imp fun q keeps => ⟨keeps, ?_⟩
    · cases t with
      | place p => exact id
      | error e => exact fun _ => trivial
      | _ => trivial
    · rwa [Lexicon.sharing_eq stays.shown]
  permInfer i _ := by
    refine stays.filled (P := Perm.In L) id fun t => ?_
    cases t with
    | perm p => exact id
    | error e => exact fun _ => trivial
    | _ => trivial
  tyInfer i _ := by
    refine stays.filled (P := Ty.In L) id fun t => ?_
    cases t with
    | ty t => exact id
    | error e => exact fun _ => trivial
    | _ => trivial

theorem Perm.stays_replace (p : Perm) : (p.replace r).Stays L vars fun p' => p.In L → p'.In L :=
  p.ends_replace stays.relates p.in_all

theorem Ty.stays_replace (t : Ty) : (t.replace r).Stays L vars fun t' => t.In L → t'.In L :=
  t.ends_replace stays.relates t.in_all

end Replacing

namespace Resolving

variable {L : Lexicon} {vars : List InferVar} {env : Env}

theorem stays_report (d : Diagnostic) :
    (liftM (Action.report env d) : Resolving Report).Stays L vars fun _ => True := by
  refine stays_lift fun s same => ?_
  refine ⟨(Action.neutral_report env d s).inferVars.trans same, ?_⟩
  obtain ⟨r, s', exec⟩ := Action.exec_report env d s
  rw [exec]
  trivial

theorem stays_inferVar (i : InferIndex) :
    (liftM (Action.inferVar i) : Resolving InferVar).Stays L vars fun v => vars[i]? = some v := by
  refine stays_lift fun s same => ?_
  rw [Action.exec_inferVar, ← same]
  refine ⟨rfl, ?_⟩
  cases found : s.inferVars[i]? with
  | none => trivial
  | some v => rfl

section Standing

variable {r : Replacement Resolving} (stays : r.Stays L vars) {v : InferVar} {C : Prop}
include stays

theorem stays_tyVar (env : Env) (stands : ∀ t, v.stance .type = some t → C → t.In L) :
    (tyVar env v r).Stays L vars fun t => C → t.Fills L := by
  unfold tyVar
  split
  · rename_i t o found
    have known : C → t.In L := stands (.ty t) (by simp only [InferVar.stance, found, Option.map_some])
    exact (t.stays_replace stays).bind fun _ keeps => stays_pure fun given => keeps (known given)
  · exact (stays_report _).bind fun _ _ => stays_pure fun _ => trivial

theorem stays_permVar (stands : ∀ t, v.stance .perm = some t → C → t.In L) :
    (permVar v r).Stays L vars fun t => C → t.Fills L := by
  unfold permVar
  split
  · rename_i p o found
    have known : C → p.In L := stands (.perm p) (by simp only [InferVar.stance, found, Option.map_some])
    exact (p.stays_replace stays).bind fun _ keeps => stays_pure fun given => keeps (known given)
  · refine stays_pure fun _ => ?_
    split <;> trivial

end Standing

structure Grounded (L : Lexicon) (vars : List InferVar) : Prop where
  shown : L.shown = L.var
  uniform : ∀ k k' i, L.infer k i → L.infer k' i
  stands : ∀ k i v, vars[i]? = some v → ∀ t, v.stance k = some t → L.infer k i → t.In L

variable (grounded : Grounded L vars)
include grounded

/-- What is found for a variable may be remembered. Another kind may find the entry later, so the lexicon
must not go by kinds. -/
theorem stays_noted {k : Kind} {i : InferIndex} {a : Resolving (Option Term)}
    {note : Option Term → ResolutionState → ResolutionState}
    (keeps : a.Stays L vars fun found => ∀ t, found = some t → L.infer k i → t.Fills L)
    (unfound : ∀ state, (note none state).resolved = state.resolved)
    (noted : ∀ t state, (note (some t) state).resolved = (i, t) :: state.resolved) :
    (do
      let found ← a
      modify (note found)
      return found : Resolving (Option Term)).Stays L vars
      fun found => ∀ t, found = some t → L.infer k i → t.Fills L := by
  refine keeps.bind fun found fills => ?_
  refine (stays_modify fun state known entry member => ?_).bind fun _ _ => stays_pure fills
  cases found with
  | none =>
    rw [unfound] at member
    exact known entry member
  | some t =>
    rw [noted] at member
    rcases List.mem_cons.mp member with rfl | old
    · exact fun k' fits => fills t rfl (grounded.uniform k' k i fits)
    · exact known entry old

theorem stays_infer (fuel : Nat) (k : Kind) (i : InferIndex) :
    (infer env fuel k i).Stays L vars fun found => ∀ t, found = some t → L.infer k i → t.Fills L := by
  have unresolved {C : Prop} (t : Term) (some_ : none = some t) (_ : C) : t.Fills L := by cases some_
  induction fuel generalizing k i with
  | zero => exact stays_pure unresolved
  | succ fuel ih =>
    have stays : Replacement.Stays L vars { var := fun _ => pure none, infer := infer env fuel } :=
      ⟨grounded.shown, fun _ => rfl, ih⟩
    rw [infer]
    refine stays_get.bind fun state known => ?_
    split
    · rename_i t found
      obtain ⟨_, _, split, _⟩ := List.lookup_eq_some_iff.mp found
      refine stays_pure fun _ same => ?_
      cases same
      exact known (i, t) (by simp [split]) k
    · split
      · exact stays_pure unresolved
      · have enters : (set { state with inProgress := i :: state.inProgress } : Resolving PUnit).Stays L vars
            fun _ => True := stays_set known
        refine enters.bind fun _ _ => ?_
        refine (stays_inferVar i).bind fun v found => ?_
        cases k with
        | type =>
          have keeps := (stays_tyVar stays env (grounded.stands .type i v found)).some
          exact stays_noted grounded keeps (fun _ => rfl) fun _ _ => rfl
        | perm =>
          have keeps := (stays_permVar stays (grounded.stands .perm i v found)).some
          exact stays_noted grounded keeps (fun _ => rfl) fun _ _ => rfl
        | place => exact stays_noted grounded (stays_pure unresolved) (fun _ => rfl) fun _ _ => rfl

theorem stays_replacement (env : Env) (count : Nat) : (replacement env count).Stays L vars :=
  ⟨grounded.shown, fun _ => rfl, stays_infer grounded (count + 1)⟩

end Resolving

namespace Core

/-- What of a tree does not depend on its types. -/
structure View where
  binders : List Variable
  Scoped : Set Variable → Prop
  effects : List Effect
  isWhole : Bool

namespace View

def beside (v w : View) : View :=
  ⟨v.binders ++ w.binders, fun visible => v.Scoped visible ∧ w.Scoped visible, v.effects ++ w.effects,
    v.isWhole && w.isWhole⟩

def under (x : Variable) (v : View) : View := { v with
  binders := x :: v.binders
  Scoped := fun visible => v.Scoped (insert x visible) }

def andThen (e : Effect) (v : View) : View := { v with effects := v.effects ++ [e] }

def declare (x : Variable) (v : View) : View := { v.under x with
  effects := .plain .bind x.span :: v.effects }

def letIn (x : Variable) (span : Span) (v w : View) : View := { v.beside (w.under x) with
  binders := x :: (v.binders ++ w.binders)
  effects := v.effects ++ (if v.isWhole then [.plain .bind span] else []) ++ w.effects }

def arm (span : Span) (condition body more : View) : View := { (condition.beside body).beside more with
  effects := condition.effects ++ guarded span true body.effects ++ guarded span false more.effects }

end View

def PlaceExpr.view (p : PlaceExpr) : View := ⟨[], (p.ScopedIn ·), [], p.isWhole⟩

def Expr.view (e : Expr) : View := ⟨e.binders, (e.ScopedIn ·), e.effects, e.isWhole⟩

def Node.view (span : Span) (n : Node) : View := ⟨n.binders, (n.ScopedIn ·), n.effects span, n.isWhole⟩

def Expr.viewAll (es : List Expr) : View :=
  ⟨Expr.allBinders es, (Expr.AllScopedIn · es), Expr.allEffects es, Expr.allWhole es⟩

def Arm.viewAll (span : Span) (as : List Arm) : View :=
  ⟨Arm.allBinders as, (Arm.AllScopedIn · as), Arm.allEffects span as, Arm.allWhole as⟩

end Core

section Trees

variable {L : Lexicon} {vars : List InferVar} {r : Replacement Resolving}

open Ownership.Core (View)

namespace Resolving

theorem stays_placeExpr (stays : r.Stays L vars) : (p : Core.PlaceExpr) →
    (placeExpr r p).Stays L vars (·.view = p.view)
  | .var _ ty _ => (ty.stays_replace stays).bind fun _ _ => stays_pure rfl
  | .field _ ty owner _ => (ty.stays_replace stays).bind fun _ _ =>
    (stays_placeExpr stays owner).bind fun _ same => stays_pure same
  | .error _ => stays_pure rfl

mutual
theorem stays_expr (stays : r.Stays L vars) : (e : Core.Expr) →
    (expr r e).Stays L vars fun e' => e'.span = e.span ∧ e'.view = e.view
  | .mk span ty n => (ty.stays_replace stays).bind fun _ _ => (stays_node stays span n).bind fun _ same =>
    stays_pure ⟨rfl, same⟩

theorem stays_node (stays : r.Stays L vars) (span : Span) : (n : Core.Node) →
    (node r n).Stays L vars (·.view span = n.view span)
  | .semi first rest | .binary _ first rest => (stays_expr stays first).bind fun _ same =>
    (stays_expr stays rest).bind fun _ same' => stays_pure (congrArg₂ View.beside same.2 same'.2)
  | .tuple elements => (stays_exprList stays elements).bind fun _ same => stays_pure same
  | .integral _ | .bytes _ | .error _ => stays_pure rfl
  | .declare v ty body => (ty.stays_replace stays).bind fun _ _ => (stays_expr stays body).bind fun _ same =>
    stays_pure (congrArg (View.declare v) same.2)
  | .letIn v ty initializer body => (ty.stays_replace stays).bind fun _ _ =>
    (stays_expr stays initializer).bind fun _ same => (stays_expr stays body).bind fun _ same' =>
    stays_pure (by
      have bound := congr (congrArg₂ (View.letIn v) same.1 same.2) same'.2
      exact bound)
  | .await future _ => (stays_expr stays future).bind fun _ same =>
    stays_pure (congrArg (View.andThen (.plain .await span)) same.2)
  | .assign place value => (stays_placeExpr stays place).bind fun _ same =>
    (stays_expr stays value).bind fun _ same' =>
    stays_pure (congrArg₂ (fun p v => (View.beside p v).andThen (.plain .assign span)) same same'.2)
  | .permissionOp _ place => (stays_placeExpr stays place).bind fun _ same => stays_pure same
  | .call _ substitution _ =>
    (Term.ends_replaceAll stays.relates substitution (Term.allIn_all _)).bind fun _ _ => stays_pure rfl
  | .ret value => (stays_expr stays value).bind fun _ same =>
    stays_pure (congrArg (View.andThen (.plain .ret span)) same.2)
  | .not operand _ | .negate operand _ => (stays_expr stays operand).bind fun _ same => stays_pure same.2
  | .cond arms => (stays_armList stays span arms).bind fun _ same => stays_pure same

theorem stays_arm (stays : r.Stays L vars) (span : Span) : (a : Core.Arm) →
    (arm r a).Stays L vars fun a' => ∀ as as', Core.Arm.viewAll span as' = Core.Arm.viewAll span as →
      Core.Arm.viewAll span (a' :: as') = Core.Arm.viewAll span (a :: as)
  | .when condition body => (stays_expr stays condition).bind fun _ same =>
    (stays_expr stays body).bind fun _ same' => stays_pure fun _ _ rest => by
      have arms := congr (congrArg₂ (View.arm span) same.2 same'.2) rest
      exact arms
  | .otherwise body => (stays_expr stays body).bind fun _ same => stays_pure fun _ _ rest =>
    congrArg₂ View.beside same.2 rest

theorem stays_exprList (stays : r.Stays L vars) : (es : List Core.Expr) →
    (exprList r es).Stays L vars fun es' => Core.Expr.viewAll es' = Core.Expr.viewAll es
  | [] => stays_pure rfl
  | e :: es => (stays_expr stays e).bind fun _ same => (stays_exprList stays es).bind fun _ same' =>
    stays_pure (congrArg₂ View.beside same.2 same')

theorem stays_armList (stays : r.Stays L vars) (span : Span) : (as : List Core.Arm) →
    (armList r as).Stays L vars fun as' => Core.Arm.viewAll span as' = Core.Arm.viewAll span as
  | [] => stays_pure rfl
  | a :: as => (stays_arm stays span a).bind fun _ first => (stays_armList stays span as).bind fun _ rest =>
    stays_pure (first _ _ rest)
end

theorem Stays.run' {α : Type} {P : α → Prop} {a : Resolving α} {s : Session} (h : a.Stays L s.inferVars P) :
    EndsIn P Failure.OfResolution ((StateT.run' a {} : Action α).exec s).1 := by
  have ends := h {} s ⟨rfl, nofun⟩
  have run : (StateT.run' a {} : Action α).exec s = (a.run {} >>= fun found => pure found.1 : Action α).exec s := by
    rw [StateT.run', map_eq_pure_bind]
    rfl
  rw [run, Action.exec_bind]
  rcases outcome : (a.run {}).exec s with ⟨_ | found, s'⟩
  · rw [outcome] at ends
    exact ends
  · rw [outcome] at ends
    exact ends.2

end Resolving

theorem Ty.ends_resolve {s : Session} (grounded : Resolving.Grounded L s.inferVars) (env : Env) {t : Ty}
    (h : t.In L) : EndsIn (Ty.In L) Failure.OfResolution ((t.resolve env).exec s).1 := by
  rw [Ty.resolve, Action.exec_bind, Action.exec_get]
  exact ((t.stays_replace (Resolving.stays_replacement grounded env _)).imp fun _ keeps => keeps h).run'

theorem Perm.ends_resolve {s : Session} (grounded : Resolving.Grounded L s.inferVars) (env : Env) {p : Perm}
    (h : p.In L) : EndsIn (Perm.In L) Failure.OfResolution ((p.resolve env).exec s).1 := by
  rw [Perm.resolve, Action.exec_bind, Action.exec_get]
  exact ((p.stays_replace (Resolving.stays_replacement grounded env _)).imp fun _ keeps => keeps h).run'

theorem Core.Expr.ends_resolve (env : Env) (e : Core.Expr) (s : Session) :
    EndsIn (·.view = e.view) Failure.OfResolution ((e.resolve env).exec s).1 := by
  have grounded : Resolving.Grounded ⟨fun _ _ => False, fun _ => True, fun _ => True, True⟩ s.inferVars :=
    ⟨rfl, fun _ _ _ => id, fun _ _ _ _ _ _ known => known.elim⟩
  rw [Core.Expr.resolve, Action.exec_bind, Action.exec_get]
  exact ((Resolving.stays_expr (Resolving.stays_replacement grounded env _) e).imp fun _ same => same.2).run'

theorem Core.Expr.view_of_resolve {e e' : Core.Expr} {env : Env} {s s' : Session}
    (resolved : (e.resolve env).run.run s = (.ok e', s')) : e'.view = e.view := by
  have ends := e.ends_resolve env s
  rwa [show (e.resolve env).exec s = (.ok e', s') from resolved] at ends

end Trees

end Ownership
