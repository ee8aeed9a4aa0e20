import Ownership.Proofs.RegimeCalls

namespace Ownership

namespace Rules

open Prog

section Values

variable {R : Regime} {owing : Prop} {w : Moment} {env : Env}

theorem obeys_value (fits : env.Fits R w.session) {e : Source.Expr} (spares : R.Spares e.written) :
    (value env e).Obeys R owing (fun l s => l.node.ty.In (R.lexicon s)) w :=
  (obeys_ask (g := .expr env e) ⟨fits, spares⟩ nofun).bind fun _ _ _ given => obeys_taken env given

theorem obeys_placeExpr (fits : env.Fits R w.session) {e : Source.Expr} (spares : R.Spares e.written) :
    (placeExpr env e).Obeys R owing (fun p s => p.node.Fits (R.lexicon s)) w :=
  (obeys_ask (g := .expr env e) ⟨fits, spares⟩ nofun).bind fun _ _ _ given => obeys_located env given

theorem obeys_closedValue (fits : env.Fits R w.session) {e : Source.Expr} (spares : R.Spares e.written) :
    (closedValue env e).Obeys R owing (fun e s => e.ty.In (R.lexicon s)) w :=
  (obeys_ask (g := .expr env e) ⟨fits, spares⟩ nofun).bind fun _ _ _ given =>
    obeys_perform (fun _ leads => Finding.obeys_toClosedExpr leads.2 env (Finding.Fits.later leads.1 given))
      fun given later => given.mono later.within

theorem obeys_values (fits : env.Fits R w.session) {es : List Source.Expr}
    (spares : R.Spares (Source.Expr.allWritten es)) :
    (values env es).Obeys R owing (fun found s => ∀ e ∈ found.1, e.ty.In (R.lexicon s)) w := by
  induction es generalizing w with
  | nil => exact obeys_ok nofun
  | cons e es ih =>
    obtain ⟨own, others⟩ := List.forall_mem_append.mp spares
    refine Obeys.bind (obeys_ask (g := .expr env e) ⟨fits, own⟩ nofun) fun f w₁ leads₁ given => ?_
    refine (obeys_taken env given).bind fun l w₂ leads₂ first => ?_
    refine (ih (fits.later (leads₁.trans leads₂).1) others).bind fun found w₃ leads₃ rest => obeys_ok fun s later => ?_
    exact List.forall_mem_cons.mpr ⟨first.mono (leads₃.trans later).1.within,
      fun e member => (rest e member).mono later.1.within⟩

theorem obeys_inferredTy (span : Span) :
    (perform (Action.freshTy env span)).Obeys R owing (fun t s => t.In (R.lexicon s)) w :=
  obeys_perform (fun _ leads => Action.obeys_freshTy leads.2 env span) fun given later => given.mono later.within

theorem obeys_postBoolean {e : Core.Expr} (fits : e.ty.In (R.lexicon w.session)) :
    (postBoolean env e).Complies R owing w := obeys_postAssignable env _ fits trivial

theorem obeys_postNumeric {t : Ty} {o : Obligation} (fits : t.In (R.lexicon w.session)) :
    (postNumeric env t o).Complies R owing w := obeys_post fits

theorem obeys_postOperands (opSpan : Span) {left right : Core.Expr} (first : left.ty.In (R.lexicon w.session))
    (second : right.ty.In (R.lexicon w.session)) : (postOperands env opSpan left right).Complies R owing w := by
  refine (obeys_postNumeric first).bind fun _ w₁ leads₁ _ => ?_
  refine (obeys_postNumeric (second.mono leads₁.1.within)).bind fun _ w₂ leads₂ _ => ?_
  have within := (leads₁.trans leads₂).1.within
  split
  · exact obeys_ok fun _ _ => trivial
  · exact obeys_post ⟨first.mono within, second.mono within⟩

end Values

section Expressions

variable {R : Regime} {owing : Prop} {w : Moment} {env : Env} (span : Span)

theorem obeys_literal (l : Source.Literal) : (literal env span l).Obeys R owing (Finding.Fits R) w := by
  cases l with
  | integer text =>
    dsimp only [literal]
    split
    · exact obeys_reportFinding env _
    · refine (obeys_inferredTy span).bind fun t w' _ given => ?_
      exact (obeys_postNumeric given).bind fun _ _ leads _ =>
        obeys_ok fun _ later => Ty.In.mono (leads.trans later).1.within given
  | string text =>
    have makes {w : Moment} {e : Core.Expr} (fits : e.ty.In (R.lexicon w.session)) :
        (perform (Finding.temporary e)).Complies R owing w :=
      obeys_perform (fun s leads => (Finding.obeys_temporary leads.2 (fits.mono leads.1.within)).imp
        fun _ _ _ _ => trivial) fun _ _ => trivial
    refine (makes ?_).bind fun bytes w' _ _ => (makes ?_).bind fun length _ _ _ => obeys_ok fun _ _ => ?_
    · exact ⟨trivial, trivial⟩
    · trivial
    · trivial
  | boolean text =>
    dsimp only [literal]
    split
    · exact obeys_ok fun _ _ => trivial
    · split
      · exact obeys_ok fun _ _ => trivial
      · exact obeys_violate trivial

theorem obeys_ofResolution {r : Resolution} (resolved : r.Fits R w.session) :
    (perform (Finding.ofResolution r span)).Obeys R owing (Finding.Fits R) w :=
  obeys_perform (fun _ leads => Finding.obeys_ofResolution leads.2 (resolved.later leads.1) span)
    fun given later => given.later later

variable (fits : env.Fits R w.session)
include fits

theorem obeys_binary (op : Source.BinaryOperator) (opSpan : Span) {left right : Source.Expr}
    (spares : R.Spares (left.written ++ right.written)) :
    (binary env span op opSpan left right).Obeys R owing (Finding.Fits R) w := by
  obtain ⟨lefts, rights⟩ := List.forall_mem_append.mp spares
  refine (obeys_value fits lefts).bind fun l w₁ leads₁ first => ?_
  refine (obeys_value (fits.later leads₁.1) rights).bind fun r w₂ leads₂ second => ?_
  have first := first.mono leads₂.1.within
  have booleans {yes : Core.Expr} {temporaries : List Core.Temporary}
      (ty : yes.ty.In (R.lexicon w₂.session)) :
      (do postBoolean env l.node; postBoolean env r.node; return .ofExpr yes temporaries : Prog Finding).Obeys R
        owing (Finding.Fits R) w₂ := by
    refine (obeys_postBoolean first).bind fun _ w₃ leads₃ _ => ?_
    refine (obeys_postBoolean (second.mono leads₃.1.within)).bind fun _ w₄ leads₄ _ => ?_
    exact obeys_ok fun _ later => Ty.In.mono ((leads₃.trans leads₄).trans later).1.within ty
  cases op with
  | and | or => exact booleans trivial
  | operator op =>
    refine (obeys_postOperands opSpan first second).bind fun _ w₃ leads₃ _ => obeys_ok fun s later => ?_
    change Ty.In _ (if op.isArithmetic then l.node.ty else .bool)
    split
    · exact first.mono (leads₃.trans later).1.within
    · trivial

theorem obeys_unary (op : UnaryOperator) (opSpan : Span) {operand : Source.Expr} (spares : R.Spares operand.written) :
    (unary env span op opSpan operand).Obeys R owing (Finding.Fits R) w := by
  refine (obeys_value fits spares).bind fun l w' _ given => ?_
  cases op with
  | not => exact (obeys_postBoolean given).bind fun _ _ _ _ => obeys_ok fun _ _ => trivial
  | negate =>
    exact (obeys_postNumeric given).bind fun _ _ leads _ =>
      obeys_ok fun _ later => Ty.In.mono (leads.trans later).1.within given

theorem obeys_dot {owner : Source.Expr} (spares : R.Spares owner.written) (name : Name) :
    (dot env span owner name).Obeys R owing (Finding.Fits R) w := by
  refine Obeys.bind (obeys_ask (g := .expr env owner) ⟨fits, spares⟩ nofun) fun f w' _ given => ?_
  obtain ⟨temporaries, ownerSpan, found⟩ := f
  cases found with
  | place p | value e => exact Obeys.relayed (obeys_lookupMember env name span given)
  | method self idSpan f generics => exact obeys_reportFinding env _
  | name r =>
    refine (obeys_resolved given).bind fun found w'' _ resolved => ?_
    split
    · exact obeys_ok fun _ _ => trivial
    · exact obeys_ofResolution span resolved
    · exact Obeys.relayed (obeys_reportFinding env _)

omit fits in
theorem obeys_genericTarget {s : Session} (sound : R.Sound s) {r : Resolution} (resolved : r.Fits R s) :
    (genericTarget env span r).Obeys R (Unless fun target s => ∀ t ∈ target.given, t.Fills (R.spoken True s)) s := by
  have entity := resolved.entity.self
  unfold genericTarget
  dsimp only
  split
  · split
    · exact Action.obeys_pure sound nofun
    · exact Action.obeys_reported sound fun _ _ => trivial
  · rename_i f found
    rw [found] at entity
    change Function.Fits R f at entity
    unfold Function.Fits at entity
    split
    · exact Action.obeys_pure sound trivial
    · rename_i e known
      rw [known] at entity
      exact Action.obeys_throw sound entity
    · split
      · exact Action.obeys_reported sound fun _ _ => trivial
      · refine (Action.obeys_freshFor sound env span _).bind fun inferred s' leads fresh => ?_
        refine Action.obeys_pure leads.2 fun t member => ?_
        rcases List.mem_append.mp member with old | new
        · exact (resolved.generics t old).mono (leads.1.within_spoken True)
        · exact fresh t new
  · exact Action.obeys_reported sound fun _ _ => trivial

theorem obeys_applyGenerics {r : Resolution} (resolved : r.Fits R w.session) {written : List Source.Generic}
    (spares : R.Spares (Source.Generic.allNames written)) :
    (applyGenerics env span r written).Obeys R owing (Unless fun r s => r.Fits R s) w := by
  refine Obeys.bind (obeys_perform (fun _ leads => obeys_genericTarget span leads.2 (resolved.later leads.1))
    fun {x _ _} given later => ?_) fun found w₁ leads₁ target => ?_
  · cases x with
    | ok target => exact fun t member => (given t member).mono (later.within_spoken True)
    | error report => trivial
  split
  · exact obeys_ok fun _ _ => trivial
  · dsimp only
    split
    · exact obeys_reported fun _ _ => trivial
    · refine (obeys_explicitGenerics (fits.later leads₁.1) _ _ spares).bind fun found w₂ leads₂ explicit => ?_
      split
      · exact obeys_ok fun _ _ => trivial
      · refine obeys_ok fun s later => ⟨resolved.entity.later ((leads₁.trans leads₂).trans later).1,
          fun t member => ?_⟩
        rcases List.mem_append.mp member with old | new
        · exact (target t old).mono ((leads₂.trans later).1.within_spoken True)
        · exact (explicit t new).mono (later.1.within_spoken True)

theorem obeys_bracket {owner : Source.Expr} {args : List Source.Generic}
    (spares : R.Spares (owner.written ++ Source.Generic.allNames args)) :
    (bracket env span owner args).Obeys R owing (Finding.Fits R) w := by
  obtain ⟨owners, others⟩ := List.forall_mem_append.mp spares
  refine Obeys.bind (obeys_ask (g := .expr env owner) ⟨fits, owners⟩ nofun) fun f w' leads given => ?_
  obtain ⟨temporaries, ownerSpan, found⟩ := f
  dsimp only
  split
  · refine obeys_ok fun _ later => ⟨Ty.In.mono later.1.within given.1, given.2.1, fun gs same => ?_⟩
    cases same
    exact others
  · exact obeys_reportFinding env _
  · exact obeys_ok fun _ _ => trivial
  · exact obeys_reportFinding env _
  · exact obeys_reportFinding env _
  · refine (obeys_applyGenerics span (fits.later leads.1) given others).awaited.bind fun found w'' _ resolved => ?_
    split
    · exact obeys_ok fun _ _ => trivial
    · exact obeys_ok fun _ later => Resolution.Fits.later later.1 resolved

theorem obeys_callExpr {owner : Source.Expr} {args : List Source.Expr}
    (spares : R.Spares (owner.written ++ Source.Expr.allWritten args)) :
    (call env span owner args).Obeys R owing (Finding.Fits R) w := by
  obtain ⟨owners, others⟩ := List.forall_mem_append.mp spares
  refine Obeys.bind (obeys_ask (g := .expr env owner) ⟨fits, owners⟩ nofun) fun f w' leads given => ?_
  have fits := fits.later leads.1
  obtain ⟨temporaries, ownerSpan, found⟩ := f
  dsimp only
  split
  · exact Obeys.relayed (obeys_callMethod fits _ span given.2.1 given.1 others given.2.2 _)
  · exact obeys_ok fun _ _ => trivial
  · exact Obeys.relayed (obeys_callFunction fits _ span (Resolution.Fits.entity given).self others
      (Resolution.Fits.generics given) _)
  · exact Obeys.relayed (obeys_callClass fits _ span given _ others _)
  · exact obeys_reportFinding env _

theorem obeys_returnExpr {value : Lifted Core.Expr} (given : value.node.ty.In (R.lexicon w.session)) :
    (returnExpr env span value).Obeys R owing (Finding.Fits R) w := by
  unfold returnExpr
  split
  · exact obeys_reportFinding env _
  · rename_i t known
    exact (obeys_postAssignable env _ given (fits.returnTy t known)).bind fun _ _ _ _ =>
      obeys_ok fun _ _ => trivial

theorem obeys_arm {a : Source.Arm} (spares : R.Spares a.written) : (arm env a).Obeys R owing (fun a s => a.body.ty.In (R.lexicon s)) w := by
  cases a with
  | when condition body =>
    obtain ⟨conditions, bodies⟩ := List.forall_mem_append.mp spares
    refine (obeys_closedValue fits conditions).bind fun c w₁ leads₁ given => ?_
    refine (obeys_postBoolean given).bind fun _ w₂ leads₂ _ => ?_
    refine (obeys_closedValue (fits.later (leads₁.trans leads₂).1) bodies).bind fun b _ _ given => ?_
    exact obeys_ok fun _ later => given.mono later.1.within
  | otherwise body =>
    exact (obeys_closedValue fits spares).bind fun b _ _ given => obeys_ok fun _ later => given.mono later.1.within

theorem obeys_arms {as : List Source.Arm} (spares : R.Spares (Source.Arm.allWritten as)) :
    (as.mapM (arm env)).Obeys R owing (fun as s => ∀ a ∈ as, a.body.ty.In (R.lexicon s)) w := by
  induction as generalizing w with
  | nil => exact obeys_ok nofun
  | cons a as ih =>
    obtain ⟨own, others⟩ := List.forall_mem_append.mp spares
    rw [List.mapM_cons]
    refine (obeys_arm fits own).bind fun a w' leads first => ?_
    refine (ih (fits.later leads.1) others).bind fun as w'' leads' rest => ?_
    exact obeys_ok fun _ later => List.forall_mem_cons.mpr ⟨first.mono (leads'.trans later).1.within,
      fun a member => (rest a member).mono later.1.within⟩

theorem obeys_cond {arms : List Source.Arm} (spares : R.Spares (Source.Arm.allWritten arms)) :
    (cond env span arms).Obeys R owing (Finding.Fits R) w := by
  refine (obeys_arms fits spares).bind fun as w₁ leads₁ given => ?_
  have rest (t : Ty) {w₂ : Moment} (more : R.Later w₁.session w₂.session) (ty : t.In (R.lexicon w₂.session)) :
      (do
        as.forM fun arm => postAssignable env arm.body.ty t
          ⟨.subtype arm.body.span (.ty arm.body.ty) (.ty t), []⟩
        return .ofExpr (.mk span t (.cond as)) : Prog Finding).Obeys R owing (Finding.Fits R) w₂ := by
    refine Obeys.bind (obeys_forM fun a member w' leads => ?_) fun _ w₃ leads₃ _ => ?_
    · exact obeys_postAssignable env _ ((given a member).mono (more.trans leads.1).within)
        (ty.mono leads.1.within)
    · exact obeys_ok fun _ later => Ty.In.mono (leads₃.trans later).1.within ty
  dsimp only
  split
  · exact (obeys_inferredTy span).bind fun t w₂ leads₂ ty => rest t leads₂.1 ty
  · exact rest .unit (.refl _) trivial

theorem obeys_permissionOp (op : PermissionOp) {e : Source.Expr} (spares : R.Spares e.written) :
    (permissionOp env span op e).Obeys R owing (Finding.Fits R) w := by
  refine (obeys_placeExpr fits spares).bind fun p w' leads given => ?_
  dsimp only
  split
  · exact obeys_ok fun _ _ => trivial
  · refine obeys_ok fun s later => ?_
    have given := given.mono later.1.within
    have places : ∀ q ∈ [p.node.toPlace], q.In (R.lexicon s) := by
      intro q member
      rw [List.mem_singleton.mp member]
      exact given.toPlace
    cases op with
    | mutate => exact ⟨places, given.ty⟩
    | reference => exact ⟨fun q member => (places q member).mono (R.lexicon_within_sharing s), given.ty⟩
    | give => exact given.ty

theorem obeys_letTy (name : Name) (declared : Option Source.Ty) :
    (letTy env name declared).Obeys R owing (fun t s => t.In (R.lexicon s)) w := by
  cases declared with
  | some t =>
    exact (Obeys.imp (obeys_ty fits t False.elim) fun _ _ _ given => given.mono (R.spoken_within_lexicon False _)).awaited
  | none => exact obeys_inferredTy name.span

theorem obeys_scoped {α : Type} {G : α → Session → Prop} {t : Ty} (given : t.In (R.lexicon w.session)) (name : Name)
    {next : Variable → Env → Prog α}
    (h : ∀ v env' w', R.Leads w.session w'.session → env'.Fits R w'.session →
      (next v env').Obeys R owing G w') :
    (do
      let v ← Action.newVariable .place (some name.id) name.span
      let env ← Action.withLocal env name.id v t
      next v env : Prog α).Obeys R owing G w := by
  refine Obeys.bind (obeys_perform (fun s leads => Action.obeys_newVariable leads.2 .place (some name.id) name.span)
    fun ready later => later.ready ready) fun v w₁ leads₁ ready => ?_
  have enters {s : Session} (leads : R.Leads w₁.session s) :
      (Action.withLocal env name.id v t).Obeys R (fun env s => env.Fits R s) s := by
    have now := leads₁.trans leads
    obtain ⟨settled, unbarred⟩ := leads.1.ready ready
    exact Action.obeys_withLocal now.2 (fits.later now.1) name.id settled (absurd · unbarred) (given.mono now.1.within)
  refine Obeys.bind (obeys_perform (fun s leads => enters leads) fun fits later => fits.later later)
    fun env' w₂ leads₂ fits' => ?_
  exact h v env' w₂ (leads₁.trans leads₂) fits'

omit fits in
theorem obeys_block {env : Env} {w : Moment} (fits : env.Fits R w.session) : (b : Source.Block) →
    R.Spares b.written → (block env span b).Obeys R owing (fun e s => e.ty.In (R.lexicon s)) w
  | .nil, _ => obeys_ok fun _ _ => trivial
  | .tail _, spares => obeys_closedValue fits spares
  | .statement _ e more, spares => by
    obtain ⟨own, others⟩ := List.forall_mem_append.mp spares
    refine (obeys_closedValue fits own).bind fun first w₁ leads₁ _ => ?_
    refine Obeys.bind (obeys_block (fits.later leads₁.1) more others).awaited fun last _ _ given => ?_
    exact obeys_ok fun _ later => given.mono later.1.within
  | .letVar name declared more, spares => by
    refine Obeys.relayed ((obeys_letTy fits name declared).bind fun t w₁ leads₁ given => ?_)
    refine obeys_scoped (fits.later leads₁.1) given name fun v env' w₂ _ fits' => ?_
    refine Obeys.bind (obeys_block fits' more spares).awaited fun body _ _ given => ?_
    exact obeys_ok fun _ later => given.mono later.1.within
  | .letInit name declared initializer more, spares => by
    obtain ⟨own, others⟩ := List.forall_mem_append.mp spares
    refine Obeys.relayed ((obeys_letTy fits name declared).bind fun t w₁ leads₁ ty => ?_)
    refine (obeys_closedValue (fits.later leads₁.1) own).bind fun e w₂ leads₂ given => ?_
    have ty := ty.mono leads₂.1.within
    refine (obeys_postAssignable env _ given ty).bind fun _ w₃ leads₃ _ => ?_
    have now := (leads₁.trans leads₂).trans leads₃
    refine obeys_scoped (fits.later now.1) (ty.mono leads₃.1.within) name fun v env' w₄ _ fits' => ?_
    refine Obeys.bind (obeys_block fits' more others).awaited fun body _ _ given => ?_
    exact obeys_ok fun _ later => given.mono later.1.within

theorem obeys_tuple {elements : List Source.Expr} (spares : R.Spares (Source.Expr.allWritten elements)) :
    (exprForm env (.tuple span elements)).Obeys R owing (Finding.Fits R) w := by
  refine (obeys_values fits spares).bind fun found _ _ given => obeys_ok fun _ later => ?_
  exact Term.allIn_iff.mpr (List.forall_mem_map.mpr fun e member => (given e member).mono later.1.within)

theorem obeys_assign {target e : Source.Expr} (spares : R.Spares (target.written ++ e.written)) :
    (exprForm env (.assign span target e)).Obeys R owing (Finding.Fits R) w := by
  obtain ⟨targets, values⟩ := List.forall_mem_append.mp spares
  refine (obeys_placeExpr fits targets).bind fun p w₁ leads₁ place => ?_
  refine (obeys_value (fits.later leads₁.1) values).bind fun v w₂ leads₂ given => ?_
  exact (obeys_postAssignable env _ given (place.mono leads₂.1.within).ty).bind fun _ _ _ _ =>
    obeys_ok fun _ _ => trivial

theorem obeys_await {e : Source.Expr} (spares : R.Spares e.written) (awaitSpan : Span) :
    (exprForm env (.await span e awaitSpan)).Obeys R owing (Finding.Fits R) w := by
  refine (obeys_value fits spares).bind fun future w₁ _ given => ?_
  refine (obeys_inferredTy awaitSpan).bind fun t w₂ leads₂ awaited => ?_
  refine Obeys.bind (obeys_post ⟨given.mono leads₂.1.within, awaited⟩) fun _ _ leads₃ _ => ?_
  exact obeys_ok fun _ later => Ty.In.mono (leads₃.trans later).1.within awaited

theorem obeys_exprForm {e : Source.Expr} (spares : R.Spares e.written) : (exprForm env e).Obeys R owing (Finding.Fits R) w := by
  cases e with
  | literal span l => exact obeys_literal span l
  | tuple span elements => exact obeys_tuple span fits spares
  | binary span op opSpan left right => exact (obeys_binary span fits op opSpan spares).relayed
  | assign span target e => exact obeys_assign span fits spares
  | id span name =>
    refine (obeys_named fits).bind fun found w' _ resolved => ?_
    split
    · exact obeys_ok fun _ _ => trivial
    · exact obeys_ofResolution span (Resolution.Named.fits resolved)
  | dot span owner name => exact (obeys_dot span fits spares name).relayed
  | bracket span owner args => exact (obeys_bracket span fits spares).relayed
  | call span owner args => exact (obeys_callExpr span fits spares).relayed
  | returnUnit span =>
    have unit : (⟨.unit span, []⟩ : Lifted Core.Expr).node.ty.In (R.lexicon w.session) := trivial
    exact obeys_returnExpr span fits unit
  | returnValue span e =>
    refine (obeys_value fits spares).bind fun l w' leads given => obeys_returnExpr span (fits.later leads.1) given
  | await span e awaitSpan => exact obeys_await span fits spares awaitSpan
  | unary span op opSpan operand => exact (obeys_unary span fits op opSpan spares).relayed
  | cond span arms => exact (obeys_cond span fits spares).relayed
  | permissionOp span op e => exact (obeys_permissionOp span fits op spares).relayed
  | block span b =>
    refine Obeys.bind (obeys_block span fits b spares).awaited fun checked _ _ given => ?_
    exact obeys_ok fun _ later => Ty.In.mono later.1.within given

theorem obeys_expr {e : Source.Expr} (spares : R.Spares e.written) : (expr env e).Obeys R owing (Finding.Fits R) w :=
  Obeys.traced (obeys_exprForm fits.fork spares)

theorem obeys_body {e : Source.Expr} (spares : R.Spares e.written) {expected : Option Ty}
    (given : ∀ t, expected = some t → t.In (R.lexicon w.session)) : (body env e expected).Complies R owing w := by
  have checked : (body.checked expected env e).Complies R owing w := by
    refine (obeys_closedValue fits spares).bind fun value w' leads ty => ?_
    cases expected with
    | none => exact obeys_ok fun _ _ => trivial
    | some t =>
      exact (obeys_postAssignable env _ ty ((given t rfl).mono leads.1.within)).bind fun _ _ _ _ =>
        obeys_ok fun _ _ => trivial
  have keeps (e : Core.Expr) (w : Moment) : (body.keep e).Complies R owing w :=
    obeys_neutral (fun _ => ⟨rfl, rfl, rfl, rfl, rfl⟩) fun _ => trivial
  refine checked.awaited.andThen fun r w' _ ends => ?_
  split
  · exact keeps _ _
  · exact keeps _ _
  · exact obeys_fail ends

end Expressions

end Rules

namespace Rules

variable {R : Regime} {w : Moment}

theorem obeys_unit {g : Goal .unit} {p : Prog Unit} (h : p.Complies R True w)
    (gives : ∀ v s, g.Gives R v s) : p.Obeys R (Shape.unit = .unit) (g.Gives R) w :=
  Prog.Meets.imp h (fun _ _ _ => id) (fun _ => rfl) fun _ w' _ ends => ends.imp fun v _ => gives v w'.session

theorem obeys_rule {s : Shape} (g : Goal s) (fits : g.Fits R w.session) :
    (Rules.rule s g).Obeys R (s = .unit) (g.Gives R) w := by
  cases g with
  | holds env p t => exact obeys_holds env p fits
  | tyHolds env p t => exact obeys_tyHolds env p fits
  | permHolds env p q => exact obeys_permHolds env p fits
  | refuted env p t => exact obeys_refuted env p fits
  | tyRefuted env p t => exact obeys_tyRefuted env p fits
  | permRefuted env p q => exact obeys_permRefuted env p fits
  | placeHolds env p place => exact obeys_placeHolds env p fits
  | placeRefuted env p place => exact obeys_placeRefuted env p fits
  | inferHolds env i p => exact obeys_inferHolds env p i
  | attempt env search node p lower upper o => exact obeys_attempt env o search node p fits.1 fits.2
  | contend env search node p lower upper o => exact obeys_contend env o search node p fits.1 fits.2
  | require env p t o => exact obeys_unit (obeys_require env p o fits) fun _ _ => trivial
  | establish env p t o => exact obeys_unit (obeys_establish env p o fits) fun _ _ => trivial
  | establishTy env p t o => exact obeys_unit (obeys_establishTy env p o fits) fun _ _ => trivial
  | establishPerm env p q o => exact obeys_unit (obeys_establishPerm env p o fits) fun _ _ => trivial
  | establishUnless env p other t o =>
    exact obeys_unit (obeys_establishUnless env p o fits.1 fits.2) fun _ _ => trivial
  | establishCopyPlace env place o => exact obeys_unit (obeys_establishCopyPlace env o fits) fun _ _ => trivial
  | establishMovePlace env place o => exact obeys_unit (obeys_establishMovePlace env o fits) fun _ _ => trivial
  | subTerms env lower upper o => exact obeys_unit (obeys_subTerms env o fits.1 fits.2) fun _ _ => trivial
  | subTys env lower upper o => exact obeys_unit (obeys_subTys env o fits.1 fits.2) fun _ _ => trivial
  | subPerms env lower upper o => exact obeys_unit (obeys_subPerms env o fits.1 fits.2) fun _ _ => trivial
  | subPermsOfHeads env lower upper o =>
    exact obeys_unit (obeys_subPermsOfHeads env o fits.1 fits.2) fun _ _ => trivial
  | subHeads env lower upper o => exact obeys_unit (obeys_subHeads env o fits.1 fits.2) fun _ _ => trivial
  | equalTys env a b o => exact obeys_unit (obeys_equalTys env o fits.1 fits.2) fun _ _ => trivial
  | postEqualTys env a b o => exact obeys_unit (obeys_postEqualTys env o fits.1 fits.2) fun _ _ => trivial
  | addLowerBound env i t o => exact obeys_unit (obeys_addLowerBound env o fits) fun _ _ => trivial
  | addUpperBound env i t o => exact obeys_unit (obeys_addUpperBound env o fits) fun _ _ => trivial
  | checkFacts env i => exact obeys_unit (obeys_checkFacts env i) fun _ _ => trivial
  | numeric env t o => exact obeys_unit (obeys_numeric env o fits) fun _ _ => trivial
  | future env t awaited o =>
    exact obeys_unit (Prog.obeys_ask (g := .futureHead env t awaited o) fits fun _ => trivial) fun _ _ => trivial
  | futureHead env t awaited o => exact obeys_unit (obeys_futureHead env o fits.1 fits.2) fun _ _ => trivial
  | body env e expected => exact obeys_unit (obeys_body fits.1 fits.2.1 fits.2.2) fun _ _ => trivial
  | fieldTy env owner f => exact obeys_fieldTy env f fits
  | lowerBound env i => exact obeys_lowerBound env i
  | evidence env i p => exact obeys_evidence env p i
  | expr env e => exact obeys_expr fits.1 fits.2
  | argument env a v inputTy => exact obeys_argument fits.1 fits.2.1 fits.2.2.1 fits.2.2.2
  | member env owner ownerTy t name span => exact obeys_member env name span fits.1 fits.2.1 fits.2.2

/-- Every rule obeys every regime. -/
theorem verified_regime (R : Regime) : Rules.answer.Verified R.contract R.asks := by
  intro s g w sound fits
  refine Prog.Meets.noted (Prog.Meets.mono (obeys_rule g fits) fun r w' leads ends => ?_) fun post later => ?_
  · exact ⟨⟨.refl _, leads.2⟩, ends⟩
  · exact Contract.post_later _ post later

end Rules

end Ownership
