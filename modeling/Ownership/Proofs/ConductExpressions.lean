import Ownership.Proofs.ConductRules

namespace Ownership

namespace Rules

open Prog

variable {C : Manner}

section Annotations

variable (looks : C.Looks) (env : Env)

theorem because_resolve {scope : Scope} {name : String} {span : Span} {d : Diagnostic}
    (unresolved : scope.resolve name span = .error d) : d.because = [] := by
  unfold Scope.resolve at unresolved
  split at unresolved <;> cases unresolved
  rfl

theorem because_relative {program : Program} {r : Resolution} {name : String} {span : Span} {d : Diagnostic}
    (unresolved : r.relative program name span = .error d) : d.because = [] := by
  unfold Resolution.relative at unresolved
  split at unresolved
  · split at unresolved <;> cases unresolved
    rfl
  · split at unresolved <;> cases unresolved
  · cases unresolved

include looks

theorem within_resolveName (name : String) (span : Span) : (resolveName env name span).Within C.Does := by
  unfold resolveName
  split
  · exact Action.within_pure _
  · rename_i unresolved
    exact (Action.within_tell looks env (because_resolve unresolved)).andThen fun _ => Action.within_pure _

theorem within_resolveRelative (r : Resolution) (name : String) (span : Span) :
    (resolveRelative env r name span).Within C.Does := by
  refine Action.within_get.andThen fun s => ?_
  split
  · exact Action.within_pure _
  · rename_i unresolved
    exact (Action.within_tell looks env (because_relative unresolved)).andThen fun _ => Action.within_pure _

theorem within_resolveRest (rest : List Name) (r : Resolution) : (resolveRest env r rest).Within C.Does := by
  induction rest generalizing r with
  | nil => exact Action.within_pure _
  | cons segment rest ih =>
    refine (within_resolveRelative looks env r _ _).andThen fun found => ?_
    split
    · exact Action.within_pure _
    · exact ih _
    · exact (Action.within_tell looks env rfl).andThen fun _ => Action.within_pure _

theorem within_resolvePath (first : Name) (rest : List Name) : (resolvePath env first rest).Within C.Does := by
  refine (within_resolveName looks env _ _).andThen fun found => ?_
  split
  · exact Action.within_pure _
  · exact within_resolveRest looks env rest _

theorem within_tells {α : Type} {d : Diagnostic} (plain : d.because = []) (f : Report → α) :
    (do return f (← Action.report env d) : Action α).Within C.Does :=
  (Action.within_tell looks env plain).andThen fun _ => Action.within_pure _

theorem heeds_tells {α : Type} {d : Diagnostic} (plain : d.because = []) (f : Report → α) :
    (do return f (← Action.report env d) : Prog α).Heeds C :=
  (heeds_tell looks env plain).bind fun _ => heeds_pure _

theorem within_checkGenericArgs (span : Span) (name : String) (expected : List Kind)
    (parameters : List (Option Variable)) (written : List Source.Generic) (args : List Term) :
    (checkGenericArgs env span name expected parameters written args).Within C.Does := by
  unfold checkGenericArgs
  dsimp only
  split
  · exact within_tells looks env rfl some
  · split
    · exact Action.within_pure _
    · refine within_tells looks env ?_ some
      split <;> rfl

theorem within_namedTyOfResolution (span : Span) (written : List Source.Generic) (args : List Term)
    (r : Resolution) : (namedTyOfResolution env span written args r).Within C.Does := by
  unfold namedTyOfResolution
  dsimp only
  split
  · split
    · exact Action.within_pure _
    · exact within_tells looks env rfl Ty.error
  · refine (within_checkGenericArgs looks env _ _ _ _ _ _).andThen fun misfit => ?_
    split <;> exact Action.within_pure _
  · split
    · exact within_tells looks env rfl Ty.error
    · split
      · exact Action.within_pure _
      · exact within_tells looks env rfl Ty.error
  · exact within_tells looks env rfl Ty.error

theorem within_namedTy (span : Span) (first : Name) (rest : List Name) (written : List Source.Generic)
    (args : List Term) : (namedTy env span first rest written args).Within C.Does := by
  unfold namedTy
  split
  · refine (within_checkGenericArgs looks env _ _ _ _ _ _).andThen fun misfit => ?_
    split <;> exact Action.within_pure _
  · refine (within_resolvePath looks env first rest).andThen fun found => ?_
    split
    · exact Action.within_pure _
    · exact within_namedTyOfResolution looks env span written args _

theorem heeds_findField (base : Place) (segment : Name) : (findField env base segment).Heeds C := by
  refine (heeds_placeTy looks env base).awaited.bind fun baseTy => heeds_get.bind fun s => ?_
  dsimp only
  split
  · exact heeds_raise _
  · split
    · exact heeds_pure _
    · exact (heeds_tell looks env rfl).bind fun _ => heeds_raise _
  · exact (heeds_tell looks env rfl).bind fun _ => heeds_raise _

theorem heeds_placeFields (fields : List Name) (base : Place) : (placeFields env base fields).Heeds C := by
  induction fields generalizing base with
  | nil => exact heeds_pure _
  | cons segment rest ih => exact (heeds_findField looks env base segment).awaited.bind fun _ => ih _

theorem heeds_place (written : Source.Place) : (place env written).Heeds C := by
  refine (heeds_perform (within_resolveName looks env _ _)).bind fun found => ?_
  split
  · exact heeds_pure _
  · dsimp only
    split
    · split
      · exact heeds_tells looks env rfl Place.error
      · refine (heeds_placeFields looks env _ _).andThen fun r => ?_
        split
        · exact heeds_pure _
        · exact heeds_pure _
        · exact heeds_throw _
    · exact heeds_tells looks env rfl Place.error

theorem heeds_places (written : List Source.Place) : (places env written).Heeds C := by
  induction written with
  | nil => exact heeds_pure _
  | cons p ps ih => exact (heeds_place looks env p).awaited.bind fun _ => ih.bind fun _ => heeds_pure _

theorem heeds_perm (written : Source.Perm) : (perm env written).Heeds C := by
  unfold perm
  split
  · exact heeds_pure _
  · exact heeds_pure _
  · exact (heeds_places looks env _).awaited.bind fun _ => heeds_pure _
  · exact (heeds_places looks env _).awaited.bind fun _ => heeds_pure _
  · exact heeds_tells looks env rfl Perm.error
  · refine (heeds_perform (within_resolveName looks env _ _)).bind fun found => ?_
    split
    · exact heeds_pure _
    · dsimp only
      split
      · split
        · exact heeds_pure _
        · exact heeds_tells looks env rfl Perm.error
      · exact heeds_tells looks env rfl Perm.error

end Annotations

mutual
theorem heeds_ty (looks : C.Looks) (env : Env) : (t : Source.Ty) → (ty env t).Heeds C
  | .named span first path written => ((heeds_generics looks env written).bind fun args =>
    heeds_perform (within_namedTy looks env span first path written args)).relayed
  | .perm _ p t =>
    (heeds_perm looks env p).awaited.bind fun _ => (heeds_ty looks env t).awaited.bind fun _ => heeds_pure _
  | .tuple _ elements => (heeds_tys looks env elements).bind fun _ => heeds_pure _

theorem heeds_tys (looks : C.Looks) (env : Env) : (ts : List Source.Ty) → (tys env ts).Heeds C
  | [] => heeds_pure _
  | t :: ts => (heeds_ty looks env t).awaited.bind fun _ => (heeds_tys looks env ts).bind fun _ => heeds_pure _

theorem heeds_generic (looks : C.Looks) (env : Env) : (g : Source.Generic) → (generic env g).Heeds C
  | .perm p => ((heeds_perm looks env p).bind fun _ => heeds_pure _).relayed
  | .ty t => by
    unfold generic
    split
    · exact heeds_pure _
    · exact ((heeds_ty looks env t).bind fun _ => heeds_pure _).relayed

theorem heeds_generics (looks : C.Looks) (env : Env) : (gs : List Source.Generic) → (generics env gs).Heeds C
  | [] => heeds_pure _
  | g :: gs =>
    (heeds_generic looks env g).awaited.bind fun _ => (heeds_generics looks env gs).bind fun _ => heeds_pure _
end

section Findings

variable (looks : C.Looks) (env : Env)
include looks

theorem heeds_explicitGenerics (pointed : Source.Generic → Span) (vs : List Variable) (gs : List Source.Generic) :
    (explicitGenerics env pointed vs gs).Heeds C := by
  induction vs generalizing gs with
  | nil => exact heeds_pure _
  | cons v vs ih =>
    cases gs with
    | nil => exact heeds_pure _
    | cons g gs =>
      refine (heeds_generic looks env g).awaited.bind fun t => ?_
      dsimp only
      split
      · exact heeds_tells looks env rfl _
      · refine (ih gs).bind fun found => ?_
        split <;> exact heeds_pure _

theorem within_toPlace (f : Finding) (checks : ∀ e, (Finding.temporary e).Within C.Does) :
    (f.toPlace env).Within C.Does := by
  unfold Finding.toPlace
  split
  · exact Action.within_pure _
  · exact (checks _).andThen fun _ => Action.within_pure _
  · exact (Action.within_tell looks env rfl).andThen fun _ => Action.within_pure _
  · exact (Action.within_tell looks env rfl).andThen fun _ => Action.within_pure _

theorem within_toExpr (f : Finding) : (f.toExpr env).Within C.Does := by
  unfold Finding.toExpr
  split
  · exact Action.within_pure _
  · exact Action.within_pure _
  · exact Action.within_pure _
  · exact (Action.within_tell looks env rfl).andThen fun _ => Action.within_pure _
  · exact (Action.within_tell looks env rfl).andThen fun _ => Action.within_pure _

theorem within_toExprs (fs : List Finding) : (toExprs env fs).Within C.Does := by
  induction fs with
  | nil => exact Action.within_pure _
  | cons f fs ih => exact (within_toExpr looks env f).andThen fun _ => ih.andThen fun _ => Action.within_pure _

omit looks env in
theorem within_ofResolution (r : Resolution) (span : Span) : (Finding.ofResolution r span).Within C.Does := by
  unfold Finding.ofResolution
  split
  · split
    · exact (Action.within_variableTy _).andThen fun _ => Action.within_pure _
    · exact Action.within_pure _
  · exact Action.within_pure _

theorem heeds_reportFinding {d : Diagnostic} (plain : d.because = []) : (perform (reportFinding env d)).Heeds C :=
  heeds_perform (within_tells looks env plain Finding.ofReport)

end Findings

section Generics

variable {awaits : Obligation → Prop} {holding : Prop} (checks : C.Checks awaits holding) (env : Env)
include checks

theorem within_genericTarget (span : Span) (r : Resolution) : (genericTarget env span r).Within C.Does := by
  unfold genericTarget
  dsimp only
  split
  · split
    · exact Action.within_pure _
    · exact within_tells checks.looks env rfl _
  · split
    · exact Action.within_pure _
    · exact Action.within_throw _
    · split
      · exact within_tells checks.looks env rfl _
      · exact (Action.within_freshFor checks env span _).andThen fun _ => Action.within_pure _
  · exact within_tells checks.looks env rfl _

theorem heeds_methodSubstitution (idSpan : Span) (f : Function) (s : Signature)
    (written : Option (List Source.Generic)) : (methodSubstitution env idSpan f s written).Heeds C := by
  cases written with
  | none => exact (heeds_perform (Action.within_freshFor checks env idSpan _)).bind fun _ => heeds_pure _
  | some written =>
    dsimp only [methodSubstitution]
    split
    · exact heeds_violate _
    · refine (heeds_perform (Action.within_freshFor checks env idSpan _)).bind fun outer => ?_
      split
      · exact heeds_tells checks.looks env rfl _
      · refine (heeds_explicitGenerics checks.looks env _ _ _).bind fun found => ?_
        split <;> exact heeds_pure _

theorem heeds_signatureOrCheckArgs (f : Function) (args : List Source.Expr) (written : List Source.Generic) :
    (signatureOrCheckArgs env f args written).Heeds C := by
  unfold signatureOrCheckArgs
  split
  · exact heeds_pure _
  · refine (heeds_generics checks.looks env written).bind fun _ => (Heeds.forM (fun e => ?_) args).bind fun _ =>
      heeds_pure _
    exact Heeds.bind (heeds_asks checks trivial) fun _ => heeds_pure _
  · exact heeds_throw _

theorem heeds_letTy (name : Name) (declared : Option Source.Ty) : (letTy env name declared).Heeds C := by
  cases declared with
  | some t => exact (heeds_ty checks.looks env t).awaited
  | none => exact heeds_perform (Action.within_freshTy checks env _)

theorem heeds_postBoolean (e : Core.Expr) : (postBoolean env e).Heeds C := heeds_postAssignable checks env _ _ _

theorem heeds_applyGenerics (span : Span) (r : Resolution) (written : List Source.Generic) :
    (applyGenerics env span r written).Heeds C := by
  refine (heeds_perform (within_genericTarget checks env span r)).bind fun found => ?_
  split
  · exact heeds_pure _
  · dsimp only
    split
    · exact heeds_tells checks.looks env rfl _
    · refine (heeds_explicitGenerics checks.looks env _ _ _).bind fun terms => ?_
      split <;> exact heeds_pure _

omit env in
theorem heeds_rule_plain {s : Shape} (g : Goal s) (usual : g.Usual awaits False) (plain : s ≠ .finding) :
    (rule s g).Heeds C := by
  cases g with
  | attempt env search node p lower upper o => exact heeds_attempt checks.compares env o search node p lower upper
  | contend env search node p lower upper o => exact heeds_contend checks.compares env o search node p lower upper
  | require env p t o => exact heeds_require (demands_of_checks checks p) env o t
  | establish env p t o => exact heeds_establish (demands_of_checks checks p) env o t
  | establishTy env p t o => exact heeds_establishTy (demands_of_checks checks p) env o t
  | establishPerm env p q o => exact heeds_establishPerm (demands_of_checks checks p) env o q
  | establishUnless env p other t o => exact heeds_establishUnless (demands_of_checks checks p) env o other t
  | establishCopyPlace env place o => exact heeds_establishCopyPlace env o (demands_of_checks checks .copy) place
  | establishMovePlace env place o => exact heeds_establishMovePlace (demands_of_checks checks .move) env o place
  | subTerms env lower upper o => exact heeds_subTerms checks env o lower upper
  | subTys env lower upper o => exact heeds_subTys checks env o lower upper
  | subPerms env lower upper o => exact heeds_subPerms checks env o lower upper
  | subPermsOfHeads env lower upper o =>
    exact heeds_subPermsOfHeads checks.compares env o (fun g part => checks.calls g part.usual) lower upper
  | subHeads env lower upper o =>
    exact heeds_subHeads checks.compares env o (fun g part => checks.calls g part.usual) lower upper
  | equalTys env a b o => exact heeds_equalTys checks env o a b
  | postEqualTys env a b o => exact heeds_postEqualTys checks env o a b
  | addLowerBound env i t o => exact heeds_addLowerBound checks env o i t
  | addUpperBound env i t o => exact heeds_addUpperBound checks env o i t
  | checkFacts env i => exact heeds_checkFacts checks env i
  | numeric env t o | body env e expected | argument env a v inputTy | member env owner ownerTy t name span =>
    exact usual.elim
  | future env t awaited o => exact heeds_asks checks usual
  | futureHead env t awaited o => exact heeds_futureHead checks env o t awaited usual
  | expr env e => exact absurd rfl plain
  | _ => exact heeds_test checks.looks _ trivial

end Generics

section Expressions

variable {awaits : Obligation → Prop} (checks : C.Checks awaits True) (env : Env)
include checks

omit env in
theorem within_temporary (e : Core.Expr) : (Finding.temporary e).Within C.Does :=
  (Action.within_newVariable checks _ _ _).andThen fun _ => (Action.within_setVariableTy checks _ _).andThen fun _ =>
    Action.within_pure _

theorem heeds_value (e : Source.Expr) : (value env e).Heeds C :=
  Heeds.bind (heeds_asks checks trivial) fun f => heeds_perform (within_toExpr checks.looks env f)

theorem heeds_values (es : List Source.Expr) : (values env es).Heeds C := by
  induction es with
  | nil => exact heeds_pure _
  | cons e es ih =>
    exact Heeds.bind (heeds_asks checks trivial) fun f =>
      (heeds_perform (within_toExpr checks.looks env f)).bind fun _ => ih.bind fun _ => heeds_pure _

theorem heeds_placeExpr (e : Source.Expr) : (placeExpr env e).Heeds C :=
  Heeds.bind (heeds_asks checks trivial) fun f =>
    heeds_perform (within_toPlace checks.looks env f (within_temporary checks))

theorem heeds_closedValue (e : Source.Expr) : (closedValue env e).Heeds C :=
  Heeds.bind (heeds_asks checks trivial) fun f =>
    heeds_perform ((within_toExpr checks.looks env f).andThen fun _ => Action.within_pure _)

theorem heeds_argument (a : Argument) (v : Variable) (inputTy : Ty) : (argument env a v inputTy).Heeds C := by
  have rest (lifted : Lifted Core.Expr) : (do
      let value := lifted.node
      Action.setVariableTy v value.ty
      postAssignable env.fork value.ty inputTy ⟨.subtype value.span (.ty value.ty) (.ty inputTy), []⟩
      return .ofExpr value lifted.temporaries : Prog Finding).Heeds C :=
    (heeds_perform (Action.within_setVariableTy checks _ _)).bind fun _ =>
      (heeds_postAssignable checks _ _ _ _).bind fun _ => heeds_pure _
  cases a with
  | self e => exact (heeds_pure _).bind rest
  | expr e =>
    exact Heeds.bind (heeds_asks checks trivial) fun f =>
      (heeds_perform (within_toExpr checks.looks env.fork f)).bind rest

theorem heeds_member (owner : Finding) (ownerTy t : Ty) (name : Name) (span : Span) :
    (member env owner ownerTy t name span).Heeds C := by
  unfold member
  dsimp only
  split
  · refine heeds_get.bind fun s => ?_
    split
    · refine (heeds_perform (within_toPlace checks.looks env owner (within_temporary checks))).bind fun _ => ?_
      exact Heeds.bind (heeds_asks checks trivial) fun _ => heeds_pure _
    · split
      · exact heeds_reportFinding checks.looks env rfl
      · exact (heeds_perform (within_toExpr checks.looks env owner)).bind fun _ => heeds_pure _
    · exact heeds_reportFinding checks.looks env rfl
  · exact heeds_reportFinding checks.looks env rfl
  · refine Heeds.bind (heeds_asks checks trivial) fun bound => ?_
    split
    · exact heeds_relays checks trivial
    · exact heeds_reportFinding checks.looks env rfl
  · exact heeds_pure _
  · exact heeds_reportFinding checks.looks env rfl
  · exact heeds_reportFinding checks.looks env rfl

omit checks env in
theorem heeds_recovering {p : Prog Finding} (h : p.Heeds C) : (recovering p).Heeds C := by
  refine h.andThen fun r => ?_
  split
  · exact heeds_pure _
  · exact heeds_pure _
  · exact heeds_throw _

theorem heeds_lookupMember (owner : Finding) (name : Name) (span : Span) :
    (lookupMember env owner name span).Heeds C := by
  unfold lookupMember
  split
  · exact heeds_recovering (heeds_asks checks trivial)
  · exact heeds_recovering (heeds_asks checks trivial)
  · exact heeds_reportFinding checks.looks env rfl
  · exact heeds_reportFinding checks.looks env rfl

theorem heeds_callCommon (f : Function) (s : Signature) (exprSpan calleeSpan : Span) (substitution : List Term)
    (args : List Argument) (temporaries : List Core.Temporary) :
    (callCommon env f s exprSpan calleeSpan substitution args temporaries).Heeds C := by
  refine (heeds_log checks.looks _ _ _).bind fun _ => (heeds_log checks.looks _ _ _).bind fun _ => ?_
  refine (heeds_lift _).bind fun types => ?_
  dsimp only
  split
  · exact heeds_reportFinding checks.looks env rfl
  · refine (heeds_perform (Action.within_mapM (fun a => Action.within_newVariable checks _ _ _) args)).bind
      fun inputs => ?_
    refine (heeds_lift _).bind fun types => ?_
    refine (heeds_log checks.looks _ _ _).bind fun _ => (heeds_log checks.looks _ _ _).bind fun _ => ?_
    refine (Heeds.forM (fun clause => heeds_postWhereClause checks env _ _ _) _).bind fun _ => ?_
    refine Heeds.bind (C.has_gather ?_) fun findings => ?_
    · simp only [List.mem_singleton, forall_eq, List.forall_mem_map]
      exact fun _ _ _ => checks.asks _ trivial
    · exact (heeds_perform (within_toExprs checks.looks env findings)).bind fun _ => heeds_pure _

theorem heeds_callFunction (functionSpan exprSpan : Span) (f : Function) (args : List Source.Expr)
    (given : List Term) (temporaries : List Core.Temporary) :
    (callFunction env functionSpan exprSpan f args given temporaries).Heeds C := by
  refine (heeds_log checks.looks _ _ _).bind fun _ => (heeds_log checks.looks _ _ _).bind fun _ => ?_
  refine (heeds_signatureOrCheckArgs checks env f args []).awaited.bind fun found => ?_
  split
  · exact heeds_pure _
  · split
    · exact heeds_violate _
    · exact (heeds_perform (Action.within_freshFor checks env _ _)).bind fun _ =>
        (heeds_callCommon checks env _ _ _ _ _ _ _).relayed

theorem heeds_callMethod (idSpan exprSpan : Span) (f : Function) (self : Core.Expr) (args : List Source.Expr)
    (written : Option (List Source.Generic)) (temporaries : List Core.Temporary) :
    (callMethod env idSpan exprSpan f self args written temporaries).Heeds C := by
  refine (heeds_signatureOrCheckArgs checks env f args _).awaited.bind fun found => ?_
  split
  · exact heeds_pure _
  · refine (heeds_methodSubstitution checks env idSpan f _ written).bind fun substitution => ?_
    split
    · exact heeds_pure _
    · exact (heeds_callCommon checks env _ _ _ _ _ _ _).relayed

theorem heeds_callClass (classSpan exprSpan : Span) (r : Resolution) (a : Aggregate) (args : List Source.Expr)
    (temporaries : List Core.Temporary) : (callClass env classSpan exprSpan r a args temporaries).Heeds C := by
  refine (heeds_perform (within_resolveRelative checks.looks env r _ _)).bind fun found => ?_
  split
  · exact heeds_pure _
  · exact (heeds_callFunction checks env _ _ _ _ _ _).relayed
  · exact heeds_reportFinding checks.looks env rfl
  · exact heeds_reportFinding checks.looks env rfl

variable (span : Span)

theorem heeds_literal (l : Source.Literal) : (literal env span l).Heeds C := by
  unfold literal
  split
  · split
    · exact heeds_reportFinding checks.looks env rfl
    · exact (heeds_perform (Action.within_freshTy checks env span)).bind fun _ =>
        (heeds_postNumeric checks env _ _).bind fun _ => heeds_pure _
  · exact (heeds_perform (within_temporary checks _)).bind fun _ =>
      (heeds_perform (within_temporary checks _)).bind fun _ => heeds_pure _
  · split
    · exact heeds_pure _
    · split
      · exact heeds_pure _
      · exact heeds_violate _

theorem heeds_binary (op : Source.BinaryOperator) (opSpan : Span) (left right : Source.Expr) :
    (binary env span op opSpan left right).Heeds C := by
  refine (heeds_value checks env left).bind fun l => (heeds_value checks env right).bind fun r => ?_
  cases op with
  | and | or =>
    exact (heeds_postBoolean checks env _).bind fun _ => (heeds_postBoolean checks env _).bind fun _ => heeds_pure _
  | operator op => exact (heeds_postOperands checks env _ _ _).bind fun _ => heeds_pure _

theorem heeds_unary (op : UnaryOperator) (opSpan : Span) (operand : Source.Expr) :
    (unary env span op opSpan operand).Heeds C := by
  refine (heeds_value checks env operand).bind fun e => ?_
  cases op with
  | not => exact (heeds_postBoolean checks env _).bind fun _ => heeds_pure _
  | negate => exact (heeds_postNumeric checks env _ _).bind fun _ => heeds_pure _

theorem heeds_dot (owner : Source.Expr) (name : Name) : (dot env span owner name).Heeds C := by
  refine Heeds.bind (heeds_asks checks trivial) fun finding => ?_
  split
  · refine (heeds_perform (within_resolveRelative checks.looks env _ _ _)).bind fun found => ?_
    split
    · exact heeds_pure _
    · exact heeds_perform (within_ofResolution _ _)
    · exact (heeds_lookupMember checks env _ _ _).relayed
  · exact heeds_reportFinding checks.looks env rfl
  · exact (heeds_lookupMember checks env _ _ _).relayed

theorem heeds_bracket (owner : Source.Expr) (args : List Source.Generic) :
    (bracket env span owner args).Heeds C := by
  refine Heeds.bind (heeds_asks checks trivial) fun finding => ?_
  split
  · exact heeds_pure _
  · exact heeds_reportFinding checks.looks env rfl
  · exact heeds_pure _
  · exact heeds_reportFinding checks.looks env rfl
  · exact heeds_reportFinding checks.looks env rfl
  · refine (heeds_applyGenerics checks env span _ args).awaited.bind fun found => ?_
    split <;> exact heeds_pure _

theorem heeds_callExpr (owner : Source.Expr) (args : List Source.Expr) :
    (Rules.call env span owner args).Heeds C := by
  refine Heeds.bind (heeds_asks checks trivial) fun finding => ?_
  split
  · exact (heeds_callMethod checks env _ _ _ _ _ _ _).relayed
  · exact heeds_pure _
  · exact (heeds_callFunction checks env _ _ _ _ _ _).relayed
  · exact (heeds_callClass checks env _ _ _ _ _ _).relayed
  · exact heeds_reportFinding checks.looks env rfl

theorem heeds_returnExpr (value : Lifted Core.Expr) : (returnExpr env span value).Heeds C := by
  unfold returnExpr
  split
  · exact heeds_reportFinding checks.looks env rfl
  · exact (heeds_postAssignable checks env _ _ _).bind fun _ => heeds_pure _

theorem heeds_arm (a : Source.Arm) : (arm env a).Heeds C := by
  cases a with
  | when condition body =>
    exact (heeds_closedValue checks env _).bind fun _ => (heeds_postBoolean checks env _).bind fun _ =>
      (heeds_closedValue checks env _).bind fun _ => heeds_pure _
  | otherwise body => exact (heeds_closedValue checks env _).bind fun _ => heeds_pure _

theorem heeds_cond (arms : List Source.Arm) : (cond env span arms).Heeds C := by
  have checked : (arms.mapM (arm env)).Heeds C := by
    induction arms with
    | nil => exact heeds_pure _
    | cons a arms ih =>
      rw [List.mapM_cons]
      exact (heeds_arm checks env a).bind fun _ => ih.bind fun _ => heeds_pure _
  refine checked.bind fun arms => ?_
  have rest (t : Ty) : (do
      arms.forM fun arm =>
        let body := arm.body
        postAssignable env body.ty t ⟨.subtype body.span (.ty body.ty) (.ty t), []⟩
      return .ofExpr (.mk span t (.cond arms)) : Prog Finding).Heeds C :=
    (Heeds.forM (fun _ => heeds_postAssignable checks env _ _ _) arms).bind fun _ => heeds_pure _
  dsimp only
  split
  · exact (heeds_perform (Action.within_freshTy checks env span)).bind fun t => rest t
  · exact (heeds_pure _).bind fun t => rest t

theorem heeds_permissionOp (op : PermissionOp) (e : Source.Expr) :
    (permissionOp env span op e).Heeds C := by
  refine (heeds_placeExpr checks env e).bind fun place => ?_
  split <;> exact heeds_pure _

omit env in
theorem heeds_block : (b : Source.Block) → (env : Env) → (block env span b).Heeds C
  | .nil, _ => heeds_pure _
  | .tail e, env => heeds_closedValue checks env e
  | .statement _ e others, env =>
    (heeds_closedValue checks env e).bind fun _ => (heeds_block others env).awaited.bind fun _ => heeds_pure _
  | .letVar name annotation others, env => Heeds.relayed <|
    (heeds_letTy checks env name annotation).bind fun _ =>
      (heeds_perform (Action.within_newVariable checks _ _ _)).bind fun _ =>
      (heeds_perform (Action.within_withLocal checks env _ _ _)).bind fun env =>
      (heeds_block others env).awaited.bind fun _ => heeds_pure _
  | .letInit name annotation initializer others, env => Heeds.relayed <|
    (heeds_letTy checks env name annotation).bind fun _ =>
      (heeds_closedValue checks env initializer).bind fun _ =>
      (heeds_postAssignable checks env _ _ _).bind fun _ =>
      (heeds_perform (Action.within_newVariable checks _ _ _)).bind fun _ =>
      (heeds_perform (Action.within_withLocal checks env _ _ _)).bind fun env =>
      (heeds_block others env).awaited.bind fun _ => heeds_pure _

theorem heeds_exprForm (e : Source.Expr) : (exprForm env e).Heeds C := by
  unfold exprForm
  split
  · exact heeds_literal checks env _ _
  · exact (heeds_values checks env _).bind fun _ => heeds_pure _
  · exact (heeds_binary checks env _ _ _ _ _).relayed
  · exact (heeds_placeExpr checks env _).bind fun _ => (heeds_value checks env _).bind fun _ =>
      (heeds_postAssignable checks env _ _ _).bind fun _ => heeds_pure _
  · refine (heeds_perform (within_resolveName checks.looks env _ _)).bind fun found => ?_
    split
    · exact heeds_pure _
    · exact heeds_perform (within_ofResolution _ _)
  · exact (heeds_dot checks env _ _ _).relayed
  · exact (heeds_bracket checks env _ _ _).relayed
  · exact (heeds_callExpr checks env _ _ _).relayed
  · exact heeds_returnExpr checks env _ _
  · exact (heeds_value checks env _).bind fun v => heeds_returnExpr checks env _ v
  · refine (heeds_value checks env _).bind fun future =>
      (heeds_perform (Action.within_freshTy checks env _)).bind fun awaited => ?_
    exact (heeds_postFuture checks env _ _ (checks.awaitable _ _ _)).bind fun _ => heeds_pure _
  · exact (heeds_unary checks env _ _ _ _).relayed
  · exact (heeds_cond checks env _ _).relayed
  · exact (heeds_permissionOp checks env _ _ _).relayed
  · exact (heeds_block checks _ _ env).awaited.bind fun _ => heeds_pure _

theorem heeds_expr (e : Source.Expr) : (expr env e).Heeds C :=
  Heeds.traced checks.looks (heeds_exprForm checks env.fork e)

theorem heeds_body (e : Source.Expr) (expected : Option Ty) : (body env e expected).Heeds C := by
  have keeps (checked : Core.Expr) : (body.keep checked).Heeds C :=
    heeds_perform (Action.within_deed checks (d := .keep checked) (fun _ => rfl) fun _ => trivial)
  have checked : (body.checked expected env e).Heeds C := by
    refine (heeds_closedValue checks env e).bind fun value => ?_
    split
    · exact (heeds_postAssignable checks env _ _ _).bind fun _ => heeds_pure _
    · exact heeds_pure _
  refine checked.awaited.andThen fun r => ?_
  split
  · exact keeps _
  · exact keeps _
  · exact heeds_throw _

omit env in
/-- Every rule but that for numeric obligations keeps to a conduct that lets steps check expressions. -/
theorem heeds_rule {s : Shape} (g : Goal s) (usual : g.Usual awaits True) : (rule s g).Heeds C := by
  cases g with
  | body env e expected => exact heeds_body checks env e expected
  | expr env e => exact heeds_expr checks env e
  | argument env a v inputTy => exact heeds_argument checks env a v inputTy
  | member env owner ownerTy t name span => exact heeds_member checks env owner ownerTy t name span
  | _ => exact heeds_rule_plain checks _ usual nofun

end Expressions

end Rules

end Ownership
