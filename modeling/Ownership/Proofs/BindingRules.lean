import Ownership.Checker
import Ownership.Proofs.Bindings
import Ownership.Proofs.Holdings
import Ownership.Proofs.Instances
import Ownership.Proofs.ResolvedTerms

namespace Ownership

abbrev Prog.FindsIn (c : Checking) (env : Env) (e : Source.Expr) (p : Prog Finding) (O : Multiset Nat) : Prop :=
  p.Tracks c.custody (Finding.Held env.scope e) O

namespace Rules

open Prog
open Ownership.Core (Temporary)

variable {c : Checking}

section Findings

variable (env : Env) (span : Span)
variable {e : Source.Expr} {O : Multiset Nat}

theorem tracks_ofReport (r : Report) : (pure (.ofReport r) : Prog Finding).FindsIn c env e O :=
  .held (Finding.suits_ofReport _ e r) (Multiset.zero_le O)

theorem tracks_reportFinding (d : Diagnostic) : (perform (reportFinding env d)).FindsIn c env e O :=
  Action.Grants.tracks ((Action.steady_report env d).bind_grants fun r =>
    Action.grants_pure (Finding.suits_ofReport _ e r) (Multiset.zero_le O))

theorem tracks_ask (e : Source.Expr) : (ask (.expr env e)).FindsIn c env e 0 := by
  refine Tracks.awaited ⟨0, 0, le_rfl, trivial, fun f G given => ?_, fun _ _ => trivial⟩
  exact ⟨G, (add_zero G).ge, given⟩

abbrev HeldValue (env : Env) (e : Source.Expr) : Lifted Core.Expr → Multiset Nat → Prop :=
  Holding (fun l => l.finding.ScopedIn env.scope.variables ∧ Argument.Follows env.scope.names l (.expr e))
    (·.finding.binders)

abbrev HeldPlace (env : Env) (e : Source.Expr) : Lifted Core.PlaceExpr → Multiset Nat → Prop :=
  Holding (fun l => (Finding.ofPlace l.node l.temporaries).ScopedIn env.scope.variables ∧
      ((e.schedule env.scope.names).stored e.held).Covers l.temporaries l.node.isWhole [])
    fun l => (Finding.ofPlace l.node l.temporaries).binders

abbrev HeldExpr (visible : Set Variable) (expected : List Effect) (span : Span) :
    Core.Expr → Multiset Nat → Prop :=
  Holding (fun c => c.ScopedIn visible ∧ Matches c.isWhole c.effects expected ∧ (c.isWhole → c.span = span))
    Core.Expr.binders

theorem tracks_toExpr {f : Finding} (suits : f.Suits env.scope e) :
    (perform (f.toExpr env)).Tracks c.custody (HeldValue env e) (Variable.ids f.binders) :=
  ((Finding.grants_toExpr env f).tracks).imp fun _ _ given =>
    ⟨⟨given.1.scope _ suits.1, given.1.follows _ e suits.2⟩, given.2⟩

theorem tracks_value (e : Source.Expr) : (value env e).Tracks c.custody (HeldValue env e) 0 := by
  refine (tracks_ask env e).bind_part fun f suits => ?_
  rw [add_zero]
  exact tracks_toExpr env suits

theorem tracks_placeExpr (e : Source.Expr) : (placeExpr env e).Tracks c.custody (HeldPlace env e) 0 := by
  refine (tracks_ask env e).bind_part fun f ⟨inScope, follows⟩ => ?_
  rw [add_zero]
  exact ((Finding.grants_toPlace env f).tracks).imp fun _ _ given =>
    ⟨⟨given.1.scope _ inScope, (given.1.follows _ e follows).1⟩, given.2⟩

theorem tracks_closedValue (e : Source.Expr) : (closedValue env e).Tracks c.custody
    (HeldExpr env.scope.variables (e.schedule env.scope.names).total e.valueSpan) 0 := by
  refine (tracks_ask env e).bind_part fun f ⟨inScope, follows⟩ => ?_
  rw [add_zero]
  exact ((Finding.grants_toClosedExpr env f).tracks).imp fun _ _ given =>
    ⟨⟨given.1.1 _ inScope, given.1.2 _ e follows⟩, given.2⟩

theorem tracks_values (es : List Source.Expr) : (values env es).Tracks c.custody
    (Holding (fun r => Temporary.Around env.scope.variables r.2 (fun inner => ∀ e ∈ r.1, e.ScopedIn inner) ∧
      (Source.Expr.schedules env.scope.names (fun _ => []) es).Covers r.2 (Core.Expr.allWhole r.1)
        (Core.Expr.allEffects r.1))
      fun r => r.2.flatMap Temporary.binders ++ r.1.flatMap Core.Expr.binders) 0 := by
  induction es with
  | nil => exact .held ⟨⟨trivial, by simp⟩, .nothing⟩ le_rfl
  | cons e es ih =>
    refine (tracks_ask env e).bind_part fun f suits => ?_
    refine (tracks_toExpr env suits).bind_holding fun l ⟨now, first⟩ => ?_
    refine ih.bind_part fun r ⟨later, second⟩ => .held ⟨?_, ?_⟩ ?_
    · refine (Temporary.Around.append now later l.node.monotone_scopedIn fun _ _ subset h e member => ?_).imp
        fun _ _ h => List.forall_mem_cons.mpr h
      exact e.monotone_scopedIn subset (h e member)
    · have both := (first.covers.andThen []).beside second
      rw [List.append_nil] at both
      exact both
    · simp only [Lifted.finding, Finding.ids_ofExpr, Variable.ids_append, List.flatMap_append, List.flatMap_cons]
      exact le_of_eq (by abel)

theorem held_ofExpr {ts : List Temporary} {v : Core.Expr}
    (around : Temporary.Around env.scope.variables ts fun inner => v.ScopedIn inner)
    (covers : (e.schedule env.scope.names).Covers ts v.isWhole v.effects) (value : e.isPath = false)
    (spans : v.isWhole → v.span = e.valueSpan)
    (held : Variable.ids (ts.flatMap Temporary.binders) + Variable.ids v.binders ≤ O) :
    (pure (.ofExpr v ts) : Prog Finding).FindsIn c env e O :=
  .held ⟨around, ⟨covers, spans, fun _ => Source.Expr.standing_of_not_isPath value⟩, value⟩
    (by rwa [Finding.ids_ofExpr])

theorem tracks_literal (l : Source.Literal) : (literal env span l).FindsIn c env (.literal span l) 0 := by
  cases l with
  | integer text =>
    dsimp only [literal]
    split
    · exact tracks_reportFinding env _
    · refine (idle_perform (steady_freshTy env span)).before fun ty => ?_
      refine (idle_postNumeric env _ ty).before fun _ => ?_
      exact held_ofExpr env ⟨trivial, trivial⟩ .nothing rfl (fun _ => rfl) le_rfl
  | string text =>
    have makes (e : Core.Expr) (closed : e.binders = []) : (perform (Finding.temporary e)).Tracks
        c.custody (Holding (fun t => t.initializer = e) Temporary.binders) 0 := by
      have made := Finding.grants_temporary e
      rw [closed] at made
      exact made.tracks
    refine (makes _ rfl).bind_part fun bytes isBytes => (makes _ rfl).bind_part fun length isLength => ?_
    have bound : Temporary.effects [bytes, length] = [.plain .bind span, .plain .bind span] := by
      rw [Temporary.effects, List.flatMap_cons, List.flatMap_cons, isBytes, isLength]
      rfl
    refine held_ofExpr env ⟨⟨isBytes ▸ trivial, isLength ▸ trivial, trivial⟩, ?_⟩
      ⟨bound ▸ .refl _ _, .refl _ _⟩ rfl (fun _ => rfl) ?_
    · exact List.forall_mem_cons.mpr ⟨Set.mem_insert_of_mem _ (Set.mem_insert _ _),
        List.forall_mem_singleton.mpr (Set.mem_insert _ _)⟩
    · simp [Core.Expr.binders, Core.Node.binders, add_comm]
  | boolean text =>
    dsimp only [literal]
    split
    · exact held_ofExpr env ⟨trivial, trivial⟩ .nothing rfl (fun _ => rfl) le_rfl
    · split
      · exact held_ofExpr env ⟨trivial, trivial⟩ .nothing rfl (fun _ => rfl) le_rfl
      · trivial

theorem tracks_binary (op : Source.BinaryOperator) (opSpan : Span) (left right : Source.Expr) :
    (binary env span op opSpan left right).FindsIn c env (.binary span op opSpan left right) 0 := by
  refine (tracks_value env left).bind_part fun l ⟨inLeft, first⟩ => (tracks_value env right).bind_part
    fun r ⟨inRight, second⟩ => ?_
  have around := Temporary.Around.append inLeft inRight l.node.monotone_scopedIn r.node.monotone_scopedIn
  have held : Variable.ids ((l.temporaries ++ r.temporaries).flatMap Temporary.binders) +
      Variable.ids (l.node.binders ++ r.node.binders) ≤
      Variable.ids r.finding.binders + (Variable.ids l.finding.binders + 0) := by
    simp only [Lifted.finding, Finding.ids_ofExpr, Variable.ids_append, List.flatMap_append]
    exact le_of_eq (by abel)
  cases op with
  | and =>
    refine (idle_postBoolean env _).before fun _ => (idle_postBoolean env _).before fun _ => ?_
    have covers : ((Source.Expr.binary span .and opSpan left right).schedule env.scope.names).Covers _ _ _ :=
      first.covers.beside (second.covers.guard span true)
    refine held_ofExpr env (around.imp fun inner _ h => ?_) (by simpa using covers) rfl (fun _ => rfl) ?_
    · exact ⟨⟨h.1, ⟨h.2, trivial⟩, trivial, trivial⟩, trivial, trivial⟩
    · simpa [Core.Expr.ifThenElse, Core.Expr.binders, Core.Node.binders, Core.Arm.allBinders,
        Core.Arm.binders, Core.Expr.boolean] using held
  | or =>
    refine (idle_postBoolean env _).before fun _ => (idle_postBoolean env _).before fun _ => ?_
    have covers : ((Source.Expr.binary span .or opSpan left right).schedule env.scope.names).Covers _ _ _ :=
      first.covers.beside (second.covers.guard span false)
    refine held_ofExpr env (around.imp fun inner _ h => ?_) (by simpa using covers) rfl (fun _ => rfl) ?_
    · exact ⟨⟨h.1, trivial⟩, ⟨⟨h.2, trivial⟩, trivial, trivial⟩, trivial⟩
    · simpa [Core.Expr.ifThenElse, Core.Expr.binders, Core.Node.binders, Core.Arm.allBinders,
        Core.Arm.binders, Core.Expr.boolean] using held
  | operator op =>
    refine (idle_postOperands env opSpan _ _).before fun _ => ?_
    exact held_ofExpr env around (first.covers.beside second.covers) rfl (fun _ => rfl) held

theorem tracks_unary (op : UnaryOperator) (opSpan : Span) (operand : Source.Expr) :
    (unary env span op opSpan operand).FindsIn c env (.unary span op opSpan operand) 0 := by
  refine (tracks_value env operand).bind_part fun l ⟨inScope, yields⟩ => ?_
  have held : Variable.ids (l.temporaries.flatMap Temporary.binders) + Variable.ids l.node.binders ≤
      Variable.ids l.finding.binders + 0 := by simp [Lifted.finding]
  cases op with
  | not => exact (idle_postBoolean env _).before fun _ =>
    held_ofExpr env inScope yields.covers rfl (fun _ => rfl) held
  | negate => exact (idle_postNumeric env _ _).before fun _ =>
    held_ofExpr env inScope yields.covers rfl (fun _ => rfl) held

theorem tracks_recovering {p : Prog Finding} (h : p.FindsIn c env e O) : (recovering p).FindsIn c env e O := by
  rw [← add_zero O]
  refine h.andThen (fun f G given => ?_) fun e G => ?_
  · exact .held given.1 (given.2.trans (add_zero G).ge)
  · cases e with
    | reported r => exact tracks_ofReport env r
    | violated v => trivial

theorem tracks_lookupMember {owner : Finding} (suits : owner.Suits env.scope e) (name : Name)
    (held : Variable.ids owner.binders ≤ O) :
    (lookupMember env owner name span).FindsIn c env (.dot span e name) O := by
  have asks (ownerTy t : Ty) :
      (recovering (.ask (.member env owner ownerTy t name span))).FindsIn c env (.dot span e name) O := by
    refine tracks_recovering env (Tracks.awaited ⟨O, 0, (add_zero O).le, held, fun f G given => ?_,
      fun _ _ => trivial⟩)
    exact ⟨G, (add_zero G).ge, ⟨given.1.scope _ suits.1, given.1.follows _ e name suits.2⟩, given.2⟩
  unfold lookupMember
  split
  · exact asks _ _
  · exact asks _ _
  · exact tracks_reportFinding env _
  · exact tracks_reportFinding env _

theorem resolve_of_resolveName {name : String} {s : Session} {r : Resolution}
    (ended : ((resolveName env name span).exec s).1 = .ok (.ok r)) : env.scope.resolve name span = .ok r := by
  unfold resolveName at ended
  split at ended
  · rename_i found resolved
    cases ended
    exact resolved
  · cases ended

theorem relative_of_resolveRelative {r : Resolution} {name : String} {s : Session} {found : RelativeResolution}
    (ended : ((resolveRelative env r name span).exec s).1 = .ok (.ok found)) :
    r.relative s.program name span = .ok found := by
  simp only [resolveRelative, Action.exec_bind, Action.exec_get] at ended
  split at ended
  · rename_i relative resolved
    cases ended
    exact resolved
  · cases ended

theorem tracks_dot (owner : Source.Expr) (name : Name) :
    (dot env span owner name).FindsIn c env (.dot span owner name) 0 := by
  refine (tracks_ask env owner).bind_part fun f suits => ?_
  obtain ⟨ts, fSpan, found⟩ := f
  cases found with
  | place p | value e => exact (tracks_lookupMember env span suits name (add_zero _).ge).relayed
  | method self idSpan fn generics => exact tracks_reportFinding env _
  | name r =>
    refine Tracks.steady_bind (steady_resolveRelative env r _ _) fun relative ⟨s, ended⟩ => ?_
    split
    · exact tracks_ofReport env _
    · rename_i found
      have resolved := relative_of_resolveRelative env _ ended
      obtain ⟨⟨_, offered⟩, _, standing, named⟩ := suits
      -- A name does nothing, and a member of it has nothing to store.
      obtain ⟨path, quiet, _⟩ := owner.quiet_of_standing (standing ▸ named)
      refine (Finding.grants_ofResolution span (fun v offers => ?_) ?_ rfl ?_ rfl).tracks.mono (Multiset.zero_le _)
      · exact offered v (Resolution.offers_of_relative resolved offers)
      · rw [Source.Expr.schedule, quiet, Source.Expr.held, path]
        rfl
      · rw [Source.Expr.standing, standing]
        exact (Resolution.standing_of_relative resolved).symm
    · rename_i found
      obtain rfl := Resolution.eq_of_relative (relative_of_resolveRelative env _ ended)
      exact (tracks_lookupMember env span suits name (add_zero _).ge).relayed

theorem tracks_applyGenerics (r : Resolution) (written : List Source.Generic) :
    (applyGenerics env span r written).Tracks c.custody
      (fun found _ => ∀ r', found = .ok r' → r'.entity = r.entity) 0 := by
  have reports (report : Report) : (pure (.error report) : Prog (Except Report Resolution)).Tracks
      c.custody (fun found _ => ∀ r', found = .ok r' → r'.entity = r.entity) 0 :=
    ⟨0, le_rfl, nofun⟩
  refine (idle_perform (steady_genericTarget env span r)).before fun target => ?_
  split
  · exact reports _
  · dsimp only
    split
    · exact (idle_report env _).before fun _ => reports _
    · refine (idle_explicitGenerics env _ _ _).before fun found => ?_
      split
      · exact reports _
      · refine ⟨0, le_rfl, fun r' same => ?_⟩
        cases same
        rfl

theorem tracks_bracket (owner : Source.Expr) (args : List Source.Generic) :
    (bracket env span owner args).FindsIn c env (.bracket span owner args) 0 := by
  refine (tracks_ask env owner).bind_part fun f suits => ?_
  rw [add_zero]
  obtain ⟨ts, fSpan, found⟩ := f
  cases found with
  | place p =>
    cases p with
    | error r => exact tracks_ofReport env r
    | var span ty v | field span ty owner f => exact tracks_reportFinding env _
  | value e => exact tracks_reportFinding env _
  | method self idSpan fn generics =>
    cases generics with
    | none => exact .held suits le_rfl
    | some written => exact tracks_reportFinding env _
  | name r =>
    rw [← zero_add (Variable.ids _)]
    refine (tracks_applyGenerics env span r args).awaited.bind fun found G same => ?_
    split
    · exact tracks_ofReport env _
    · rename_i r'
      obtain ⟨⟨around, offered⟩, quiet, standing, named⟩ := suits
      have kept : r'.entity = r.entity := same r' rfl
      rw [← kept] at standing named
      exact .held ⟨⟨around, fun v offers => offered v (kept ▸ offers)⟩, quiet, standing, named⟩
        (Multiset.le_add_left _ G)

end Findings

section Calls

variable (env : Env)

theorem length_of_mapM {α β ε : Type} {f : α → Except ε β} {as : List α} {bs : List β}
    (mapped : as.mapM f = .ok bs) : bs.length = as.length := by
  induction as generalizing bs with
  | nil =>
    cases mapped
    rfl
  | cons a as ih =>
    rw [List.mapM_cons] at mapped
    obtain ⟨b, _, mapped⟩ := Except.exists_of_bind mapped
    obtain ⟨bs', rest, mapped⟩ := Except.exists_of_bind mapped
    cases mapped
    exact congrArg (· + 1) (ih rest)

theorem length_of_openInputs {s : Signature} {types types' : InputOutput} {places : List Place}
    (opened : s.openInputs types places = .ok types') : types'.inputTys.length = types.inputTys.length := by
  obtain ⟨substitution, _, opened⟩ := Except.exists_of_bind opened
  obtain ⟨inputTys, mapped, opened⟩ := Except.exists_of_bind opened
  obtain ⟨outputTy, _, opened⟩ := Except.exists_of_bind opened
  obtain ⟨whereClauses, _, opened⟩ := Except.exists_of_bind opened
  cases opened
  exact length_of_mapM mapped

theorem shared_arguments (l : List ((Argument × Variable) × Ty)) :
    Shared (fun g => c.custody.Takes g) (l.map fun ((a, v), inputTy) => Goal.argument env a v inputTy)
      (Variable.ids (l.flatMap fun x => x.1.1.binders)) := by
  induction l with
  | nil => trivial
  | cons x l ih =>
    refine ⟨Variable.ids x.1.1.binders, Variable.ids (l.flatMap fun x => x.1.1.binders), ?_, le_rfl, ih⟩
    rw [List.flatMap_cons, Variable.ids_append]

theorem given_arguments {l : List ((Argument × Variable) × Ty)} {fs : List Finding} {G : Multiset Nat}
    (given : c.custody.GivesAll (s := .finding)
      (l.map fun ((a, v), inputTy) => Goal.argument env a v inputTy) fs G) :
    ∃ ls, fs = ls.map Lifted.finding ∧ Holding (List.Forall₂ (Argument.Becomes env) (l.map (·.1.1)))
      (fun ls => ls.flatMap (·.finding.binders)) ls G := by
  induction l generalizing fs G with
  | nil =>
    obtain rfl : fs = [] := List.length_eq_zero_iff.mp given.1.symm
    exact ⟨[], rfl, .nil, Multiset.zero_le G⟩
  | cons x l ih =>
    cases fs with
    | nil => exact nomatch given.1
    | cons f fs =>
      obtain ⟨length, I, F, parts, ⟨first, rfl, becomes, own⟩, shared⟩ := given
      obtain ⟨rest, rfl, become, held⟩ := ih ⟨Nat.succ.inj length, shared⟩
      refine ⟨first :: rest, rfl, .cons becomes become, ?_⟩
      simp only [List.flatMap_cons, Variable.ids_append]
      exact (add_le_add own held).trans parts

theorem scopedIn_of_become {env : Env} {visible : Set Variable} {args : List Argument} {ls : List (Lifted Core.Expr)}
    (become : List.Forall₂ (Argument.Becomes env) args ls) (subset : env.scope.variables ⊆ visible)
    (inScope : ∀ a ∈ args, a.ScopedIn visible) : ∀ l ∈ ls, l.finding.ScopedIn visible := by
  induction become with
  | nil => exact nofun
  | cons own _ ih =>
    obtain ⟨first, rest⟩ := List.forall_mem_cons.mp inScope
    exact List.forall_mem_cons.mpr ⟨own.scope visible subset first, ih rest⟩

variable {args : List Argument} {inputs : List Variable} {ts : List Temporary} {O : Multiset Nat}

theorem tracks_arguments {tys : List Ty} (fresh : inputs.length = args.length) (count : tys.length = args.length) :
    (gathered (((args.zip inputs).zip tys).map fun ((a, v), inputTy) =>
      Goal.argument env a v inputTy)).Tracks c.custody
      (fun fs G => ∃ ls, fs = ls.map Lifted.finding ∧ Holding (List.Forall₂ (Argument.Becomes env) args)
        (fun ls => ls.flatMap (·.finding.binders)) ls G)
      (Variable.ids (args.flatMap Argument.binders)) := by
  have outer : ((args.zip inputs).zip tys).map Prod.fst = args.zip inputs :=
    List.map_fst_zip (by simp [fresh, count])
  have listed : ((args.zip inputs).zip tys).map (fun x => x.1.1) = args :=
    calc ((args.zip inputs).zip tys).map (fun x => x.1.1)
        = (((args.zip inputs).zip tys).map Prod.fst).map Prod.fst := (List.map_map ..).symm
      _ = args := by rw [outer, List.map_fst_zip fresh.ge]
  have asked : Variable.ids (args.flatMap Argument.binders) =
      Variable.ids (((args.zip inputs).zip tys).flatMap fun x => x.1.1.binders) := by
    conv_lhs => rw [← listed, List.flatMap_map]
  rw [asked]
  refine (Tracks.gathered (shared_arguments env _)).imp fun fs G given => ?_
  have become := given_arguments env given
  rwa [listed] at become

def argumentTemporaries (args : List (Variable × Core.Expr)) : List Temporary :=
  args.map fun arg => ⟨arg.1, arg.2⟩

theorem bindArguments_eq (args : List (Variable × Core.Expr)) (call : Core.Expr) :
    bindArguments args call = call.enclose (argumentTemporaries args) := by
  rw [argumentTemporaries, Core.Expr.enclose, List.foldr_map]
  rfl

section Arguments

variable {values : List Core.Expr} (same : inputs.length = values.length)
include same

theorem scopedIn_bindArguments {visible : Set Variable} (inScope : ∀ e ∈ values, e.ScopedIn visible) (span : Span)
    (ty : Ty) (f : Function) (substitution : List Term) :
    (bindArguments (inputs.zip values) (.mk span ty (.call f substitution inputs))).ScopedIn visible := by
  rw [bindArguments_eq, Core.Expr.scopedIn_enclose]
  refine ⟨Temporary.allScopedIn_of_forall ?_, fun v member => ?_⟩
  · exact List.forall_mem_map.mpr fun arg member => inScope _ (List.of_mem_zip member).2
  · -- Every input has a value, so that its variable is bound.
    rw [← List.map_fst_zip same.le] at member
    obtain ⟨arg, listed, rfl⟩ := List.mem_map.mp member
    exact Temporary.mem_after (List.mem_map_of_mem listed)

theorem ids_bindArguments (span : Span) (ty : Ty) (f : Function) (substitution : List Term) :
    Variable.ids (bindArguments (inputs.zip values) (.mk span ty (.call f substitution inputs))).binders =
      Variable.ids inputs + Variable.ids (values.flatMap Core.Expr.binders) := by
  rw [bindArguments_eq, Core.Expr.binders_enclose, Variable.ids_append]
  change _ + Variable.ids [] = _
  rw [Variable.ids_nil, add_zero]
  induction inputs generalizing values with
  | nil =>
    obtain rfl : values = [] := List.length_eq_zero_iff.mp same.symm
    rfl
  | cons v inputs ih =>
    cases values with
    | nil => exact nomatch same
    | cons e values =>
      have rest := ih (Nat.succ.inj same)
      simp only [argumentTemporaries] at rest
      simp only [argumentTemporaries, List.zip_cons_cons, List.map_cons, List.flatMap_cons,
        Temporary.binders, Variable.ids_append, Variable.ids_cons, rest]
      abel

theorem initializers_argumentTemporaries : (argumentTemporaries (inputs.zip values)).map (·.initializer) = values := by
  rw [argumentTemporaries, List.map_map]
  exact List.map_snd_zip same.ge

theorem effects_bindArguments (call : Core.Expr) :
    (bindArguments (inputs.zip values) call).effects = values.flatMap Core.Expr.bound ++ call.effects := by
  rw [bindArguments_eq, Core.Expr.effects_enclose, Temporary.effects, ← initializers_argumentTemporaries same,
    List.flatMap_map, initializers_argumentTemporaries same]

theorem isWhole_bindArguments (call : Core.Expr) :
    (bindArguments (inputs.zip values) call).isWhole = (values.all Core.Expr.isWhole && call.isWhole) := by
  rw [bindArguments_eq, Core.Expr.isWhole_enclose, Temporary.areWhole, ← initializers_argumentTemporaries same,
    List.all_map, initializers_argumentTemporaries same]
  rfl

end Arguments

variable {owner : Source.Expr} {es : List Source.Expr}

theorem tracks_callCommon (f : Function) (s : Signature) (span calleeSpan : Span) (substitution : List Term)
    (receiver : Option Core.Expr)
    (inScope : Temporary.Around env.scope.variables ts fun inner => ∀ v ∈ receiver.toList, v.ScopedIn inner)
    (callee : (owner.callee env.scope.names).Covers ts (receiver.toList.all Core.Expr.isWhole)
      (receiver.toList.flatMap Core.Expr.bound))
    (held : Variable.ids (ts.flatMap Temporary.binders) +
      Variable.ids (receiver.toList.flatMap Core.Expr.binders) ≤ O) :
    (callCommon env f s span calleeSpan substitution (receiver.toList.map .self ++ es.map .expr) ts).FindsIn
      c env (.call span owner es) O := by
  unfold callCommon
  refine (idle_log _ _ _).before fun _ => (idle_log _ _ _).before fun _ => Tracks.lift_bind fun types _ => ?_
  dsimp only
  split
  · exact tracks_reportFinding env _
  rename_i count
  have asked : (receiver.toList.map Argument.self ++ es.map Argument.expr).flatMap Argument.binders =
      receiver.toList.flatMap Core.Expr.binders := by
    rw [List.flatMap_append, Argument.binders_exprs, List.append_nil, List.flatMap_map]
    rfl
  rw [← asked] at held
  refine Tracks.mono ?_ held
  refine Tracks.bind_part (Action.grants_newVariables _ _).tracks fun inputs fresh => ?_
  refine Tracks.lift_bind fun types' opened => ?_
  refine (idle_log _ _ _).before fun _ => (idle_log _ _ _).before fun _ => ?_
  refine (Idle.forM (fun clause => idle_postWhereClause env _ _ _) _).before fun _ => ?_
  have tys := length_of_openInputs opened
  rw [← not_not.mp count] at tys
  rw [← add_assoc, add_comm]
  refine (tracks_arguments env fresh tys).bind fun findings G ⟨ls, made, become, given⟩ => ?_
  subst made
  rw [Lifted.toExprs_findings]
  refine Tracks.steady_bind (Action.steady_pure _) fun found ⟨s, ended⟩ => ?_
  cases ended
  have same : inputs.length = (Lifted.nodes ls).length := by rw [fresh, become.length_eq, List.length_map]
  have arguments : ∀ a ∈ receiver.toList.map Argument.self ++ es.map Argument.expr,
      a.ScopedIn (Temporary.after env.scope.variables ts) := List.forall_mem_append.mpr
    ⟨List.forall_mem_map.mpr inScope.2, List.forall_mem_map.mpr fun _ _ => trivial⟩
  have inside := Lifted.around_findings (scopedIn_of_become become (Temporary.subset_after _ ts) arguments)
  refine held_ofExpr env ⟨Temporary.allScopedIn_append.mpr ⟨inScope.1, inside.1⟩, ?_⟩ ?_ rfl
    (fun _ => by rw [bindArguments_eq, Core.Expr.span_enclose]; rfl) ?_
  · rw [Temporary.after_append]
    exact scopedIn_bindArguments same inside.2 _ _ _ _
  · obtain ⟨vs, split, covers⟩ := Argument.covers_call become
    rw [effects_bindArguments same, isWhole_bindArguments same, split, List.flatMap_append, List.all_append,
      Core.Expr.isWhole, Core.Node.isWhole, Bool.and_true]
    exact (callee.beside covers).andThen [.plain .call span]
  · rw [Lifted.ids_findings] at given
    simp only [ids_bindArguments same, List.flatMap_append, Variable.ids_append, id]
    refine le_trans (le_of_eq ?_) (add_le_add_left given _)
    abel

theorem tracks_callFunction (functionSpan span : Span) (f : Function) (es : List Source.Expr) (given : List Term)
    (quiet : owner.callee env.scope.names = {}) :
    (callFunction env functionSpan span f es given []).FindsIn c env (.call span owner es) O := by
  refine (idle_log _ _ _).before fun _ => (idle_log _ _ _).before fun _ => ?_
  refine (Idle.awaited (idle_signatureOrCheckArgs env f es [])).before fun found => ?_
  split
  · exact tracks_ofReport env _
  · split
    · trivial
    · refine (idle_perform (Action.within_freshFor Manner.checks_idle env _ _).steady).before fun inferred => ?_
      have callee : (owner.callee env.scope.names).Covers [] true [] := by
        rw [quiet]
        exact .nothing
      exact (tracks_callCommon env f _ _ _ _ none (by exact ⟨trivial, nofun⟩) callee (Multiset.zero_le O)).relayed

theorem tracks_callMethod (idSpan span : Span) (f : Function) {self : Core.Expr} (es : List Source.Expr)
    (written : Option (List Source.Generic))
    (inScope : Temporary.Around env.scope.variables ts fun inner => self.ScopedIn inner)
    (callee : (owner.callee env.scope.names).Covers ts self.isWhole self.bound)
    (held : Variable.ids (ts.flatMap Temporary.binders) + Variable.ids self.binders ≤ O) :
    (callMethod env idSpan span f self es written ts).FindsIn c env (.call span owner es) O := by
  refine (Idle.awaited (idle_signatureOrCheckArgs env f es _)).before fun found => ?_
  split
  · exact tracks_ofReport env _
  · refine (idle_methodSubstitution env idSpan f _ written).before fun substitution => ?_
    split
    · exact tracks_ofReport env _
    · refine (tracks_callCommon env f _ _ _ _ (some self) ⟨inScope.1, ?_⟩ ?_ ?_).relayed
      · exact List.forall_mem_singleton.mpr inScope.2
      · simpa using callee
      · simpa using held

theorem tracks_callClass (classSpan span : Span) (r : Resolution) (a : Aggregate) (es : List Source.Expr)
    (quiet : owner.callee env.scope.names = {}) :
    (callClass env classSpan span r a es []).FindsIn c env (.call span owner es) O := by
  refine (idle_perform (steady_resolveRelative env r _ _)).before fun found => ?_
  split
  · exact tracks_ofReport env _
  · exact (tracks_callFunction env _ _ _ es _ quiet).relayed
  · exact tracks_reportFinding env _
  · exact tracks_reportFinding env _

theorem tracks_call (span : Span) (owner : Source.Expr) (es : List Source.Expr) :
    (call env span owner es).FindsIn c env (.call span owner es) 0 := by
  refine (tracks_ask env owner).bind_part fun f ⟨inScope, follows⟩ => ?_
  rw [add_zero]
  obtain ⟨ts, fSpan, found⟩ := f
  dsimp only [Rules.call]
  split
  · refine (tracks_callMethod env _ _ _ es _ inScope follows ?_).relayed
    rw [Finding.binders, Variable.ids_append]
    exact le_rfl
  · exact tracks_ofReport env _
  · obtain ⟨rfl, standing, named⟩ := follows
    exact (tracks_callFunction env _ _ _ es _ (owner.quiet_of_standing (standing ▸ named)).2.2).relayed
  · obtain ⟨rfl, standing, named⟩ := follows
    exact (tracks_callClass env _ _ _ _ es (owner.quiet_of_standing (standing ▸ named)).2.2).relayed
  · exact tracks_reportFinding env _

end Calls

section Expressions

variable (env : Env) (span : Span)
variable {O : Multiset Nat}

theorem tracks_returnExpr {e : Source.Expr} {l : Lifted Core.Expr} {s : Schedule}
    (inScope : l.finding.ScopedIn env.scope.variables)
    (covers : s.Covers l.temporaries l.node.isWhole l.node.effects)
    (returns : e.schedule env.scope.names = s.andThen [.plain .ret span]) (value : e.isPath = false)
    (spans : span = e.valueSpan) (held : Variable.ids l.finding.binders ≤ O) :
    (returnExpr env span l).FindsIn c env e O := by
  unfold returnExpr
  split
  · exact tracks_reportFinding env _
  · refine (idle_postAssignable env _ _ _).before fun _ => held_ofExpr env inScope ?_ value (fun _ => spans) ?_
    · rw [returns]
      exact covers.andThen _
    · rwa [Lifted.finding, Finding.ids_ofExpr] at held

theorem tracks_arm (a : Source.Arm) : (arm env a).Tracks c.custody
    (Holding (fun b => b.ScopedIn env.scope.variables ∧ Core.Arm.Follows env.scope.names a b) Core.Arm.binders) 0 := by
  cases a with
  | when condition body =>
    refine (tracks_closedValue env condition).bind_part fun c inCondition => ?_
    refine (idle_postBoolean env c).before fun _ => (tracks_closedValue env body).bind_part fun b inBody => ?_
    refine .held ⟨⟨inCondition.1, inBody.1⟩, inCondition.2.1, inBody.2.1⟩ ?_
    simp [Core.Arm.binders, add_comm]
  | otherwise body =>
    refine (tracks_closedValue env body).bind_part fun b inBody => .held ⟨inBody.1, inBody.2.1⟩ ?_
    rw [add_zero]
    exact le_rfl

theorem tracks_arms (as : List Source.Arm) : (as.mapM (arm env)).Tracks c.custody
    (Holding (fun bs => Core.Arm.AllScopedIn env.scope.variables bs ∧ List.Forall₂ (Core.Arm.Follows env.scope.names) as bs)
      Core.Arm.allBinders) 0 := by
  induction as with
  | nil => exact .held ⟨trivial, .nil⟩ le_rfl
  | cons a as ih =>
    rw [List.mapM_cons]
    refine (tracks_arm env a).bind_part fun checked own => ih.bind_part fun rest others => ?_
    refine .held ⟨⟨own.1, others.1⟩, .cons own.2 others.2⟩ ?_
    simp [Core.Arm.allBinders, add_comm]

theorem tracks_cond (arms : List Source.Arm) : (cond env span arms).FindsIn c env (.cond span arms) 0 := by
  refine (tracks_arms env arms).bind_part fun checked ⟨inScope, follow⟩ => ?_
  have finishes (ty : Ty) : (do
      checked.forM fun arm =>
        postAssignable env arm.body.ty ty ⟨.subtype arm.body.span (.ty arm.body.ty) (.ty ty), []⟩
      return .ofExpr (.mk span ty (.cond checked)) : Prog Finding).FindsIn c env (.cond span arms)
        (Variable.ids (Core.Arm.allBinders checked) + 0) := by
    refine (Idle.forM (fun _ => idle_postAssignable env _ _ _) _).before fun _ => ?_
    exact held_ofExpr env ⟨trivial, inScope⟩ (.closed (Core.Arm.matches_all span follow)) rfl (fun _ => rfl)
      (add_comm _ _).le
  dsimp only
  split
  · exact (idle_perform (steady_freshTy env span)).before fun ty => finishes ty
  · exact finishes .unit

theorem tracks_permissionOp (op : PermissionOp) (e : Source.Expr) :
    (permissionOp env span op e).FindsIn c env (.permissionOp span op e) 0 := by
  refine (tracks_placeExpr env e).bind_part fun l ⟨inScope, covers⟩ => ?_
  split
  · exact tracks_ofReport env _
  · refine held_ofExpr env inScope covers rfl (fun _ => rfl) ?_
    simp [Core.Expr.binders, Core.Node.binders]

theorem tracks_withLocal {β : Type} {next : Env → Prog β} {R : β → Multiset Nat → Prop} {name : String} {v : Variable}
    {ty : Ty} (h : (next (env.withLocal name v)).Tracks c.custody R O) :
    (perform (Action.withLocal env name v ty) >>= next).Tracks c.custody R O := by
  have steady : (Action.withLocal env name v ty).Steady :=
    (Action.steady_setVariableTy v ty).bind fun _ => Action.steady_pure _
  refine Tracks.steady_bind steady fun env' ⟨s, ended⟩ => ?_
  cases ended
  exact h

theorem tracks_block (span : Span) : (env : Env) → (b : Source.Block) → (block env span b).Tracks c.custody
    (HeldExpr env.scope.variables (b.schedule env.scope.names).total (b.valueSpan span)) 0
  | _, .nil => .held ⟨trivial, .refl _ _, fun _ => rfl⟩ le_rfl
  | env, .tail e => tracks_closedValue env e
  | env, .statement _ e more => by
    refine (tracks_closedValue env e).bind_part fun head inHead => ?_
    refine Tracks.bind_part (tracks_block span env more).awaited fun tail inTail => ?_
    refine .held ⟨⟨inHead.1, inTail.1⟩, ?_, fun _ => rfl⟩ ?_
    · rw [Source.Block.schedule, Schedule.total_before]
      exact Matches.pair inHead.2.1 inTail.2.1
    · simp [Core.Expr.binders, Core.Node.binders, add_comm]
  | env, .letVar name declared more => by
    refine Tracks.relayed ((idle_letTy env name declared).before fun ty => ?_)
    refine Tracks.bind_part (Action.grants_newVariable .place (some name.id) name.span).tracks
      fun v ⟨place, spans⟩ => ?_
    refine tracks_withLocal env (Tracks.bind_part (tracks_block span _ more).awaited fun b ⟨inBody, follows, ends⟩ => ?_)
    rw [Env.names_withLocal env name.id place] at follows
    refine .held ⟨Core.Expr.ScopedIn.mono (env.variables_withLocal name.id v) b inBody, ?_, ends⟩ ?_
    · rw [Source.Block.schedule, Schedule.total_before, ← spans]
      exact (Matches.refl _ [.plain .bind v.span]).append follows
    · simp [Core.Expr.declare, Core.Expr.binders, Core.Node.binders, add_comm]
  | env, .letInit name declared initializer more => by
    refine Tracks.relayed ((idle_letTy env name declared).before fun ty => ?_)
    refine (tracks_closedValue env initializer).bind_part fun e ⟨inInitializer, first, spans⟩ => ?_
    refine (idle_postAssignable env _ _ _).before fun _ => ?_
    refine Tracks.bind_part (Action.grants_newVariable .place (some name.id) name.span).tracks
      fun v ⟨place, _⟩ => ?_
    refine tracks_withLocal env (Tracks.bind_part (tracks_block span _ more).awaited fun b ⟨inBody, follows, ends⟩ => ?_)
    rw [Env.names_withLocal env name.id place] at follows
    have inScope := Core.Expr.ScopedIn.mono (env.variables_withLocal name.id v) b inBody
    have binds : Matches e.isWhole e.binding initializer.binding :=
      .binding fun whole => by rw [spans whole]; rfl
    refine .held ⟨⟨inInitializer, inScope⟩, ?_, fun whole => ends (Bool.and_eq_true_iff.1 whole).2⟩ ?_
    · rw [Source.Block.schedule, Schedule.total_before, Schedule.total_andThen]
      exact Matches.pair (first.append binds) follows
    · simp only [Core.Expr.letIn, Core.Expr.binders, Core.Node.binders, Variable.ids_cons,
        Variable.ids_append, Variable.ids_nil]
      exact le_of_eq (by abel)

theorem tracks_tuple (elements : List Source.Expr) :
    (exprForm env (.tuple span elements)).FindsIn c env (.tuple span elements) 0 := by
  refine (tracks_values env elements).bind_part fun found ⟨around, covers⟩ => ?_
  obtain ⟨es, ts⟩ := found
  refine held_ofExpr env (around.imp fun _ _ inScope => Core.Expr.allScopedIn_iff.mpr inScope) covers rfl
    (fun _ => rfl) ?_
  simp [Core.Expr.binders, Core.Node.binders, Core.Expr.allBinders_eq]

theorem tracks_assign (target e : Source.Expr) :
    (exprForm env (.assign span target e)).FindsIn c env (.assign span target e) 0 := by
  refine (tracks_placeExpr env target).bind_part fun p ⟨inTarget, first⟩ => ?_
  refine (tracks_value env e).bind_part fun v ⟨inValue, second⟩ => (idle_postAssignable env _ _ _).before fun _ => ?_
  refine held_ofExpr env
    (Temporary.Around.append inTarget inValue p.node.monotone_scopedIn v.node.monotone_scopedIn)
    ((first.beside second.covers).andThen [.plain .assign span]) rfl (fun _ => rfl) ?_
  simp only [Lifted.finding, Finding.ids_ofExpr, Finding.ids_ofPlace, Core.Expr.binders, Core.Node.binders,
    List.flatMap_append, Variable.ids_append]
  exact le_of_eq (by abel)

theorem tracks_id (name : String) : (exprForm env (.id span name)).FindsIn c env (.id span name) 0 := by
  refine Tracks.steady_bind (steady_resolveName env name span) fun found ⟨s, ended⟩ => ?_
  split
  · exact tracks_ofReport env _
  · have resolved := resolve_of_resolveName env span ended
    refine (Finding.grants_ofResolution span (fun v offers => ?_) rfl rfl ?_ rfl).tracks
    · exact Scope.mem_variables_of_resolve resolved offers
    · exact Scope.names_of_resolve resolved

theorem tracks_await (e : Source.Expr) (awaitSpan : Span) :
    (exprForm env (.await span e awaitSpan)).FindsIn c env (.await span e awaitSpan) 0 := by
  refine (tracks_value env e).bind_part fun l ⟨inScope, yields⟩ => ?_
  refine (idle_perform (steady_freshTy env awaitSpan)).before fun awaited => ?_
  refine (idle_postFuture env _ _ _).before fun _ =>
    held_ofExpr env inScope (yields.covers.andThen [.plain .await span]) rfl (fun _ => rfl) ?_
  simp [Lifted.finding, Core.Expr.binders, Core.Node.binders]

theorem tracks_exprForm (e : Source.Expr) : (exprForm env e).FindsIn c env e 0 := by
  cases e with
  | literal span l => exact tracks_literal env span l
  | tuple span elements => exact tracks_tuple env span elements
  | binary span op opSpan left right => exact (tracks_binary env span op opSpan left right).relayed
  | assign span target e => exact tracks_assign env span target e
  | id span name => exact tracks_id env span name
  | dot span owner name => exact (tracks_dot env span owner name).relayed
  | bracket span owner args => exact (tracks_bracket env span owner args).relayed
  | call span owner args => exact (tracks_call env span owner args).relayed
  | returnUnit span =>
    exact tracks_returnExpr env span (l := ⟨.unit span, []⟩) (s := {}) ⟨trivial, trivial⟩ .nothing rfl rfl rfl le_rfl
  | returnValue span e =>
    refine (tracks_value env e).bind_part fun l ⟨inScope, yields⟩ =>
      tracks_returnExpr env span inScope yields.covers rfl rfl rfl ?_
    exact (add_zero _).ge
  | await span e awaitSpan => exact tracks_await env span e awaitSpan
  | unary span op opSpan operand => exact (tracks_unary env span op opSpan operand).relayed
  | cond span arms => exact (tracks_cond env span arms).relayed
  | permissionOp span op e => exact (tracks_permissionOp env span op e).relayed
  | block span b =>
    refine Tracks.bind_part (tracks_block span env b).awaited fun checked ⟨inScope, follows, ends⟩ => ?_
    exact held_ofExpr env ⟨trivial, inScope⟩ (.closed follows) rfl ends (add_comm _ _).le

theorem tracks_expr (e : Source.Expr) : (expr env e).FindsIn c env e 0 := by
  refine (idle_log _ _ _).before fun _ => Tracks.bind_part (tracks_exprForm env.fork e).awaited
    fun f suits => (idle_log _ _ _).before fun _ => .held suits ?_
  exact (add_zero _).ge

theorem tracks_argument (a : Argument) (v : Variable) (inputTy : Ty) {I : Multiset Nat}
    (held : Variable.ids a.binders ≤ I) :
    (argument env a v inputTy).Tracks c.custody (c.custody.Gives (.argument env a v inputTy)) I := by
  have finishes (l : Lifted Core.Expr) {O : Multiset Nat}
      (becomes : a.Becomes env l) (held : Variable.ids l.finding.binders ≤ O) : (do
        Action.setVariableTy v l.node.ty
        postAssignable env.fork l.node.ty inputTy
          ⟨.subtype l.node.span (.ty l.node.ty) (.ty inputTy), []⟩
        return .ofExpr l.node l.temporaries : Prog Finding).Tracks c.custody
      (c.custody.Gives (.argument env a v inputTy)) O :=
    (idle_perform (Action.steady_setVariableTy v _)).before fun _ =>
      (idle_postAssignable env.fork _ _ _).before fun _ => ⟨O, le_rfl, l, rfl, becomes, held⟩
  cases a with
  | self e =>
    refine finishes ⟨e, []⟩ ⟨fun _ _ inScope => ⟨trivial, inScope⟩, rfl⟩ ?_
    simpa [Argument.binders, Lifted.finding] using held
  | expr e =>
    refine Tracks.mono ?_ (Multiset.zero_le I)
    refine (tracks_ask env.fork e).bind_part fun f suits => ?_
    refine (tracks_toExpr env.fork suits).bind_holding fun l given =>
      finishes l ⟨fun _ subset _ => given.1.mono subset, given.2⟩ ?_
    exact (add_zero _).ge

theorem tracks_member (owner : Finding) (ownerTy t : Ty) (name : Name) {I : Multiset Nat}
    (held : Variable.ids owner.binders ≤ I) :
    (member env owner ownerTy t name span).Tracks c.custody
      (c.custody.Gives (.member env owner ownerTy t name span)) I := by
  have broken (r : Report) : owner.BecomesMember span (.ofReport r) :=
    ⟨fun visible _ => Finding.scopedIn_ofReport visible r, fun _ _ _ _ => Finding.follows_ofReport _ _ r⟩
  have reports (d : Diagnostic) : (perform (reportFinding env d)).Tracks c.custody
      (c.custody.Gives (.member env owner ownerTy t name span)) I :=
    Action.Grants.tracks ((Action.steady_report env d).bind_grants fun r =>
      Action.grants_pure (broken r) (Multiset.zero_le I))
  unfold member
  dsimp only
  split
  · refine (idle_perform Action.steady_get).before fun s => ?_
    split
    · rw [← add_zero (Variable.ids _)] at held
      refine Tracks.mono ?_ held
      refine (Finding.grants_toPlace env owner).tracks.bind_holding fun l becomes => ?_
      refine Idle.before (idle_ask trivial) fun _ =>
        .held ⟨becomes.scope, fun names e name follows => ?_⟩ (add_zero _).ge
      obtain ⟨covers, value⟩ := becomes.follows names e follows
      refine ⟨⟨covers, fun _ => rfl, fun whole => ?_⟩, fun _ => rfl⟩
      rw [Source.Expr.standing, value whole]
      rfl
    · split
      · exact reports _
      · rw [← add_zero (Variable.ids _)] at held
        refine Tracks.mono ?_ held
        refine (Finding.grants_toExpr env owner).tracks.bind_holding fun l becomes => ?_
        refine .held ⟨becomes.scope, fun names e _ follows => ?_⟩ (add_zero _).ge
        have yields := becomes.follows names e follows
        refine yields.covers.bound fun whole => ?_
        rw [Source.Expr.receiver, yields.value whole, yields.span whole]
        rfl
    · exact reports _
  · exact reports _
  · refine Idle.before (idle_ask trivial) fun bound => ?_
    split
    · refine Tracks.relayed ⟨I, 0, (add_zero I).le, held, fun f G given => ?_, fun _ _ => trivial⟩
      exact ⟨G, (add_zero G).ge, given⟩
    · exact reports _
  · exact .held (broken _) (Multiset.zero_le I)
  · exact reports _
  · exact reports _

theorem tracks_keep {e : Core.Expr} (inScope : e.ScopedIn c.visible)
    (follows : Matches e.isWhole e.effects (c.body.schedule c.names).total) (held : Variable.ids e.binders ≤ O) :
    (body.keep e).Tracks c.custody (fun _ _ => True) O := by
  intro s _ nodup fresh
  refine ⟨le_rfl, fun e' kept => ?_, 0, Multiset.zero_le _, trivial⟩
  cases kept
  refine ⟨⟨inScope, Multiset.coe_nodup.mp (Multiset.nodup_of_le held nodup), fun v member => ?_⟩, follows⟩
  exact fresh v.id (Multiset.mem_of_le held (Multiset.mem_coe.mpr (List.mem_map_of_mem member)))

theorem tracks_body (expected : Option Ty) (subset : env.scope.variables ⊆ c.visible)
    (names : env.scope.names = c.names) : (body env c.body expected).Tracks c.custody (fun _ _ => True) 0 := by
  have checks : (body.checked expected env c.body).Tracks c.custody
      (HeldExpr c.visible (c.body.schedule c.names).total c.body.valueSpan) 0 := by
    rw [← names]
    refine (tracks_closedValue env c.body).bind_part fun value ⟨inScope, follows⟩ => ?_
    have finishes : (pure value : Prog Core.Expr).Tracks c.custody
        (HeldExpr c.visible (c.body.schedule env.scope.names).total c.body.valueSpan)
        (Variable.ids value.binders + 0) :=
      .held ⟨Core.Expr.ScopedIn.mono subset value inScope, follows⟩ (add_zero _).ge
    cases expected with
    | some ty => exact (idle_postAssignable env _ _ _).before fun _ => finishes
    | none => exact finishes
  rw [← add_zero 0]
  refine checks.awaited.andThen (fun checked G given => ?_) fun failure G => ?_
  · exact tracks_keep given.1.1 given.1.2.1 (given.2.trans (add_zero G).ge)
  · cases failure with
    | reported r => exact tracks_keep trivial (.broken (List.nil_sublist _)) (Multiset.zero_le _)
    | violated v => trivial

/-- Every rule hands over what it binds, and a body that is kept is well scoped and does what is expected. -/
theorem tracked_answer : Rules.answer.Tracked c.custody := by
  intro s g I taken
  refine Tracks.noted ?_
  have light (plain : s ≠ .finding) (light : g.Light) (gives : ∀ v G, g.GivesIn v G) :
      (Rules.rule s g).Tracks c.custody (c.custody.Gives g) I :=
    ((idle_rule g plain light).tracks c.lenient).imp fun v G _ => gives v G
  cases g with
  | body env e expected =>
    obtain ⟨subset, names, rfl⟩ := taken
    exact (tracks_body env expected subset names).mono (Multiset.zero_le I)
  | expr env e => exact (tracks_expr env e).mono (Multiset.zero_le I)
  | argument env a v inputTy => exact tracks_argument env a v inputTy taken
  | member env owner ownerTy t name span => exact tracks_member env span owner ownerTy t name taken
  | _ => exact light nofun trivial fun _ _ => trivial

end Expressions

end Rules

namespace World

def checkedBody (env : Env) (body : Source.Expr) (expected : Option Ty) (s : Session) :
    Option Core.Expr :=
  let m : Machine Empty := { session := s }
  (drive (m.spawn "check body" (Rules.answer .unit (.body env.fork body expected)))).2.session.outcome

theorem drive_snd {β : Type} (m : Machine β) : (drive m).2 = (m.drive Rules.answer budget budget).2 := by
  unfold drive
  split
  · rename_i found
    rw [found]
  · rename_i found
    rw [found]

variable {body : Source.Expr} {expected : Option Ty} {s : Session}

theorem keeps_checkedBody {K : Custody} (tracked : Rules.answer.Tracked K) (lenient : K.Lenient) {env : Env}
    {e : Core.Expr} (new : s.outcome = none) (started : K.first ≤ s.nextSymbol)
    (taken : K.Takes (.body env.fork body expected) 0) (checked : checkedBody env body expected s = some e) :
    K.Keeps e := by
  have idle : ({ session := s } : Machine Empty).Guarded K := Machine.guarded_idle new started
  have spawned := idle.spawn tracked "check body" taken
  refine (spawned.drive tracked (fun _ _ _ _ => lenient _ trivial) budget budget).safe e ?_
  rw [← checked, checkedBody, drive_snd]

theorem keeps_of_checkedBody {env : Env} {e : Core.Expr} (new : s.outcome = none)
    (checked : checkedBody env body expected s = some e) :
    e.WellScoped env.scope.variables s.nextSymbol ∧ Matches e.isWhole e.effects (body.schedule env.scope.names).total := by
  let c : Checking := ⟨env.scope.variables, env.scope.names, s.nextSymbol, body⟩
  have taken : c.custody.Takes (.body env.fork body expected) 0 := ⟨subset_rfl, rfl, rfl⟩
  exact keeps_checkedBody Rules.tracked_answer c.lenient new le_rfl taken checked

theorem checkedBody_of_runSession {env : Env} {r : CheckResult} (ended : runSession env body expected s = .ok r) :
    ∃ e s' s'', checkedBody env body expected s = some e ∧ (e.resolve env).run.run s' = (.ok r.expr, s'') := by
  unfold runSession at ended
  dsimp only at ended
  split at ended
  · cases ended
  · rename_i m driven
    split at ended
    · cases ended
    · rename_i e kept
      split at ended
      · cases ended
      · rename_i expr s'' resolved
        cases ended
        exact ⟨e, m.session, s'', by rw [checkedBody, driven, kept], resolved⟩

/-- A tree without inference variables does what is scheduled, and if no error stands in it, exactly that. -/
theorem runSession_follows {env : Env} {r : CheckResult} (new : s.outcome = none)
    (ended : runSession env body expected s = .ok r) :
    Matches r.expr.isWhole r.expr.effects (body.schedule env.scope.names).total := by
  obtain ⟨e, _, _, checked, resolved⟩ := checkedBody_of_runSession ended
  have same := Core.Expr.view_of_resolve resolved
  rw [show r.expr.effects = e.effects from congrArg Core.View.effects same,
    show r.expr.isWhole = e.isWhole from congrArg Core.View.isWhole same]
  exact (keeps_of_checkedBody new checked).2

/-- Whatever is checked in whatever scope, the checked tree uses only variables of that scope and those
that it binds around their use, and binds no variable twice; and so does the tree in which inference
variables are replaced. -/
theorem runSession_wellScoped (env : Env) (body : Source.Expr) (expected : Option Ty) (s : Session)
    (new : s.outcome = none) :
    (∀ e, checkedBody env body expected s = some e →
      e.WellScoped env.scope.variables s.nextSymbol) ∧
    ∀ r, runSession env body expected s = .ok r →
      r.expr.WellScoped env.scope.variables s.nextSymbol := by
  refine ⟨fun e checked => (keeps_of_checkedBody new checked).1, fun r ended => ?_⟩
  obtain ⟨e, s', s'', checked, resolved⟩ := checkedBody_of_runSession ended
  have same := Core.Expr.view_of_resolve resolved
  obtain ⟨inScope, once, fresh⟩ := (keeps_of_checkedBody new checked).1
  have binders : r.expr.binders = e.binders := congrArg Core.View.binders same
  refine ⟨?_, binders ▸ once, binders ▸ fresh⟩
  rwa [show r.expr.ScopedIn _ = e.ScopedIn _ from congrFun (congrArg Core.View.Scoped same) _]

section Padding

def repeats : Variable := ⟨8, .place, some "n", default⟩

def pad : Function where
  id := 9
  name := "pad"
  span := default
  hasSelf := true
  signature := .ok
    { generics := []
      ownGenerics := []
      inputs := [⟨10, .place, some "self", default⟩, ⟨11, .place, some "text", default⟩,
        ⟨12, .place, some "times", default⟩]
      types :=
        { inputTys := [Prelude.stringTy, Prelude.stringTy, .primitive .u32]
          outputTy := Prelude.stringTy
          whereClauses := [] } }

def padding : Session where
  config := {}
  program := Prelude.program.addFunction Prelude.string pad
  variableTys := [(repeats, .primitive .u32)]
  nextSymbol := 13
  nextReport := 0

def paddingEnv : Env := (Env.root []).withLocal "n" repeats

/-- `"a".pad("b", n.give)` -/
def padded : Source.Expr :=
  .call default (.dot default (.literal default (.string "a")) ⟨"pad", default⟩)
    [.literal default (.string "b"), .permissionOp default .give (.id default "n")]

theorem runSession_wellScoped_padded : padding.outcome = none ∧
    (∃ e, checkedBody paddingEnv padded none padding = some e ∧
      e.WellScoped paddingEnv.scope.variables padding.nextSymbol) ∧
    ∃ r, runSession paddingEnv padded none padding = .ok r ∧ r.expr.binders.length = 7 ∧
      r.expr.WellScoped paddingEnv.scope.variables padding.nextSymbol := by
  have ran : (runSession paddingEnv padded none padding).toOption.map (·.expr.binders.length) = some 7 := by
    decide +kernel
  cases ended : runSession paddingEnv padded none padding with
  | error failure =>
    rw [ended] at ran
    cases ran
  | ok r =>
    rw [ended] at ran
    obtain ⟨e, _, _, checked, _⟩ := checkedBody_of_runSession ended
    obtain ⟨unresolved, resolved⟩ := runSession_wellScoped paddingEnv padded none padding rfl
    exact ⟨rfl, ⟨e, checked, unresolved e checked⟩, r, rfl, Option.some.inj ran, resolved r ended⟩

end Padding

end World

end Ownership
