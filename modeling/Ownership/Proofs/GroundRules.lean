import Ownership.Proofs.GroundTests

namespace Ownership

namespace Session

variable {s : Session} {env e : Env} {quiet owing : Prop} {arity : TyName → List Kind} {places : List Place}
variable {w : Moment} {o : Obligation} {t u : Ty}

theorem meets_refuse {A : Asks} {P : Prop} {because : Because} (loud : ¬ quiet) :
    (Prog.refuse e o because).Meets (s.ground env quiet) A owing (s.Settled P quiet) w := by
  refine .perform fun v leads => ?_
  obtain ⟨report, trace, refused⟩ := Action.exec_refuse (α := Unit) e o because v.session
  have more : v.session.diagnostics.length < (v.session.diagnostics ++ [o.failure because]).length := by simp
  obtain ⟨program, tys, _, least, lowers⟩ := leads.sound
  simp only [refused, Moment.after]
  refine ⟨⟨Nat.le_of_lt more, program, tys, fun calm => (loud calm).elim, Nat.le_trans least (Nat.le_of_lt more), lowers⟩,
    fun _ => id, fun u later => .inr ⟨loud, ⟨_, rfl⟩, ?_⟩⟩
  exact Nat.lt_of_lt_of_le (Nat.lt_of_le_of_lt least more) later.1

theorem meets_claim {g : Goal .unit} (sure : s.Sure env quiet g) (may : owing) :
    (Prog.relay g).Settles (s.ground env quiet) owing (s.Settled (g.Right s env) quiet) w :=
  .relay fun v leads => ⟨sure v leads.sound, fun _ => may, fun _ _ _ => id⟩

theorem meets_each {goals : List (Goal .unit)} {P : Prop} (sure : ∀ g ∈ goals, s.Sure env quiet g)
    (all : (∀ g ∈ goals, g.Right s env) → P) :
    (Prog.each goals).Settles (s.ground env quiet) owing (s.Settled P quiet) w := by
  refine .each fun v leads => ⟨fun g member => sure g member v leads.sound, fun u later => ⟨?_, ?_⟩⟩
  · intro posts
    refine .inl ⟨rfl, all fun g member => ?_⟩
    rcases posts g member with ⟨_, right⟩ | ⟨_, ⟨_, wrong⟩, _⟩
    · exact right
    · cases wrong
  · intro failure g member post
    rcases post with ⟨wrong, _⟩ | refused
    · cases wrong
    · exact .inr refused

theorem sure_perms {l u : Perm} (lower : l.Definite) (upper : u.Definite) (right : quiet → l.Below u) :
    s.Sure env quiet (.subPerms e l u o) := by
  refine sure_of_rule fun w sound => ?_
  obtain ⟨c, foundl⟩ := Chain.ofPerm_definite lower
  obtain ⟨d, foundu⟩ := Chain.ofPerm_definite upper
  change (Rules.subPerms e l u o).Settles _ _ _ _
  unfold Rules.subPerms
  split
  · rename_i same
    subst same
    exact .ok fun _ _ => .inl ⟨rfl, Perm.below_self lower⟩
  · simp only [Rules.chainOf, foundl, foundu]
    change (Rules.subChains e c d o).Settles _ _ _ _
    have plainl := Chain.definite_ofPerm lower foundl
    have plainu := Chain.definite_ofPerm upper foundu
    simp only [Rules.subChains, Chain.bareInfer_eq_none plainl, Chain.bareInfer_eq_none plainu,
      Chain.hasInfer_eq_false plainl, Chain.hasInfer_eq_false plainu, Bool.or_self,
      Bool.false_eq_true, if_false]
    split
    · rename_i below
      exact .ok fun _ _ => .inl ⟨rfl, c, d, foundl, foundu, below⟩
    · rename_i apart
      refine meets_refuse fun calm => apart ?_
      obtain ⟨c', d', foundl', foundu', below⟩ := right calm
      rw [foundl] at foundl'
      rw [foundu] at foundu'
      cases foundl'
      cases foundu'
      exact below

theorem meets_withoutCopyPerm (types : s.TypesPlaces arity places) (agrees : env.Agrees e)
    (ground : Term.Ground arity places (.ty t)) :
    (Rules.withoutCopyPerm e t.red).Settles (s.ground env quiet) owing (fun r _ =>
      ∃ q, r = .ok ⟨t.head, q⟩ ∧ (t.head ≠ .never → q = t.effective s env) ∧ q.Definite) w := by
  have effective : t.effective s env = .my ∨ t.effective s env = t.red.perm := by
    unfold Ty.effective
    split
    · exact .inl rfl
    · exact .inr rfl
  unfold Rules.withoutCopyPerm
  dsimp only
  split
  · rename_i stays
    refine .ok fun v _ => ⟨t.red.perm, rfl, fun head => ?_, ground.1.perm⟩
    rw [Bool.or_eq_true, decide_eq_true_eq, Bool.not_eq_true'] at stays
    rcases stays with my | flexible
    · rcases effective with same | same
      · exact my.trans same.symm
      · exact same.symm
    · have never : t.head = .never := by
        rcases ground.1.head with ⟨name, args, named, _⟩ | ⟨v, var⟩ | never
        · exact nomatch (congrArg Head.isRigid named).symm.trans flexible
        · exact nomatch (congrArg Head.isRigid var).symm.trans flexible
        · exact never
      exact (head never).elim
  · have clear : s.Clear .copy (.ty t.head.toTy) :=
      types.bare.clear ground.1.toTy.bare fun _ h => ground.2 (t.leases_head h)
    refine .bind (meets_ask agrees clear) (fun b v _ tells => ?_) fun e v _ wrong => ?_
    · obtain ⟨_, same, copy⟩ := tells
      cases same
      split
      · rename_i holds
        refine .log_bind (.ok fun u _ => ⟨.my, rfl, fun _ => ?_, trivial⟩)
        exact (if_pos (copy.mp holds)).symm
      · rename_i fails
        refine .ok fun u _ => ⟨t.red.perm, rfl, fun _ => ?_, ground.1.perm⟩
        exact (if_neg fun proves => fails (copy.mpr proves)).symm
    · obtain ⟨_, wrong, _⟩ := wrong
      cases wrong

theorem sure_permsOfHeads {l u : RedTy} (lower : l.perm.Definite) (upper : u.perm.Definite)
    (known : Rules.inferredHead l.head u.head = none) (right : quiet → l.perm.Below u.perm) :
    s.Sure env quiet (.subPermsOfHeads e l u o) := by
  refine sure_of_rule fun w sound => ?_
  change (Rules.subPermsOfHeads e l u o).Settles _ _ _ _
  unfold Rules.subPermsOfHeads
  split
  · rename_i same
    have below : l.perm.Below u.perm := same ▸ Perm.below_self lower
    exact .ok fun _ _ => .inl ⟨rfl, below⟩
  · have sure : s.Sure env quiet (.subPerms e l.perm u.perm o) := sure_perms lower upper right
    rw [known]
    exact .ask fun v leads => ⟨sure v leads.sound, id, fun _ _ _ post => post⟩

theorem sure_terms {l u : Term} {k : Kind} (lower : l.Definite arity k) (upper : u.Definite arity k)
    (right : quiet → s.Below env l u)
    (tys : ∀ t v, l = .ty t → u = .ty v → s.Sure env quiet (.subTys e t v o)) : s.Sure env quiet (.subTerms e l u o) := by
  refine sure_of_rule fun w sound => ?_
  rcases lower.cases with ⟨t, rfl, rfl, _⟩ | ⟨p, rfl, rfl, lower⟩
  · obtain ⟨v, rfl, _⟩ | ⟨_, _, wrong, _⟩ := upper.cases
    · exact meets_claim (g := .subTys e t v o) (tys t v rfl rfl) rfl
    · cases wrong
  · obtain ⟨_, _, wrong, _⟩ | ⟨q, rfl, _, upper⟩ := upper.cases
    · cases wrong
    · have sure : s.Sure env quiet (.subPerms e p q o) :=
        sure_perms lower upper fun calm => below_perm.mp (right calm)
      refine (meets_claim (g := .subPerms e p q o) sure rfl).mono fun r v _ ends => ?_
      change s.Settled (s.Below env (.perm p) (.perm q)) quiet r v
      rw [below_perm]
      exact ends

theorem subArguments_eq {as bs : List Term} (same : as.length = bs.length) :
    Rules.subArguments e o as bs = .ok ((as.zip bs).map fun pair => .subTerms e pair.1 pair.2 o) := by
  induction as generalizing bs with
  | nil => rfl
  | cons a as ih =>
    match bs, same with
    | b :: bs, same =>
      rw [Rules.subArguments, ih (Nat.succ.inj same)]
      rfl

theorem sure_heads {l u : Head} (lower : l.toTy.Definite arity) (upper : u.toTy.Definite arity)
    (right : quiet → s.HeadsBelow env l u)
    (args : ∀ name as bs, l = .named name as → u = .named name bs →
      ∀ pair ∈ as.zip bs, s.Sure env quiet (.subTerms e pair.1 pair.2 o)) : s.Sure env quiet (.subHeads e l u o) := by
  refine sure_of_rule fun w sound => ?_
  change (Rules.subHeads e l u o).Settles (s.ground env quiet) _ (s.Settled (s.HeadsBelow env l u) quiet) w
  have mismatch (apart : ¬ s.HeadsBelow env l u) : (Rules.headMismatch e l u o).Settles (s.ground env quiet)
      (Shape.unit = .unit) (s.Settled (s.HeadsBelow env l u) quiet) w :=
    meets_refuse fun calm => apart (right calm)
  match l, u with
  | .infer _, _ => exact lower.elim
  | _, .infer _ => exact upper.elim
  | .error _, _ => exact lower.elim
  | _, .error _ => exact upper.elim
  | .never, .never | .never, .named _ _ | .never, .var _ | .named _ _, .never | .named _ _, .var _ | .var _, .never
  | .var _, .named _ _ => exact mismatch id
  | .var v, .var v' =>
    rw [Rules.subHeads]
    split
    · rename_i same
      exact .ok fun _ _ => .inl ⟨rfl, same⟩
    · exact mismatch ‹_›
  | .named n as, .named m bs =>
    rw [Rules.subHeads]
    split
    · rename_i same
      subst same
      have length : as.length = bs.length := lower.length.trans upper.length.symm
      rw [subArguments_eq length]
      refine (meets_each (List.forall_mem_map.mpr (args n as bs rfl rfl)) fun all => ?_ : Prog.Meets _ _ _ _ _ _).relayed
      exact ⟨rfl, length, List.forall_mem_map.mp all⟩
    · rename_i apart
      exact mismatch fun below => apart below.1

theorem subApart_eq (rigid : t.head.isRigid = true) (upper : u.Definite arity) : Rules.subApart e t u o =
      (Rules.withoutCopyPerm e t.red).awaited >>= fun l =>
        (Rules.withoutCopyPerm e u.red).awaited >>= fun r => Rules.subReduced e t u l r o := by
  unfold Rules.subApart
  split
  · rename_i head
    simp [head, Head.isRigid] at rigid
  · rename_i head
    rcases upper.head with ⟨_, _, named, _⟩ | ⟨_, var⟩ | never <;> simp_all
  · rename_i head _
    simp [head, Head.isRigid] at rigid
  · rfl

theorem subApart_never (never : t.head = .never) (upper : u.Definite arity) : Rules.subApart e t u o = pure () := by
  unfold Rules.subApart
  rw [never]
  rcases upper.head with ⟨_, _, head, _⟩ | ⟨_, head⟩ | head <;> rw [head]

theorem bareInfer_eq_none {p : Perm} (definite : t.Definite arity) : RedTy.bareInfer ⟨t.head, p⟩ = none := by
  rcases definite.head with ⟨_, _, head, _⟩ | ⟨_, head⟩ | head <;> rw [head] <;> rfl

theorem inferredHead_eq_none (lower : t.Definite arity) (upper : u.Definite arity) :
    Rules.inferredHead t.head u.head = none := by
  rcases lower.head with ⟨_, _, head, _⟩ | ⟨_, head⟩ | head <;> rw [head] <;>
    rcases upper.head with ⟨_, _, head', _⟩ | ⟨_, head'⟩ | head' <;> rw [head'] <;> rfl

theorem subReduced_eq {p q : Perm} (lower : t.Definite arity)
    (upper : u.Definite arity) : Rules.subReduced e t u ⟨t.head, p⟩ ⟨u.head, q⟩ o =
      .awaited (.each [.subPermsOfHeads e ⟨t.head, p⟩ ⟨u.head, q⟩ o, .subHeads e t.head u.head o]) := by
  unfold Rules.subReduced
  rw [bareInfer_eq_none lower, bareInfer_eq_none upper]

theorem meets_subReduced {p q : Perm} (lower : t.Definite arity) (upper : u.Definite arity) (definite : p.Definite)
    (definite' : q.Definite) (inhabited : t.head ≠ .never) (effective : p = t.effective s env)
    (effective' : u.head ≠ .never → q = u.effective s env) (right : quiet → s.Below env (.ty t) (.ty u))
    (args : ∀ name as bs, t.head = .named name as → u.head = .named name bs →
      ∀ pair ∈ as.zip bs, s.Sure env quiet (.subTerms e pair.1 pair.2 o)) :
    (Rules.subReduced e t u ⟨t.head, p⟩ ⟨u.head, q⟩ o).Settles (s.ground env quiet) owing
      (s.Settled (s.Below env (.ty t) (.ty u)) quiet) w := by
  have below : s.Below env (.ty t) (.ty u) ↔ p.Below q ∧ s.HeadsBelow env t.head u.head := by
    rw [below_ty, or_iff_right inhabited, effective]
    refine and_congr_left fun heads => ?_
    rw [effective' heads.ne_never]
  have surePerms : s.Sure env quiet (.subPermsOfHeads e ⟨t.head, p⟩ ⟨u.head, q⟩ o) :=
    sure_permsOfHeads definite definite' (inferredHead_eq_none lower upper) fun calm => (below.mp (right calm)).1
  have sureHeads := sure_heads lower.toTy upper.toTy (fun calm => (below.mp (right calm)).2) args
  rw [subReduced_eq lower upper]
  refine (meets_each (List.forall_mem_cons.mpr ⟨surePerms, List.forall_mem_singleton.mpr sureHeads⟩)
    fun all => below.mpr ?_ : Prog.Meets _ _ _ _ _ _).awaited
  exact ⟨all _ List.mem_cons_self, all _ (List.mem_cons_of_mem _ (List.mem_singleton_self _))⟩

theorem sure_tys (types : s.TypesPlaces arity places) (agrees : env.Agrees e) (t : Ty)
    (lower : Term.Ground arity places (.ty t)) (upper : Term.Ground arity places (.ty u))
    (right : quiet → s.Below env (.ty t) (.ty u)) : s.Sure env quiet (.subTys e t u o) := by
  induction t using Ty.head_induction generalizing u e with
  | step t ih =>
  refine sure_of_rule fun w sound => ?_
  change (Rules.subTys e t u o).Settles (s.ground env quiet) _ (s.Settled (s.Below env (.ty t) (.ty u)) quiet) w
  have forked : env.Agrees e.fork := agrees
  have args : ∀ name as bs, t.head = .named name as → u.head = .named name bs →
      ∀ pair ∈ as.zip bs, s.Sure env quiet (.subTerms e.fork pair.1 pair.2 o) := by
    intro name as bs head head' pair member
    have lowerHead : Term.Ground arity places (.ty t.head.toTy) :=
      ⟨lower.1.toTy, fun _ h => lower.2 (t.leases_head h)⟩
    have upperHead : Term.Ground arity places (.ty u.head.toTy) :=
      ⟨upper.1.toTy, fun _ h => upper.2 (u.leases_head h)⟩
    rw [head] at lowerHead
    rw [head'] at upperHead
    obtain ⟨⟨k, first, second⟩, grounds⟩ := Term.ground_arguments lowerHead upperHead member
    have below (calm : quiet) : s.Below env pair.1 pair.2 := by
      rcases below_ty.mp (right calm) with never | ⟨_, heads⟩
      · exact nomatch head.symm.trans never
      · rw [head, head'] at heads
        exact heads.2.2 pair member
    refine sure_terms first second below fun t' u' same same' => ?_
    obtain ⟨a, b⟩ := pair
    cases same
    cases same'
    exact ih name as t' head (List.of_mem_zip member).1 forked grounds.1 grounds.2 below
  unfold Rules.subTys
  split
  · rename_i same
    subst same
    exact .ok fun _ _ => .inl ⟨rfl, below_self t lower.1⟩
  refine .awaited (.traced ?_)
  by_cases rigid : t.head.isRigid = true
  · rw [subApart_eq rigid upper.1]
    have inhabited : t.head ≠ .never := fun never => by simp [never, Head.isRigid] at rigid
    refine .bind (meets_withoutCopyPerm types forked lower).awaited (fun l v _ reduced => ?_)
      fun _ _ _ wrong => nomatch wrong.choose_spec.1
    obtain ⟨p, same, effective, definite⟩ := reduced
    cases same
    refine .bind (meets_withoutCopyPerm types forked upper).awaited (fun r v' _ reduced => ?_)
      fun _ _ _ wrong => nomatch wrong.choose_spec.1
    obtain ⟨q, same, effective', definite'⟩ := reduced
    cases same
    exact meets_subReduced lower.1 upper.1 definite definite' inhabited (effective inhabited) effective' right args
  · have never : t.head = .never := by
      rcases lower.1.head with ⟨_, _, head, _⟩ | ⟨_, head⟩ | head
      · exact absurd (congrArg Head.isRigid head) rigid
      · exact absurd (congrArg Head.isRigid head) rigid
      · exact head
    rw [subApart_never never upper.1]
    exact .ok fun _ _ => .inl ⟨rfl, .never never⟩

end Session

end Ownership
