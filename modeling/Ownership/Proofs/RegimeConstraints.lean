import Ownership.Proofs.Regime

namespace Ownership

namespace Regime

variable {R : Regime} {s s' : Session} {i : InferIndex} {v : InferVar}

theorem kind_of_bounds {t : Term} (bounds : t.Bounds (R.lexicon s) i) (found : s.inferVars[i]? = some v) :
    t.kind? = some v.kind ∧ v.kind ≠ .place := by
  cases t with
  | ty t | perm p =>
    obtain ⟨_, u, known, kind⟩ := bounds
    cases found.symm.trans known
    rw [kind]
    exact ⟨rfl, by decide⟩
  | place p | error r => exact bounds.elim

structure Bounds (R : Regime) (s : Session) (i : InferIndex) (v : InferVar) (b : Bound) : Prop where
  bounds : b.term.Bounds (R.lexicon s) i
  seen : ∀ u ∈ b.term.occurrences, ∀ U, R.level u = some U → v.home.canSee U = true

section Recording

variable (sound : R.Sound s) (found : s.inferVars[i]? = some v) (touches : s.Touches s')
include sound found touches

theorem Sound.modify {f : InferVar → InferVar} (changed : s'.inferVars = s.inferVars.modify i f)
    (same : ∀ v, (f v).kind = v.kind ∧ (f v).successors = v.successors ∧ (f v).predecessors = v.predecessors)
    (grows : v.Grows (f v)) (coherent : (f v).Coherent) (bounds : ∀ c ∈ (f v).bounds, c ∈ v.bounds ∨ R.Bounds s i v c)
    (default : ∀ d, (f v).fallback = some d → v.kind = .type ∧ ∃ env o, d = .numeric env o) : R.Leads s s' := by
  have mirrored : s'.Mirrored := sound.mirrored.modify changed same
  have more : s.Grows s' := .modify changed fun u known => by
    cases found.symm.trans known
    exact grows
  obtain ⟨_, _, _, _, _, rfl⟩ := touches
  refine sound.regrow more rfl rfl rfl rfl mirrored fun later k u' there => ?_
  obtain ⟨u, known, ⟨rfl, rfl⟩ | ⟨_, rfl⟩⟩ := Session.getElem?_modify_cases changed there
  · cases found.symm.trans known
    refine ⟨coherent, fun c member => ?_, (same v).1.symm ▸ default⟩
    rw [grows.home]
    rcases bounds c member with old | new
    · exact ((sound.vars k v found).later later).bounds c old
    · exact ⟨new.bounds.in.mono later.within, new.seen⟩
  · exact (sound.vars k u' known).later later

theorem Sound.lower {b : Bound} (free : v.lower = none) (bounds : R.Bounds s i v b)
    (changed : s'.inferVars = s.inferVars.modify i fun v => { v with lower := some b }) : R.Leads s s' := by
  obtain ⟨kind, bounded⟩ := kind_of_bounds bounds.bounds found
  have fits := sound.vars i v found
  refine sound.modify found touches changed (fun _ => ⟨rfl, rfl, rfl⟩) (InferVar.grows_lower b free)
    (fits.coherent.lower kind bounded) (fun c member => ?_) fits.default
  rcases List.mem_cons.mp member with rfl | old
  · exact .inr bounds
  · exact .inl (List.mem_append_right _ old)

theorem Sound.upper {b : Bound} (new : v.hasUpper b.term = false) (bounds : R.Bounds s i v b)
    (changed : s'.inferVars = s.inferVars.modify i fun v => { v with uppers := v.uppers ++ [b] }) : R.Leads s s' := by
  obtain ⟨kind, bounded⟩ := kind_of_bounds bounds.bounds found
  have fits := sound.vars i v found
  refine sound.modify found touches changed (fun _ => ⟨rfl, rfl, rfl⟩) (InferVar.grows_upper b)
    (fits.coherent.upper kind bounded new) (fun c member => ?_) fits.default
  rcases InferVar.mem_bounds_upper.mp member with old | rfl
  · exact .inl old
  · exact .inr bounds

theorem Sound.fact {p : Predicate} {o : Obligation} (other : v.kind ≠ .perm)
    (changed : s'.inferVars = s.inferVars.modify i fun v => { v with facts := v.facts ++ [(p, o)] }) :
    R.Leads s s' :=
  have fits := sound.vars i v found
  sound.modify found touches changed (fun _ => ⟨rfl, rfl, rfl⟩) (InferVar.grows_fact p o)
    (fits.coherent.fact p o other) (fun _ => .inl) fits.default

theorem Sound.factOfPerm {p : Predicate} {o : Obligation} (perm : v.kind = .perm)
    (allowed : v.excludes p = false) (changed : s'.inferVars = s.inferVars.modify i fun v =>
      { v with facts := v.facts ++ [(p, o)], excluded := v.excluded ++ [p.opposite] }) : R.Leads s s' :=
  have fits := sound.vars i v found
  sound.modify found touches changed (fun _ => ⟨rfl, rfl, rfl⟩)
    ((InferVar.grows_fact p o).trans (InferVar.grows_excluded p.opposite)) (fits.coherent.factOfPerm o perm allowed)
    (fun _ => .inl) fits.default

theorem Sound.fallback {d : Option Default} (default : ∀ e, d = some e → v.kind = .type ∧ ∃ env o, e = .numeric env o)
    (changed : s'.inferVars = s.inferVars.modify i fun v => { v with fallback := d }) : R.Leads s s' :=
  sound.modify found touches changed (fun _ => ⟨rfl, rfl, rfl⟩) (InferVar.grows_fallback d)
    ((sound.vars i v found).coherent.fallback d) (fun _ => .inl) default

theorem Sound.edge {j : InferIndex} {u : InferVar} (apart : i ≠ j) (target : s.inferVars[j]? = some u)
    (kind : u.kind = v.kind) (changed : s'.inferVars =
      (s.inferVars.modify i (·.withSuccessor j)).modify j (·.withPredecessor i)) : R.Leads s s' := by
  have grows : s.Grows s' := .link apart changed
  have mirrored : s'.Mirrored := .link apart found target changed sound.mirrored kind
  obtain ⟨_, _, _, _, _, rfl⟩ := touches
  refine sound.regrow grows rfl rfl rfl rfl mirrored fun later k w' there => ?_
  obtain ⟨w, after, before, known, rfl, _⟩ := Session.of_getElem?_link apart changed there
  have fits := (sound.vars k w known).later later
  exact ⟨fits.coherent.edges after before, fits.bounds, fits.default⟩

end Recording

end Regime

namespace Action

variable {R : Regime} {α : Type} {G : α → Session → Prop} {s : Session}

theorem Sets.obeys {a : Action α} {x : α} {vars : List InferVar} (sets : a.Sets s x vars)
    (leads : ∀ s', s'.inferVars = vars → s.Touches s' → R.Leads s s')
    (given : ∀ s', R.Leads s s' → s'.inferVars = vars → G x s') : a.Obeys R G s := by
  obtain ⟨s', exec, changed, touches⟩ := sets
  have later := leads s' changed touches
  unfold Obeys
  rw [exec]
  exact ⟨later, given s' later changed⟩

variable {i : InferIndex} {v : InferVar}

theorem sets_setFallback {d : Default} (found : s.inferVars[i]? = some v) (free : v.fallback = none) :
    (setFallback i d).Sets s () (s.inferVars.modify i fun v => { v with fallback := some d }) := by
  have exec : (setFallback i d).exec s = (modifyInferVar i fun v => { v with fallback := some d }).exec s := by
    simp only [setFallback, exec_bind, exec_inferVar, found, Option.elim, free]
    rfl
  exact ⟨_, exec, rfl, _, .refl _⟩

end Action

namespace Rules

open Ownership.Action

variable {R : Regime} {s : Session} {i j : InferIndex} {v : InferVar} (env : Env) (o : Obligation)

theorem checkHome_spec (t : Term) (found : s.inferVars[i]? = some v) :
    (checkHome env i t o).exec s = (.ok (), s) ∧
        (∀ u ∈ t.freeVariables, v.home.canSee (s.universeOf u) = true) ∨
      ∃ r s', (checkHome env i t o).exec s = (.error (.reported r), s') ∧ s.Akin s' := by
  rw [checkHome, exec_bind, exec_inferVar, found]
  simp only [Option.elim]
  induction t.freeVariables with
  | nil => exact .inl ⟨rfl, List.forall_mem_nil _⟩
  | cons u us ih =>
    rw [List.forM_eq_forM, List.forM_cons, exec_bind, exec_bind]
    simp only [Action.universeOf, exec_bind, exec_get, exec_pure]
    by_cases seen : v.home.canSee (s.universeOf u) = true
    · have seen' : v.home.canSee ((s.universes.lookup u).getD .root) = true := seen
      simp only [seen', if_true, exec_pure]
      rcases ih with ⟨passed, rest⟩ | failed
      · exact .inl ⟨passed, List.forall_mem_cons.mpr ⟨seen, rest⟩⟩
      · exact .inr failed
    · have seen' : v.home.canSee ((s.universes.lookup u).getD .root) = false := eq_false_of_ne_true seen
      simp only [seen', Bool.false_eq_true, if_false]
      obtain ⟨report, trace, refused⟩ := exec_refuse (α := Unit) env o (.universeEscape u.render) s
      rw [refused]
      exact .inr ⟨_, _, rfl, rfl, rfl, rfl, rfl, rfl⟩

variable (sound : R.Sound s)
include sound

theorem obeys_checkHome {t : Term} (fits : t.In (R.lexicon s)) (found : s.inferVars[i]? = some v) :
    (checkHome env i t o).Obeys R
      (fun _ s' => s' = s ∧ ∀ u ∈ t.occurrences, ∀ U, R.level u = some U → v.home.canSee U = true) s := by
  unfold Action.Obeys
  rcases checkHome_spec env o t found with ⟨passed, seen⟩ | ⟨r, s', failed, akin⟩
  · rw [passed]
    refine ⟨.refl sound, rfl, fun u occurs U laid => ?_⟩
    have belongs : s.universeOf u = U := fits.shown_of_mem (fun _ => And.left) occurs U laid
    rw [← belongs]
    exact seen u (Term.mem_freeVariables.mpr occurs)
  · rw [failed]
    exact ⟨sound.akin akin, trivial⟩

theorem obeys_recordLower {t : Term} (fits : t.Bounds (R.lexicon s) i) :
    (recordLower env i t o).Obeys R (fun found s' => match found with
      | .inl b => b.term.Bounds (R.lexicon s') i
      | .inr uppers => ∀ b ∈ uppers, b.term.Bounds (R.lexicon s') i) s := by
  refine (obeys_inferVar sound i).bind fun v s leads found => ?_
  have fits := fits.mono leads.1.within
  have sound := leads.2
  cases free : v.lower with
  | some b => exact obeys_pure sound (sound.bounds_lower found free)
  | none =>
    refine (obeys_checkHome env o sound fits.in found).bind fun _ s' _ checked => ?_
    obtain ⟨rfl, seen⟩ := checked
    have recorded := sets_setLowerBound (b := ⟨t, o⟩) found free
    refine Obeys.bind (G := fun _ s'' => R.Leads s' s'')
      (recorded.obeys (fun s'' changed touches => sound.lower found touches free ⟨fits, seen⟩ changed)
        fun _ leads _ => leads) fun _ s'' later _ => ?_
    refine obeys_pure later.2 fun b member => (sound.bounds found ?_).mono later.1.within
    exact List.mem_append_right _ member

theorem obeys_recordUpper {t : Term} (fits : t.Bounds (R.lexicon s) i) :
    (recordUpper env i t o).Obeys R (fun found s' => ∀ b, found = some (some b) →
      b.term.Bounds (R.lexicon s') i) s := by
  refine (obeys_inferVar sound i).bind fun v s leads found => ?_
  have fits := fits.mono leads.1.within
  have sound := leads.2
  refine (obeys_checkHome env o sound fits.in found).bind fun _ s' _ checked => ?_
  obtain ⟨rfl, seen⟩ := checked
  have added : (Action.addUpperBound i ⟨t, o⟩).Obeys R (fun _ _ => True) s' := by
    cases new : v.hasUpper t with
    | true =>
      unfold Action.Obeys
      rw [exec_addUpperBound_old (b := ⟨t, o⟩) found new]
      exact ⟨.refl sound, trivial⟩
    | false =>
      have recorded := sets_addUpperBound (b := ⟨t, o⟩) found new
      exact recorded.obeys (fun _ changed touches => sound.upper found touches new ⟨fits, seen⟩ changed)
        fun _ _ _ => trivial
  refine added.bind fun new s'' later _ => ?_
  cases new with
  | true =>
    refine obeys_pure later.2 fun b known => ?_
    exact (sound.bounds_lower found (Option.some.inj known)).mono later.1.within
  | false => exact obeys_pure later.2 nofun

theorem obeys_recordEdge {k : Kind} (first : (R.lexicon s).infer k i) (second : (R.lexicon s).infer k j)
    (bounded : k ≠ .place) :
    (recordEdge i j).Obeys R (fun found s' => ∀ bound uppers, found = some (bound, uppers) →
      (∀ b, bound = some b → b.term.Bounds (R.lexicon s') j) ∧
        ∀ b ∈ uppers, b.term.Bounds (R.lexicon s') i) s := by
  obtain ⟨v, found, kind⟩ := first
  obtain ⟨u, target, kind'⟩ := second
  -- a bound of one variable bounds every other one of its kind
  have passes {s' : Session} {x y : InferIndex} {z : InferVar} {b : Bound} (leads : R.Leads s s')
      (there : (R.lexicon s).infer k y) (at_ : s'.inferVars[x]? = some z) (same : z.kind = k)
      (bound : b ∈ z.bounds) : b.term.Bounds (R.lexicon s') y := by
    have own := leads.2.bounds at_ bound
    have other := leads.1.within.infer k y there
    have kinds := ((leads.2.vars x z at_).coherent.kinds b bound).1
    rw [same] at kinds
    cases term : b.term with
    | ty t | perm p =>
      rw [term] at own kinds
      cases kinds
      exact ⟨own.1, other⟩
    | place p | error r =>
      rw [term] at own
      exact own.elim
  unfold recordEdge
  split
  · exact obeys_pure sound nofun
  rename_i apart
  have added : (Action.addEdge i j).Obeys R (fun _ _ => True) s := by
    cases new : v.successors.contains j with
    | true =>
      unfold Action.Obeys
      rw [exec_addEdge_old found new]
      exact ⟨.refl sound, trivial⟩
    | false =>
      exact (sets_addEdge found apart new target).obeys (fun _ changed touches =>
        sound.edge found touches apart target (kind'.trans kind.symm) changed) fun _ _ _ => trivial
  refine added.bind fun new s' leads _ => ?_
  have same {s' : Session} {x : InferIndex} {y z : InferVar} (leads : R.Leads s s')
      (before : s.inferVars[x]? = some y) (after : s'.inferVars[x]? = some z) : z.kind = y.kind := by
    obtain ⟨z', after', grows⟩ := leads.1.grows x y before
    cases after.symm.trans after'
    exact grows.kind
  cases new with
  | false => exact obeys_pure leads.2 nofun
  | true =>
    refine (obeys_inferVar leads.2 i).bind fun v' s₁ leads₁ found' => ?_
    refine (obeys_inferVar leads₁.2 j).bind fun u' s₂ leads₂ target' => ?_
    refine obeys_pure leads₂.2 ?_
    rintro _ _ ⟨⟩
    have now := (leads.trans leads₁).trans leads₂
    refine ⟨fun b known => ?_, fun b member => ?_⟩
    · exact (passes (leads.trans leads₁) ⟨u, target, kind'⟩ found' ((same (leads.trans leads₁) found
        found').trans kind) (InferVar.mem_bounds_of_lower known)).mono leads₂.1.within
    · exact passes now ⟨v, found, kind⟩ target' ((same now target target').trans kind')
        (List.mem_append_right _ member)

theorem obeys_recordFact (i : InferIndex) (p : Predicate) :
    (recordFact env i p o).Obeys R (fun found s' => ∀ b, found = some b → b.term.Bounds (R.lexicon s') i) s := by
  refine (obeys_inferVar sound i).bind fun v s leads found => ?_
  have sound := leads.2
  have fits := sound.vars i v found
  cases excluded : v.excludes p with
  | true =>
    refine Obeys.bind (G := fun _ _ => False) (obeys_refuse sound env o _) fun _ _ _ => False.elim
  | false =>
    cases known : v.hasFact p with
    | true =>
      unfold Action.Obeys
      simp only [Bool.false_eq_true, if_false, exec_bind, exec_addFact_old found known]
      exact ⟨.refl sound, nofun⟩
    | false =>
      obtain ⟨s', added, changed, touches⟩ := sets_addFact (o := o) found known
      by_cases perm : v.kind = .perm
      · have still : s'.inferVars[i]? = some { v with facts := v.facts ++ [(p, o)] } := by
          rw [changed, List.getElem?_modify_eq, found]
          rfl
        have new : InferVar.excludes { v with facts := v.facts ++ [(p, o)] } p.opposite = false :=
          (fits.coherent.excludes_opposite perm).trans known
        obtain ⟨s'', excludes, changed', touches'⟩ := sets_exclude still new
        have now : R.Leads s s'' := by
          refine sound.factOfPerm (p := p) (o := o) found (touches.trans touches') perm excluded ?_
          rw [changed', changed, List.modify_modify_eq]
          rfl
        unfold Action.Obeys
        simp only [Bool.false_eq_true, if_false, exec_bind, added, Bool.not_true, perm, if_true, excludes,
          exec_pure]
        exact ⟨now, fun b known => (sound.bounds_lower found known).mono now.1.within⟩
      · have now : R.Leads s s' := sound.fact found touches perm changed
        unfold Action.Obeys
        simp only [Bool.false_eq_true, if_false, exec_bind, added, Bool.not_true, perm, exec_pure]
        exact ⟨now, fun b known => (sound.bounds_lower found known).mono now.1.within⟩

theorem obeys_setFallback (fits : (R.lexicon s).infer .type i) :
    (Action.setFallback i (.numeric env o)).Obeys R (fun _ _ => True) s := by
  obtain ⟨v, found, kind⟩ := fits
  cases free : v.fallback with
  | some d =>
    unfold Action.Obeys
    simp only [setFallback, exec_bind, exec_inferVar, found, Option.elim, free, Option.isNone_some,
      Bool.false_eq_true, if_false, exec_pure]
    exact ⟨.refl sound, trivial⟩
  | none =>
    refine (sets_setFallback found free).obeys (fun _ changed touches => ?_) fun _ _ _ => trivial
    refine sound.fallback found touches ?_ changed
    rintro _ ⟨⟩
    exact ⟨kind, env, o, rfl⟩

end Rules

namespace Prog

variable {R : Regime} {owing : Prop} {w : Moment} {β : Type}

theorem fits_pair {shape : Shape} {s : Session} {g h : Goal shape} (first : g.Fits R s) (second : h.Fits R s) :
    ∀ k ∈ [g, h], k.Fits R s := by
  simp [first, second]

theorem obeys_combine_pair {g h : Goal .truth} {disjunctive : Bool} (first : g.Fits R w.session)
    (second : h.Fits R w.session) : (Rules.combine disjunctive [g, h]).Complies R owing w :=
  obeys_combine (fits_pair first second) disjunctive

theorem obeys_each_pair {g h : Goal .unit} (first : g.Fits R w.session) (second : h.Fits R w.session) :
    (each [g, h]).Complies R owing w := obeys_each (fits_pair first second)

theorem obeys_neutral {α : Type} {a : Action α} (neutral : a.Neutral)
    (ends : ∀ s, EndsIn (fun _ => True) (Failure.Allowed R) (a.exec s).1) : (perform a).Complies R owing w :=
  obeys_perform (fun s leads => neutral.obeys leads.2 fun _ => ends s) fun _ _ => trivial

theorem obeys_raced_map {f : β → Goal .truth} {bs : List β} {decisive : Bool}
    (fits : ∀ b ∈ bs, (f b).Fits R w.session) :
    (raced decisive (bs.map f)).Complies R owing w :=
  obeys_raced (List.forall_mem_map.mpr fits) decisive

theorem obeys_each_map {f : β → Goal .unit} {bs : List β} (fits : ∀ b ∈ bs, (f b).Fits R w.session) :
    (each (bs.map f)).Complies R owing w := obeys_each (List.forall_mem_map.mpr fits)

end Prog

namespace Rules

open Prog

section Places

variable {R : Regime} {owing : Prop} {w : Moment} (env : Env)

theorem ends_declaredFieldTy {s : Session} (sound : R.Sound s) (f : Field) {args : List Term}
    (fits : ∀ t ∈ args, t.Fills (R.lexicon s)) :
    EndsIn (Ty.In (R.lexicon s)) (Violation.Allowed R) (declaredFieldTy s.program f args) := by
  unfold declaredFieldTy
  split
  · trivial
  · rename_i t known
    unfold Substitution.ofLists
    split
    · rename_i arity
      have within : (R.declared (fun v => v ∈ f.owner.generics ∨ R.Free v)
          fun v => v ∈ f.owner.generics ∨ R.Free v).Within ((R.lexicon s).under ⟨f.owner.generics.zip args⟩) := by
        refine ⟨fun _ _ => False.elim, fun v known => ?_, fun v known => ?_, id⟩
        · exact Lexicon.var_under arity.symm fits (known.imp_right fun free => free.admits s)
        · exact Lexicon.var_under (L := (R.lexicon s).sharing) arity.symm
            (fun t member => (fits t member).mono (R.lexicon_within_sharing s))
            (known.imp_right fun free => (free.admits s).1)
      exact ((sound.fields f t known).mono within).subst.fails fun _ => Violation.IsMisfit.allowed
    · trivial

theorem obeys_fieldTy {owner : Ty} (f : Field) (fits : owner.In (R.lexicon w.session)) :
    (fieldTy env owner f).Obeys R owing (fun t s => t.In (R.lexicon s)) w := by
  obtain ⟨perm, head⟩ := fits.red
  unfold fieldTy
  dsimp only
  split
  · rename_i a args found
    rw [found] at head
    split
    · exact obeys_violate trivial
    · refine obeys_get_bind fun w' leads => ?_
      have declared := ends_declaredFieldTy leads.2 f fun t member =>
        ((Ty.in_named.mp head t member).mono leads.1.within).fills
      refine Obeys.bind (G := fun t s => t.In (R.lexicon s)) (obeys_lift fun s later => ?_)
        fun t w'' leads' inner => obeys_ok fun s leads'' => ?_
      · exact declared.imp fun t inner => inner.mono later.1.within
      · have now := ((leads.trans leads').trans leads'').1
        exact (perm.mono now.within).applyTo (inner.mono leads''.1.within)
  · exact obeys_violate trivial
  · rename_i i found
    rw [found] at head
    refine Obeys.bind (obeys_ask trivial nofun) fun bound w' leads given => ?_
    split
    · have bounds := given _ rfl
      refine Obeys.bind (obeys_ask (g := .fieldTy env _ f) bounds.1 nofun) fun t w'' leads' inner => ?_
      refine obeys_ok fun s leads'' => ?_
      exact (perm.mono ((leads.trans leads').trans leads'').1.within).applyTo (Ty.In.mono leads''.1.within inner)
    · refine obeys_inferVar_bind fun _ v _ _ => Obeys.bind (obeys_report env _) fun r _ _ _ => obeys_raise r
  · exact obeys_raise _
  · exact obeys_violate trivial
  · exact obeys_violate trivial

theorem obeys_variableTy {s : Session} {v : Variable} (sound : R.Sound s) (admits : R.Admits s v) :
    (Action.variableTy v).Obeys R (fun t s => t.In (R.lexicon s)) s := by
  unfold Action.variableTy
  refine (Action.obeys_get sound).bind fun x s' leads same => ?_
  subst same
  split
  · rename_i t known
    exact Action.obeys_pure leads.2 (leads.2.types v t known)
  · rename_i unknown
    refine Action.obeys_throw leads.2 fun waits => ?_
    have typed := leads.1.types v (admits.2 waits)
    rw [Session.Types, unknown] at typed
    cases typed

theorem obeys_placeTy {place : Place} (fits : place.In (R.lexicon w.session)) :
    (placeTy env place).Obeys R owing (fun t s => t.In (R.lexicon s)) w := by
  induction place with
  | var v =>
    exact obeys_perform (fun _ leads => obeys_variableTy leads.2 (leads.1.admits fits))
      fun given later => given.mono later.within
  | field base f ih =>
    refine (ih fits).awaited.bind fun owner w' _ given => ?_
    exact obeys_relay (g := .fieldTy env owner f) given nofun
  | error r => exact obeys_raise r
  | index base | infer i => exact obeys_violate trivial

end Places

section Tests

variable {R : Regime} {owing : Prop} {w : Moment} (env : Env) (p : Predicate)

theorem obeys_permHolds {q : Perm} (fits : q.In (R.asked p w.session)) : (permHolds env p q).Complies R owing w := by
  cases q with
  | error r => exact obeys_raise r
  | my | our | shared ps | var v => exact obeys_ok fun _ _ => trivial
  | leased ps =>
    cases p with
    | copy | move =>
      refine obeys_raced_map fun place member => (fits place member).mono ?_
      exact R.asked_within_lexicon (by trivial) _
    | owned | lent => exact obeys_ok fun _ _ => trivial
  | apply l r => exact obeys_combine_pair fits.1 fits.2
  | infer i => exact obeys_relay trivial nofun

theorem obeys_tyHolds {t : Ty} (fits : t.In (R.asked p w.session)) : (tyHolds env p t).Complies R owing w := by
  cases t with
  | error r => exact obeys_raise r
  | perm q t => exact obeys_combine_pair fits.1 fits.2
  | named name args =>
    dsimp only [tyHolds]
    split
    · exact obeys_ok fun _ _ => trivial
    · exact obeys_ok fun _ _ => trivial
    · exact obeys_raced_map (Ty.in_named.mp fits)
    · exact obeys_raced_map (Ty.in_named.mp fits)
  | infer i => exact obeys_relay trivial nofun
  | var v | never => exact obeys_ok fun _ _ => trivial

theorem obeys_holds {t : Term} (fits : t.In (R.asked p w.session)) : (holds env p t).Complies R owing w := by
  cases t with
  | error r => exact obeys_raise r
  | ty t => exact obeys_relay (g := .tyHolds env p t) fits nofun
  | perm q => exact obeys_relay (g := .permHolds env p q) fits nofun
  | place place => exact obeys_violate fits.1

theorem obeys_inferRefuted (i : InferIndex) : (inferRefuted env i p).Complies R owing w := by
  refine obeys_inferVar_bind fun w' v leads found => ?_
  split
  · exact obeys_ok fun _ _ => trivial
  · split
    · exact obeys_ok fun _ _ => trivial
    · split
      · rename_i b lower
        exact obeys_relay (g := .refuted env p b.term)
          ((leads.2.bounds_lower found lower).in.mono (R.lexicon_within_asked p _)) nofun
      · exact obeys_ok fun _ _ => trivial

theorem obeys_permRefuted {q : Perm} (fits : q.In (R.lexicon w.session)) :
    (permRefuted env p q).Complies R owing w := by
  cases q with
  | error r => exact obeys_raise r
  | my | our | shared ps | var v => exact obeys_ok fun _ _ => trivial
  | leased ps => exact obeys_raced_map fits
  | apply l r => exact obeys_combine_pair fits.1 fits.2
  | infer i => exact (obeys_inferRefuted env p i).relayed

theorem obeys_tyRefuted {t : Ty} (fits : t.In (R.lexicon w.session)) : (tyRefuted env p t).Complies R owing w := by
  cases t with
  | error r => exact obeys_raise r
  | perm q t => exact obeys_combine_pair fits.1 fits.2
  | named name args =>
    have arguments (t : Term) (member : t ∈ args) : t.In (R.asked p w.session) :=
      (Ty.in_named.mp fits t member).mono (R.lexicon_within_asked p _)
    dsimp only [tyRefuted]
    split
    · exact obeys_ok fun _ _ => trivial
    · exact obeys_ok fun _ _ => trivial
    · exact obeys_raced_map arguments
    · exact obeys_raced_map arguments
  | infer i => exact (obeys_inferRefuted env p i).relayed
  | var v | never => exact obeys_ok fun _ _ => trivial

theorem obeys_refuted {t : Term} (fits : t.In (R.asked p w.session)) : (refuted env p t).Complies R owing w := by
  have inspected (inspects : p.Inspects) : t.In (R.lexicon w.session) := fits.mono (R.asked_within_lexicon inspects _)
  cases p with
  | owned | lent => exact obeys_holds env _ fits
  | copy | move =>
    cases t with
    | error r => exact obeys_raise r
    | ty t => exact obeys_relay (g := .tyRefuted env _ t) (inspected trivial) nofun
    | perm q => exact obeys_relay (g := .permRefuted env _ q) (inspected trivial) nofun
    | place place => exact obeys_violate fits.1

theorem obeys_placeHolds {place : Place} (fits : place.In (R.lexicon w.session)) :
    (placeHolds env p place).Complies R owing w :=
  (obeys_placeTy env fits).awaited.bind fun t _ _ given =>
    obeys_relay (g := .tyHolds env p t) (given.mono (R.lexicon_within_asked p _)) nofun

theorem obeys_placeRefuted {place : Place} (fits : place.In (R.lexicon w.session)) :
    (placeRefuted env p place).Complies R owing w :=
  (obeys_placeTy env fits).awaited.bind fun t _ _ given =>
    obeys_relay (g := .tyRefuted env p t) given nofun

theorem obeys_inferHolds (i : InferIndex) : (inferHolds env i p).Complies R owing w := by
  refine Obeys.bind (obeys_ask trivial nofun) fun known w' _ given => ?_
  cases known with
  | decided b | unknown => exact obeys_ok fun _ _ => trivial
  | bounded b =>
    exact obeys_relay (g := .holds env p b.term) ((given b rfl).in.mono (R.lexicon_within_asked p _)) nofun

theorem obeys_evidence (i : InferIndex) : (evidence env i p).Obeys R owing (Goal.Gives R (.evidence env i p)) w := by
  have known {s s' : Session} {v : InferVar} (leads : R.Leads s s') (sound : R.Sound s)
      (found : s.inferVars[i]? = some v) (b : Bound) (bounded : v.evidence p = .bounded b) :
      b.term.Bounds (R.lexicon s') i := by
    have lower : v.lower = some b := by
      unfold InferVar.evidence at bounded
      grind
    exact (sound.bounds_lower found lower).mono leads.1.within
  refine obeys_inferVar_bind fun w' v leads found => ?_
  dsimp only
  split
  · exact obeys_ok fun s later => known later leads.2 found
  · refine (obeys_wait env i _).bind fun _ _ _ _ => obeys_inferVar_bind fun w'' v' leads' found' => ?_
    exact obeys_ok fun s later => known later leads'.2 found'

theorem obeys_lowerBound (i : InferIndex) : (lowerBound env i).Obeys R owing (Goal.Gives R (.lowerBound env i)) w := by
  refine obeys_inferVar_bind fun w' v leads found => ?_
  split
  · rename_i b lower
    refine obeys_ok fun s later b' same => (leads.2.bounds_lower found ?_).mono later.1.within
    rw [lower, ← same]
  · refine (obeys_wait env i _).bind fun _ _ _ _ => obeys_inferVar_bind fun w'' v' leads' found' => ?_
    exact obeys_ok fun s later b lower => (leads'.2.bounds_lower found' lower).mono later.1.within

end Tests

section Requirements

variable {R : Regime} {w : Moment} (env : Env) (p : Predicate) (o : Obligation)

theorem obeys_establishInfer (i : InferIndex) : (establishInfer env i p o).Complies R True w := by
  refine Obeys.bind (obeys_perform (fun _ leads => obeys_recordFact env o leads.2 i p)
    fun given later b known => (given b known).mono later.within) fun bound w' leads given => ?_
  cases bound with
  | some b =>
    exact obeys_ask (g := .require env p b.term _) ((given b rfl).in.mono (R.lexicon_within_asked p _))
      fun _ => trivial
  | none => exact obeys_ok fun _ _ => trivial

theorem obeys_establishVar (v : Variable) : (establishVar env v p o).Complies R True w := by
  unfold establishVar
  split
  · exact obeys_ok fun _ _ => trivial
  · exact obeys_refuse env o _

theorem obeys_check (condition : Bool) : (check env o condition).Complies R True w := by
  cases condition with
  | true => exact obeys_ok fun _ _ => trivial
  | false => exact obeys_refuse env o _

theorem obeys_checkSome {tests : List (Goal .truth)} (fits : ∀ g ∈ tests, g.Fits R w.session) :
    (checkSome env o tests).Complies R True w := by
  refine (obeys_race fits true false).bind fun found _ _ _ => ?_
  split
  · exact obeys_ok fun _ _ => trivial
  · exact obeys_refuse env o _

theorem obeys_establishEither {l r : Term} (left : l.In (R.asked p w.session)) (right : r.In (R.asked p w.session)) :
    (establishEither env p l r o).Complies R True w := by
  refine Obeys.awaited (obeys_each_pair ?_ ?_)
  · exact ⟨right, left⟩
  · exact ⟨left, right⟩

theorem obeys_establishPerm {q : Perm} (fits : q.In (R.asked p w.session)) :
    (establishPerm env p o q).Complies R True w := by
  cases q with
  | error r => exact obeys_raise r
  | my | our | shared ps => exact obeys_check env o _
  | leased ps =>
    cases p with
    | copy | move =>
      refine Obeys.relayed (obeys_each_map fun place member => (fits place member).mono ?_)
      exact R.asked_within_lexicon (by trivial) _
    | owned => exact obeys_refuse env o _
    | lent => exact obeys_ok fun _ _ => trivial
  | apply l r =>
    dsimp only [establishPerm]
    split
    · exact (obeys_establishEither env p o (l := .perm l) (r := .perm r) fits.1 fits.2).relayed
    · exact Obeys.relayed (obeys_each_pair fits.1 fits.2)
  | var v => exact (obeys_establishVar env p o v).relayed
  | infer i => exact (obeys_establishInfer env p o i).relayed

theorem obeys_establishTy {t : Ty} (fits : t.In (R.asked p w.session)) : (establishTy env p o t).Complies R True w := by
  cases t with
  | error r => exact obeys_raise r
  | perm q t =>
    dsimp only [establishTy]
    split
    · exact (obeys_establishEither env p o (l := .perm q) (r := .ty t) fits.1 fits.2).relayed
    · exact Obeys.relayed (obeys_each_pair fits.1 fits.2)
  | named name args =>
    have arguments := Ty.in_named.mp fits
    dsimp only [establishTy]
    split
    · exact obeys_ok fun _ _ => trivial
    · exact obeys_refuse env o _
    · exact Obeys.relayed (obeys_checkSome env o (List.forall_mem_map.mpr arguments))
    · exact Obeys.relayed (obeys_each_map arguments)
  | infer i => exact (obeys_establishInfer env p o i).relayed
  | var v => exact (obeys_establishVar env p o v).relayed
  | never =>
    cases p with
    | copy | lent => exact obeys_refuse env o _
    | move | owned => exact obeys_ok fun _ _ => trivial

theorem obeys_establish {t : Term} (fits : t.In (R.asked p w.session)) : (establish env p t o).Complies R True w := by
  cases t with
  | error r => exact obeys_raise r
  | ty t => exact obeys_relay (g := .establishTy env p t o) fits fun _ => trivial
  | perm q => exact obeys_relay (g := .establishPerm env p q o) fits fun _ => trivial
  | place place => exact obeys_violate fits.1

theorem obeys_require {t : Term} (fits : t.In (R.asked p w.session)) : (require env p t o).Complies R True w :=
  (Obeys.traced (obeys_relay (g := .establish env.fork p t o) fits fun _ => trivial)).awaited

theorem obeys_establishUnless {other t : Term} (vouches : other.In (R.asked p w.session))
    (fits : t.In (R.asked p w.session)) : (establishUnless env p other t o).Complies R True w := by
  refine Obeys.bind (obeys_ask (g := .holds env p other) vouches nofun) fun vouched w' leads _ => ?_
  split
  · exact obeys_ok fun _ _ => trivial
  · exact obeys_ask (g := .establish env p t o) (fits.mono (leads.1.within_asked p)) fun _ => trivial

theorem obeys_establishCopyPlace {place : Place} (fits : place.In (R.lexicon w.session)) :
    (establishCopyPlace env place o).Complies R True w :=
  (obeys_placeTy env fits).awaited.bind fun t _ _ given =>
    obeys_relay (g := .establishTy env .copy t _) (given.mono (R.lexicon_within_asked .copy _)) fun _ => trivial

theorem obeys_establishMovePlace {place : Place} (fits : place.In (R.lexicon w.session)) :
    (establishMovePlace env place o).Complies R True w := by
  refine (obeys_placeTy env fits).awaited.bind fun t _ _ given => ?_
  refine Obeys.bind (obeys_ask (g := .tyHolds env .move t) (given.mono (R.lexicon_within_asked .move _)) nofun)
    fun moved _ _ _ => ?_
  split
  · exact obeys_ok fun _ _ => trivial
  · exact obeys_refuse env o _

theorem obeys_checkFacts (i : InferIndex) : (checkFacts env i).Complies R True w := by
  refine obeys_inferVar_bind fun w' v leads found => ?_
  split
  · exact obeys_ok fun _ _ => trivial
  · rename_i b lower
    exact obeys_each_map fun fact _ => (leads.2.bounds_lower found lower).in.mono (R.lexicon_within_asked fact.1 _)

end Requirements

section Subtyping

variable {R : Regime} {owing : Prop} {w : Moment} (env : Env) (o : Obligation)
variable {i : InferIndex} {red : RedTy} {t u : Ty}

theorem obeys_addLowerBound {t : Term} (fits : t.Bounds (R.lexicon w.session) i) :
    (addLowerBound env i t o).Complies R True w := by
  refine Obeys.bind (obeys_perform (fun s leads => obeys_recordLower env o leads.2
    (fits.mono leads.1.within)) ?_) fun found w' leads given => ?_
  · intro found s s' given later
    cases found with
    | inl b => exact given.mono later.within
    | inr uppers => exact fun b member => (given b member).mono later.within
  have fills := (fits.mono leads.1.within).in.fills
  cases found with
  | inl b => exact obeys_relay (g := .subTerms env t b.term _) ⟨fills, given.in.fills⟩ fun _ => trivial
  | inr uppers =>
    refine obeys_eachGroup ?_
    simp only [List.forall_mem_cons, List.not_mem_nil, false_implies, implies_true, and_true]
    refine ⟨fun s leads' => ?_, fun s leads' => ?_, fun s leads' => trivial⟩
    · refine List.forall_mem_map.mpr fun b member => ⟨fills.mono leads'.1.within, ?_⟩
      exact ((given b member).mono leads'.1.within).in.fills
    · unfold passToSuccessors
      split
      · rename_i v known
        refine List.forall_mem_map.mpr fun j member => ⟨fills.mono leads'.1.within, ?_⟩
        obtain ⟨_, u, there, kind, _⟩ := leads'.2.mirrored.after i v known j member
        exact Term.fills_ofInfer ⟨u, there, kind⟩
      · exact fun _ member => absurd member List.not_mem_nil

theorem fits_passToPredecessors {s : Session} {t : Term} (sound : R.Sound s)
    (fits : t.Bounds (R.lexicon s) i) : ∀ g ∈ passToPredecessors env i t o s, g.Fits R s := by
  unfold passToPredecessors
  split
  · rename_i v known
    refine List.forall_mem_map.mpr fun j member => ?_
    obtain ⟨u, there, kind, _⟩ := sound.mirrored.before i v known j member
    obtain ⟨same, _⟩ := Regime.kind_of_bounds fits known
    cases t with
    | ty t | perm p => exact ⟨fits.1, u, there, kind.trans (Option.some.inj same).symm⟩
    | place p | error r => exact fits.elim
  · exact fun _ member => absurd member List.not_mem_nil

theorem obeys_addUpperBound {t : Term} (fits : t.Bounds (R.lexicon w.session) i) :
    (addUpperBound env i t o).Complies R True w := by
  refine Obeys.bind (obeys_perform (fun s leads => obeys_recordUpper env o leads.2
    (fits.mono leads.1.within)) fun given later b known => (given b known).mono later.within)
    fun found w' leads given => ?_
  have fits := fits.mono leads.1.within
  split
  · exact obeys_ok fun _ _ => trivial
  · refine obeys_get_bind fun w'' leads' => ?_
    exact obeys_eachBesides (fits_passToPredecessors env o leads'.2 (fits.mono leads'.1.within))
  · rename_i b
    refine obeys_eachGroup ?_
    simp only [List.forall_mem_cons, List.not_mem_nil, false_implies, implies_true, and_true]
    refine ⟨fun s leads' => ⟨?_, ?_⟩, fun s leads' => ?_⟩
    · exact ((given b rfl).mono leads'.1.within).in.fills
    · exact (fits.mono leads'.1.within).in.fills
    · exact fits_passToPredecessors env o leads'.2 (fits.mono leads'.1.within)

theorem obeys_relate {k : Kind} {j : InferIndex} (first : (R.lexicon w.session).infer k i)
    (second : (R.lexicon w.session).infer k j) (bounded : k ≠ .place) : (relate env i j o).Complies R True w := by
  refine Obeys.bind (obeys_perform (fun s leads => obeys_recordEdge leads.2
    (leads.1.within.infer k i first) (leads.1.within.infer k j second) bounded) ?_) fun found w' leads given => ?_
  · refine fun given later bound uppers known => ⟨fun b member => ?_, fun b member => ?_⟩
    · exact ((given bound uppers known).1 b member).mono later.within
    · exact ((given bound uppers known).2 b member).mono later.within
  split
  · exact obeys_ok fun _ _ => trivial
  · rename_i bound uppers
    obtain ⟨lower, upper⟩ := given bound uppers rfl
    refine obeys_eachBesides ?_
    simp only [List.forall_mem_append, List.forall_mem_map]
    exact ⟨fun b member => lower b (Option.mem_toList.mp member), fun b member => upper b member⟩

theorem obeys_subTerms {l u : Term} (lower : l.Fills (R.lexicon w.session))
    (upper : u.Fills (R.lexicon w.session)) : (subTerms env l u o).Complies R True w := by
  unfold subTerms
  split
  · exact obeys_raise _
  · exact obeys_raise _
  · exact obeys_relay (g := .subTys env _ _ o) ⟨lower, upper⟩ fun _ => trivial
  · exact obeys_relay (g := .subPerms env _ _ o) ⟨lower, upper⟩ fun _ => trivial
  · split
    · exact obeys_ok fun _ _ => trivial
    · exact obeys_refuse env o _
  · exact obeys_violate trivial

def RedIn (L : Lexicon) (red : RedTy) : Prop := red.perm.In L ∧ red.head.toTy.In L

theorem obeys_withoutCopyPerm (fits : RedIn (R.lexicon w.session) red) :
    (withoutCopyPerm env red).Obeys R owing (fun red s => RedIn (R.lexicon s) red) w := by
  have mono {s : Session} (leads : R.Leads w.session s) : RedIn (R.lexicon s) red :=
    ⟨fits.1.mono leads.1.within, fits.2.mono leads.1.within⟩
  unfold withoutCopyPerm
  dsimp only
  split
  · exact obeys_ok fun _ => mono
  · refine Obeys.bind (obeys_ask (g := .holds env .copy (.ty red.head.toTy))
      (fits.2.mono (R.lexicon_within_asked .copy _)) nofun) fun copied w' leads _ => ?_
    split
    · exact obeys_log_bind (obeys_ok fun _ leads' => ⟨trivial, (mono (leads.trans leads')).2⟩)
    · exact obeys_ok fun _ leads' => mono (leads.trans leads')

theorem head_of_bareInfer (bare : red.bareInfer = some i) : red.head = .infer i := by
  obtain ⟨head, perm⟩ := red
  unfold RedTy.bareInfer at bare
  grind

theorem in_reduced {L : Lexicon} (fits : RedIn L red) (whole : t.In L) : (reduced red t).In L := by
  unfold reduced
  split
  · exact fits.2
  · exact whole

theorem obeys_subReduced {l r : RedTy} (lower : t.In (R.lexicon w.session)) (upper : u.In (R.lexicon w.session))
    (left : RedIn (R.lexicon w.session) l) (right : RedIn (R.lexicon w.session) r) :
    (subReduced env t u l r o).Complies R True w := by
  have infers {red : RedTy} {i : InferIndex} (fits : RedIn (R.lexicon w.session) red)
      (bare : red.bareInfer = some i) : (R.lexicon w.session).infer .type i := by
    have head := fits.2
    rw [head_of_bareInfer bare] at head
    exact head
  unfold subReduced
  split
  · rename_i i j first second
    exact (obeys_relate env o (infers left first) (infers right second) (by decide)).relayed
  · rename_i j _ second
    exact obeys_relay (g := .addLowerBound env j _ o) ⟨in_reduced left lower, infers right second⟩
      fun _ => trivial
  · rename_i i first _
    exact obeys_relay (g := .addUpperBound env i _ o) ⟨in_reduced right upper, infers left first⟩
      fun _ => trivial
  · refine Obeys.awaited (obeys_each_pair ?_ ?_)
    · exact ⟨left.1, right.1⟩
    · exact ⟨left.2, right.2⟩

theorem obeys_subApart (lower : t.In (R.lexicon w.session)) (upper : u.In (R.lexicon w.session)) :
    (subApart env t u o).Complies R True w := by
  unfold subApart
  split
  · exact obeys_raise _
  · exact obeys_raise _
  · exact obeys_ok fun _ _ => trivial
  · refine (obeys_withoutCopyPerm env lower.red).awaited.bind fun l w' leads left => ?_
    have upper := upper.mono leads.1.within
    refine (obeys_withoutCopyPerm env upper.red).awaited.bind fun r w'' leads' right => ?_
    have within := leads'.1.within
    exact obeys_subReduced env o (lower.mono (leads.trans leads').1.within) (upper.mono within)
      ⟨left.1.mono within, left.2.mono within⟩ right

theorem obeys_subTys (lower : t.In (R.lexicon w.session)) (upper : u.In (R.lexicon w.session)) :
    (subTys env t u o).Complies R True w := by
  unfold subTys
  split
  · exact obeys_ok fun _ _ => trivial
  · exact (Obeys.traced (obeys_subApart env.fork o lower upper)).awaited

theorem obeys_subPermsOfHeads {l u : RedTy} (lower : l.perm.In (R.lexicon w.session))
    (upper : u.perm.In (R.lexicon w.session)) : (subPermsOfHeads env l u o).Complies R True w := by
  unfold subPermsOfHeads
  split
  · exact obeys_ok fun _ _ => trivial
  · split
    · refine Obeys.bind (obeys_ask trivial nofun) fun copied w' leads _ => ?_
      split
      · exact obeys_ok fun _ _ => trivial
      · exact obeys_ask (g := .subPerms env _ _ o) ⟨lower.mono leads.1.within, upper.mono leads.1.within⟩
          fun _ => trivial
    · exact obeys_ask (g := .subPerms env _ _ o) ⟨lower, upper⟩ fun _ => trivial

theorem ends_subArguments {s : Session} {as bs : List Term} (left : ∀ t ∈ as, t.Fills (R.lexicon s))
    (right : ∀ t ∈ bs, t.Fills (R.lexicon s)) :
    EndsIn (fun goals => ∀ g ∈ goals, g.Fits R s) (Violation.Allowed R) (subArguments env o as bs) := by
  induction as generalizing bs with
  | nil => exact fun _ member => absurd member List.not_mem_nil
  | cons a as ih =>
    cases bs with
    | nil => trivial
    | cons b bs =>
      refine (ih (fun t member => left t (List.mem_cons_of_mem _ member))
        fun t member => right t (List.mem_cons_of_mem _ member)).bind fun goals rest => ?_
      refine List.forall_mem_cons.mpr ⟨?_, rest⟩
      exact ⟨left a List.mem_cons_self, right b List.mem_cons_self⟩

theorem obeys_subHeads {l u : Head} (lower : l.toTy.In (R.lexicon w.session))
    (upper : u.toTy.In (R.lexicon w.session)) : (subHeads env l u o).Complies R True w := by
  unfold subHeads
  split
  · exact obeys_relay (g := .subTys env _ _ o) ⟨lower, upper⟩ fun _ => trivial
  · exact obeys_relay (g := .subTys env _ _ o) ⟨lower, upper⟩ fun _ => trivial
  · split
    · have left := Ty.in_named.mp lower
      have right := Ty.in_named.mp upper
      refine Obeys.bind (G := fun goals s => ∀ g ∈ goals, g.Fits R s) (obeys_lift fun s leads => ?_)
        fun goals _ _ fits => (obeys_each fits).relayed
      exact ends_subArguments env o (fun t member => ((left t member).mono leads.1.within).fills)
        fun t member => ((right t member).mono leads.1.within).fills
    · exact obeys_refuse env o _
  · split
    · exact obeys_ok fun _ _ => trivial
    · exact obeys_refuse env o _
  · exact obeys_refuse env o _

theorem neutral_startSearch (branches : Nat) : (Action.startSearch branches).Neutral := by
  intro s
  unfold Action.startSearch
  simp only [Action.exec_bind, Action.exec_get]
  cases Search.start.spawn 0 branches with
  | ok started => exact ⟨rfl, rfl, rfl, rfl, rfl⟩
  | error v => exact .refl s

theorem neutral_search (i : Nat) : (Action.search i).Neutral := fun s => .refl s

theorem neutral_startSpeculation : Action.startSpeculation.Neutral := fun _ => ⟨rfl, rfl, rfl, rfl, rfl⟩

theorem neutral_abandon (speculation : Nat) : (Action.abandon speculation).Neutral :=
  fun _ => ⟨rfl, rfl, rfl, rfl, rfl⟩

theorem obeys_endBranch (search node : Nat) {answer : Except Failure Bool}
    (ends : EndsIn (fun _ => True) (Failure.Allowed R) answer) :
    (perform (endBranch search node answer)).Complies R owing w := by
  have stirs (found : Search) {s : Session} (sound : R.Sound s) :
      (Action.stir search found).Obeys R (fun _ _ => True) s :=
    Action.obeys_modify sound ⟨rfl, rfl, rfl, rfl, rfl⟩
  have releases {s : Session} (sound : R.Sound s) :
      (Action.releaseBranch search node).Obeys R (fun _ _ => True) s := by
    refine Action.Obeys.bind (G := fun _ _ => True) ((neutral_search search).obeys sound fun _ => trivial)
      fun found s' leads _ => ?_
    split
    · exact stirs _ leads.2
    · exact Action.obeys_pure leads.2 trivial
  have concludes {s : Session} (sound : R.Sound s) :
      (Action.concludeSearch search).Obeys R (fun _ _ => True) s :=
    Action.Obeys.bind (G := fun _ _ => True) ((neutral_search search).obeys sound fun _ => trivial)
      fun found s' leads _ => stirs _ leads.2
  refine obeys_perform (fun s leads => ?_) fun _ _ => trivial
  cases answer with
  | error e => exact (releases leads.2).bind fun _ s' leads' _ => Action.obeys_throw leads'.2 ends
  | ok held =>
    have rest {s : Session} (sound : R.Sound s) :
        (Action.releaseBranch search node >>= fun _ => pure held : Action Bool).Obeys R (fun _ _ => True) s :=
      (releases sound).bind fun _ s' leads _ => Action.obeys_pure leads.2 trivial
    cases held with
    | true => exact (concludes leads.2).bind fun _ s' leads' _ => rest leads'.2
    | false => exact rest leads.2

theorem obeys_compatibleChains {l u : Perm} (lower : l.In (R.lexicon w.session)) (upper : u.In (R.lexicon w.session)) :
    (compatibleChains env l u o).Complies R True w := by
  refine Obeys.bind (obeys_neutral (neutral_startSearch 2) fun _ => trivial) fun branches w' leads _ => ?_
  refine (obeys_race (List.forall_mem_map.mpr fun _ _ => ?_) true false).bind fun found _ _ _ => ?_
  · exact ⟨lower.mono leads.1.within, upper.mono leads.1.within⟩
  split
  · exact obeys_ok fun _ _ => trivial
  · exact obeys_refuse env o _

theorem obeys_subChains {l u : Chain} (lower : ∀ lien ∈ l, lien.toPerm.In (R.lexicon w.session))
    (upper : ∀ lien ∈ u, lien.toPerm.In (R.lexicon w.session)) : (subChains env l u o).Complies R True w := by
  have infers {c : Chain} {i : InferIndex} (fits : ∀ lien ∈ c, lien.toPerm.In (R.lexicon w.session))
      (bare : c.bareInfer = some i) : (R.lexicon w.session).infer .perm i := by
    unfold Chain.bareInfer at bare
    split at bare
    · cases bare
      exact fits _ (List.mem_singleton_self _)
    · cases bare
  have left := Chain.in_toPerm lower
  have right := Chain.in_toPerm upper
  unfold subChains
  split
  · rename_i i j first second
    exact (obeys_relate env o (infers lower first) (infers upper second) nofun).relayed
  · rename_i j _ second
    exact obeys_relay (g := .addLowerBound env j _ o) ⟨left, infers upper second⟩ fun _ => trivial
  · rename_i i first _
    exact obeys_relay (g := .addUpperBound env i _ o) ⟨right, infers lower first⟩ fun _ => trivial
  · split
    · exact (obeys_compatibleChains env o left right).relayed
    · split
      · exact obeys_ok fun _ _ => trivial
      · exact obeys_refuse env o _

theorem obeys_chainOf {p : Perm} (fits : p.In (R.lexicon w.session)) :
    (chainOf p).Obeys R owing (fun c s => ∀ lien ∈ c, lien.toPerm.In (R.lexicon s)) w := by
  unfold chainOf
  split
  · rename_i c found
    exact obeys_ok fun s leads lien member => (Chain.in_ofPerm fits found lien member).mono leads.1.within
  · exact obeys_raise _

theorem obeys_subPerms {l u : Perm} (lower : l.In (R.lexicon w.session))
    (upper : u.In (R.lexicon w.session)) : (subPerms env l u o).Complies R True w := by
  unfold subPerms
  split
  · exact obeys_ok fun _ _ => trivial
  · refine (obeys_chainOf lower).bind fun c w' leads left => ?_
    refine (obeys_chainOf (upper.mono leads.1.within)).bind fun d w'' leads' right => ?_
    exact obeys_subChains env o (fun lien member => (left lien member).mono leads'.1.within) right

section Branches

variable (search node : Nat) (p : Predicate) {l u : Perm} (lower : l.In (R.lexicon w.session))
variable (upper : u.In (R.lexicon w.session))
include lower upper

theorem obeys_attempt : (attempt env search node p l u o).Complies R owing w := by
  refine fun w' leads => ⟨⟨lower.mono leads.1.within, upper.mono leads.1.within⟩, nofun, fun r w'' _ post => ?_⟩
  exact obeys_endBranch search node (post.imp fun _ _ => trivial)

theorem obeys_contend : (contend env search node p l u o).Complies R owing w := by
  refine Obeys.bind (obeys_neutral (neutral_search search) fun _ => trivial) fun found w₁ leads₁ _ => ?_
  have lower := lower.mono leads₁.1.within
  have upper := upper.mono leads₁.1.within
  split
  · refine Obeys.bind (Obeys.awaited (obeys_each_pair ?_ ?_)) fun _ _ _ _ => obeys_ok fun _ _ => trivial
    · exact lower.mono (R.lexicon_within_asked p _)
    · exact upper.mono (R.lexicon_within_asked p _)
  · refine Obeys.bind (obeys_neutral neutral_startSpeculation fun _ => trivial) fun n w₂ leads₂ _ => ?_
    have lower := lower.mono leads₂.1.within
    have upper := upper.mono leads₂.1.within
    refine Obeys.bind (obeys_contest (fits_pair ?_ ?_) search (List.cons_ne_nil _ _)) fun answer w₃ leads₃ _ => ?_
    · exact lower.mono (R.lexicon_within_asked p _)
    · exact upper.mono (R.lexicon_within_asked p _)
    cases answer with
    | some b => exact obeys_ok fun _ _ => trivial
    | none =>
      refine Obeys.bind (obeys_neutral (neutral_abandon n) fun _ => trivial) fun _ w₄ leads₄ _ => ?_
      have within := (leads₃.trans leads₄).1.within
      exact obeys_call (g := .contend env search node p l u o) ⟨lower.mono within, upper.mono within⟩ nofun

end Branches

theorem obeys_equalTys (left : t.In (R.lexicon w.session)) (right : u.In (R.lexicon w.session)) :
    (equalTys env t u o).Complies R True w := by
  refine Obeys.awaited (obeys_each_pair ?_ ?_)
  · exact ⟨left, right⟩
  · exact ⟨right, left⟩

theorem obeys_postAssignable (left : t.In (R.lexicon w.session))
    (right : u.In (R.lexicon w.session)) : (postAssignable env t u o).Complies R owing w :=
  obeys_post ⟨left, right⟩

theorem obeys_postEqualTys (left : t.In (R.lexicon w.session))
    (right : u.In (R.lexicon w.session)) : (postEqualTys env t u o).Complies R owing w :=
  obeys_post ⟨left, right⟩

end Subtyping

section Shapes

variable {R : Regime} {w : Moment} (env : Env) (o : Obligation)

theorem obeys_onLowerBound (i : InferIndex) {next : Ty → Obligation → Prog Unit}
    (h : ∀ (w' : Moment) t o, R.Leads w.session w'.session → t.In (R.lexicon w'.session) →
      (next t o).Complies R True w') : (onLowerBound env i o next).Complies R True w := by
  refine Obeys.bind (obeys_ask trivial nofun) fun bound w' leads given => ?_
  split
  · exact obeys_inferVar_bind fun _ _ _ _ => obeys_refuse env o _
  · exact h w' _ _ leads (given _ rfl).1
  · exact obeys_violate trivial

theorem obeys_numeric {t : Ty} (fits : t.In (R.lexicon w.session)) : (numeric env t o).Complies R True w := by
  have head := fits.head
  unfold numeric
  split
  · exact obeys_raise _
  · exact obeys_ok fun _ _ => trivial
  · exact obeys_refuse env o _
  · split
    · exact obeys_ok fun _ _ => trivial
    · exact obeys_refuse env o _
  · exact obeys_refuse env o _
  · rename_i i found
    rw [found] at head
    refine Obeys.bind (obeys_perform (fun s leads => obeys_setFallback env o leads.2
      (leads.1.within.infer .type i head)) fun _ _ => trivial) fun _ _ _ _ => ?_
    exact obeys_onLowerBound env o i fun w' t o _ given =>
      obeys_relay (g := .numeric env t o) given fun _ => trivial

theorem obeys_futureHead {t awaited : Ty} (fits : t.In (R.lexicon w.session))
    (result : awaited.In (R.lexicon w.session)) : (futureHead env t awaited o).Complies R True w := by
  have head := fits.head
  unfold futureHead
  split
  · exact obeys_raise _
  · rename_i first rest found
    rw [found] at head
    have argument := (Ty.in_named.mp head first List.mem_cons_self).fills
    refine Obeys.bind (G := fun t s => t.In (R.lexicon s)) (obeys_lift fun s leads => ?_)
      fun t w' leads given => ?_
    · exact (argument.mono leads.1.within).expectTy.fails fun _ => Violation.IsMisfit.allowed
    · exact obeys_relay (g := .subTys env t awaited o) ⟨given, result.mono leads.1.within⟩ fun _ => trivial
  · exact obeys_violate trivial
  · exact obeys_refuse env o _
  · exact obeys_refuse env o _
  · exact obeys_refuse env o _
  · exact obeys_onLowerBound env o _ fun w' t o leads given =>
      obeys_relay (g := .futureHead env t awaited o) ⟨given, result.mono leads.1.within⟩ fun _ => trivial

end Shapes

end Rules

end Ownership
