import Ownership.Proofs.Preorder

namespace Ownership

namespace Session

variable {s : Session} {env e : Env} {quiet : Prop} {places : List Place} {p : Predicate}

section Requirements

variable {o : Obligation} {P owing : Prop} {w : Moment}

theorem meets_check {A : Asks} {condition : Bool} (same : P ↔ condition = true) (right : quiet → P) :
    (Rules.check e o condition).Meets (s.ground env quiet) A owing (s.Settled P quiet) w := by
  unfold Rules.check
  by_cases holds : condition = true
  · rw [if_pos holds]
    exact .ok fun _ _ => .inl ⟨rfl, same.mpr holds⟩
  · rw [if_neg holds]
    exact meets_refuse fun calm => holds (same.mp (right calm))

theorem sure_unless {other t : Term} (agrees : env.Agrees e) (clear : s.Clear p other)
    (sure : (quiet → s.Accepts env p t) → s.Sure env quiet (.establish e p t o))
    (right : quiet → ¬ s.Proves env p other → s.Accepts env p t) :
    s.Sure env quiet (.establishUnless e p other t o) := by
  refine sure_of_rule fun w _ => .bind (meets_ask agrees clear) (fun b v _ tells => ?_)
    fun _ _ _ wrong => by cases wrong.choose_spec.1
  obtain ⟨_, same, vouches⟩ := tells
  cases same
  cases b with
  | true => exact .ok fun _ _ => .inl ⟨rfl, absurd (vouches.mp rfl)⟩
  | false =>
    have apart : ¬ s.Proves env p other := fun proves => by cases vouches.mpr proves
    have established := sure fun calm => right calm apart
    exact .ask fun v leads => ⟨established v leads.sound, fun _ => rfl, fun _ _ _ post =>
      post.imp_left fun ⟨ended, accepted⟩ => ⟨ended, fun _ => accepted⟩⟩

theorem meets_both {g h : Goal .unit} (first : s.Sure env quiet g) (second : s.Sure env quiet h)
    (all : g.Right s env ∧ h.Right s env → P) :
    (Prog.each [g, h]).Settles (s.ground env quiet) owing (s.Settled P quiet) w := by
  refine meets_each (List.forall_mem_cons.mpr ⟨first, List.forall_mem_singleton.mpr second⟩) fun each => ?_
  exact all ⟨each g List.mem_cons_self, each h (List.mem_cons_of_mem _ (List.mem_singleton_self h))⟩

theorem meets_application {l r : Term} {g h : Goal .unit} (agrees : env.Agrees e) (left : s.Clear p l)
    (right : s.Clear p r) (sureLeft : (quiet → s.Accepts env p l) → s.Sure env quiet (.establish e p l o))
    (sureRight : (quiet → s.Accepts env p r) → s.Sure env quiet (.establish e p r o))
    (first : (quiet → g.Right s env) → s.Sure env quiet g) (second : (quiet → h.Right s env) → s.Sure env quiet h)
    (either : p.isDisjunctive = true → (P ↔ (¬ s.Proves env p r → s.Accepts env p l) ∧
      (¬ s.Proves env p l → s.Accepts env p r)))
    (both : p.isDisjunctive = false → (P ↔ g.Right s env ∧ h.Right s env)) (calm : quiet → P) :
    (if p.isDisjunctive then .relayed (Rules.establishEither e p l r o) else .relayed (.each [g, h]) :
      Prog Unit).Settles (s.ground env quiet) owing (s.Settled P quiet) w := by
  cases way : p.isDisjunctive with
  | true =>
    have leftUnless : s.Sure env quiet (.establishUnless e p r l o) :=
      sure_unless agrees right sureLeft fun h => ((either way).mp (calm h)).1
    have rightUnless : s.Sure env quiet (.establishUnless e p l r o) :=
      sure_unless agrees left sureRight fun h => ((either way).mp (calm h)).2
    exact (meets_both leftUnless rightUnless (either way).mpr : Prog.Meets _ _ _ _ _ _).awaited.relayed
  | false =>
    have firstSure := first fun h => ((both way).mp (calm h)).1
    have secondSure := second fun h => ((both way).mp (calm h)).2
    exact (meets_both firstSure secondSure (both way).mpr : Prog.Meets _ _ _ _ _ _).relayed

theorem meets_establishVar {v : Variable} (agrees : env.Agrees e)
    (same : P ↔ env.assumes v p = true) (right : quiet → P) :
    (Rules.establishVar e v p o).Settles (s.ground env quiet) owing (s.Settled P quiet) w := by
  unfold Rules.establishVar
  rw [agrees.assumes]
  by_cases assumed : env.assumes v p = true
  · rw [if_pos assumed]
    exact .ok fun _ _ => .inl ⟨rfl, same.mpr assumed⟩
  · rw [if_neg assumed]
    exact meets_refuse fun calm => assumed (same.mp (right calm))

theorem meets_checkSome {ts : List Term} (agrees : env.Agrees e) (clear : ∀ t ∈ ts, s.Clear p t)
    (same : P ↔ ∃ t ∈ ts, s.Proves env p t) (right : quiet → P) :
    (Rules.checkSome e o (ts.map (.holds e p))).Settles (s.ground env quiet) owing (s.Settled P quiet) w := by
  have sure : ∀ g ∈ ts.map (.holds e p), s.Sure env quiet g :=
    List.forall_mem_map.mpr fun t member => (clear t member).tests.1
  have clears (_ : True) : ∀ g ∈ ts.map (Goal.holds e p), g.Clear s env :=
    List.forall_mem_map.mpr fun t member => ⟨agrees, clear t member⟩
  refine .bind (meets_someOf sure clears (by simpa [Goal.Truth] using same)) (fun b v _ tells => ?_)
    fun _ _ _ wrong => by cases (wrong trivial).choose_spec.1
  obtain ⟨_, same, holds⟩ := tells trivial
  cases same
  cases b with
  | true => exact .ok fun _ _ => .inl ⟨rfl, holds.mp rfl⟩
  | false => exact meets_refuse fun calm => by cases holds.mpr (right calm)

theorem BarePlace.moves {place : Place} (bare : s.BarePlace place) (agrees : env.Agrees e)
    (right : quiet → s.Proves env .move (.place place)) : s.Sure env quiet (.establishMovePlace e place o) := by
  obtain @⟨_, t, typed, plain, leased⟩ := bare
  have same : s.Proves env .move (.place place) ↔ _ := proves_place typed
  refine sure_of_rule fun w _ => meets_at typed fun v => ?_
  have clear : s.Clear .move (.ty t) := ⟨plain, fun _ => leased⟩
  refine .bind (meets_askTy agrees clear) (fun b u _ tells => ?_) fun _ _ _ wrong => by cases wrong.choose_spec.1
  obtain ⟨_, known, holds⟩ := tells
  cases known
  cases b with
  | true => exact .ok fun _ _ => .inl ⟨rfl, same.mpr (holds.mp rfl)⟩
  | false => exact meets_refuse fun calm => by cases holds.mpr (same.mp (right calm))

def TakesPlaces (s : Session) (env : Env) (quiet : Prop) (ps : List Place) : Prop :=
  ∀ place ∈ ps, s.BarePlace place ∧ ∀ e o, env.Agrees e → (quiet → s.Accepts env .copy (.place place)) →
    s.Sure env quiet (.establishCopyPlace e place o)

theorem TakesPlaces.subset {ps qs : List Place} (takes : s.TakesPlaces env quiet qs) (within : ps ⊆ qs) :
    s.TakesPlaces env quiet ps := fun place member => takes place (within member)

theorem TakesPlaces.clear {t : Term} (takes : s.TakesPlaces env quiet t.leases) (bare : t.Bare) : s.Clear p t :=
  ⟨bare, fun _ place member => (takes place member).1⟩

theorem demands_perm {q : Perm} (definite : q.Definite) (agrees : env.Agrees e)
    (takes : s.TakesPlaces env quiet q.leases) (right : quiet → s.Accepts env p (.perm q)) :
    s.Sure env quiet (.establishPerm e p q o) := by
  induction q with
  | my => exact sure_of_rule fun _ _ => meets_check accepts_my right
  | our => exact sure_of_rule fun _ _ => meets_check accepts_our right
  | shared ps => exact sure_of_rule fun _ _ => meets_check accepts_shared right
  | leased ps =>
    have same : s.Accepts env p (.perm (.leased ps)) ↔ _ := accepts_leased
    refine sure_of_rule fun w _ => ?_
    cases p with
    | copy =>
      refine (meets_each (List.forall_mem_map.mpr fun place member => ?_) fun all =>
        same.mpr fun place member => ?_ : Prog.Meets _ _ _ _ _ _).relayed
      · exact (takes place member).2 e o agrees fun calm => same.mp (right calm) place member
      · exact all _ (List.mem_map_of_mem member)
    | move =>
      refine (meets_each (List.forall_mem_map.mpr fun place member => ?_) fun all =>
        same.mpr fun place member => ?_ : Prog.Meets _ _ _ _ _ _).relayed
      · exact (takes place member).1.moves agrees fun calm => same.mp (right calm) place member
      · exact all _ (List.mem_map_of_mem member)
    | owned => exact meets_refuse fun calm => same.mp (right calm)
    | lent => exact .ok fun _ _ => .inl ⟨rfl, same.mpr trivial⟩
  | apply l r left right' =>
    have lefts : s.TakesPlaces env quiet l.leases := takes.subset (List.subset_append_left _ _)
    have rights : s.TakesPlaces env quiet r.leases := takes.subset (List.subset_append_right _ _)
    have first := left definite.1 lefts
    have second := right' definite.2 rights
    refine sure_of_rule fun w _ => meets_application agrees (lefts.clear (t := .perm l) definite.1)
      (rights.clear (t := .perm r) definite.2) (fun calm => ?_) (fun calm => ?_) first second
      accepts_apply_either accepts_apply_both right
    · exact sure_of_rule fun _ _ => meets_claim (first calm) rfl
    · exact sure_of_rule fun _ _ => meets_claim (second calm) rfl
  | var v => exact sure_of_rule fun w _ => (meets_establishVar agrees accepts_permVar right).relayed
  | infer | error => exact definite.elim

mutual
theorem demands_ty (agrees : env.Agrees e) (t : Ty) (bare : t.Bare) (takes : s.TakesPlaces env quiet t.leases)
    (right : quiet → s.Accepts env p (.ty t)) : s.Sure env quiet (.establishTy e p t o) := by
  match t with
  | .perm q t =>
    have perms : s.TakesPlaces env quiet q.leases := takes.subset (List.subset_append_left _ _)
    have tys : s.TakesPlaces env quiet t.leases := takes.subset (List.subset_append_right _ _)
    have first (calm : quiet → s.Accepts env p (.perm q)) :
        s.Sure env quiet (.establishPerm e p q o) := demands_perm bare.1 agrees perms calm
    have second (calm : quiet → s.Accepts env p (.ty t)) :
        s.Sure env quiet (.establishTy e p t o) := demands_ty agrees t bare.2 tys calm
    refine sure_of_rule fun w _ => meets_application agrees (perms.clear (t := .perm q) bare.1)
      (tys.clear (t := .ty t) bare.2) (fun calm => ?_) (fun calm => ?_) first second
      accepts_perm_either accepts_perm_both right
    · exact sure_of_rule fun _ _ => meets_claim (first calm) rfl
    · exact sure_of_rule fun _ _ => meets_claim (second calm) rfl
  | .named name args =>
    have clear : s.Clear p (.ty (.named name args)) := takes.clear (t := .ty (.named name args)) bare
    have same : s.Accepts env p (.ty (.named name args)) ↔ _ := accepts_named
    refine sure_of_rule fun w _ => ?_
    change (match p.ofNamed name with
      | .always => pure ()
      | .never => .refuse e o (Rules.namedReason p name args)
      | .someArgument => .relayed (Rules.checkSome e o (args.map (.holds e p)))
      | .everyArgument => .relayed (.each (args.map fun t => .establish e p t o)) : Prog Unit).Settles _ _
        (s.Settled (s.Accepts env p (.ty (.named name args))) _) _
    cases rule : p.ofNamed name <;> rw [rule] at same
    · exact .ok fun _ _ => .inl ⟨rfl, same.mpr trivial⟩
    · exact meets_refuse fun calm => same.mp (right calm)
    · exact (meets_checkSome agrees (fun t member => clear.argument member) same right : Prog.Meets _ _ _ _ _ _).relayed
    · refine (meets_each (List.forall_mem_map.mpr fun t member => ?_) fun all =>
        same.mpr fun t member => ?_ : Prog.Meets _ _ _ _ _ _).relayed
      · exact demands_terms agrees args bare takes (fun calm => same.mp (right calm)) t member
      · exact all _ (List.mem_map_of_mem member)
  | .var v => exact sure_of_rule fun w _ => (meets_establishVar agrees accepts_tyVar right).relayed
  | .never =>
    refine sure_of_rule fun w _ => ?_
    cases p with
    | copy | lent => exact meets_refuse fun calm => nomatch accepts_never.mp (right calm)
    | move => exact .ok fun _ _ => .inl ⟨rfl, .never (.inl rfl)⟩
    | owned => exact .ok fun _ _ => .inl ⟨rfl, .never (.inr rfl)⟩

theorem demands_term (agrees : env.Agrees e) (t : Term) (bare : t.Bare) (takes : s.TakesPlaces env quiet t.leases)
    (right : quiet → s.Accepts env p t) : s.Sure env quiet (.establish e p t o) := by
  match t with
  | .ty t => exact sure_of_rule fun _ _ => meets_claim (demands_ty agrees t bare takes right) rfl
  | .perm q => exact sure_of_rule fun _ _ => meets_claim (demands_perm bare agrees takes right) rfl

theorem demands_terms (agrees : env.Agrees e) (ts : List Term) (bare : Term.AllBare ts)
    (takes : s.TakesPlaces env quiet (Term.leasesAll ts)) (right : quiet → ∀ t ∈ ts, s.Accepts env p t) :
    ∀ t ∈ ts, s.Sure env quiet (.establish e p t o) := by
  match ts with
  | [] => exact nofun
  | t :: ts =>
    refine List.forall_mem_cons.mpr ⟨?_, ?_⟩
    · exact demands_term agrees t bare.1 (takes.subset (List.subset_append_left _ _)) fun calm =>
        right calm t List.mem_cons_self
    · exact demands_terms agrees ts bare.2 (takes.subset (List.subset_append_right _ _)) fun calm t member =>
        right calm t (List.mem_cons_of_mem _ member)
end

end Requirements

theorem BarePlace.takes {place : Place} (bare : s.BarePlace place) : s.TakesPlaces env quiet [place] := by
  induction bare with
  | @intro place t typed plain leased takes =>
    have bare : s.BarePlace place := .intro typed plain leased
    refine List.forall_mem_singleton.mpr ⟨bare, fun e o agrees right => ?_⟩
    have same : s.Accepts env .copy (.place place) ↔ _ := accepts_place typed
    have sure : s.Sure env quiet (.establishTy e .copy t (o.becauseOfLeasedPlace place)) :=
      demands_ty agrees t plain (fun q member => takes q member q (List.mem_singleton_self q)) fun calm => same.mp (right calm)
    refine sure_of_rule fun w _ => meets_at typed fun v => ?_
    exact (meets_claim sure rfl).mono fun _ _ _ => Or.imp_left fun ⟨ended, accepts⟩ => ⟨ended, same.mpr accepts⟩

def Fulfils (s : Session) (env : Env) (o : Obligation) (p : Predicate) (t : Term) : Prop :=
  ∃ last, (Goal.require env p t o).Yields s (.ok ()) last

def Tested (s : Session) (env : Env) (p : Predicate) (t : Term) : Prop :=
  ∃ last, (Goal.holds env p t).Yields s (.ok true) last

section Answers

variable {t : Term} {o : Obligation} (types : s.BarePlaces places) (bare : t.Bare) (within : t.leases ⊆ places)
include types bare within

theorem sure_require (agrees : env.Agrees e) (right : quiet → s.Accepts env p t) :
    s.Sure env quiet (.require e p t o) := by
  refine sure_of_rule fun w _ => .awaited (.traced ?_)
  have takes : s.TakesPlaces env quiet t.leases := fun place member =>
    (types.bare place (within member)).takes place (List.mem_singleton_self place)
  exact meets_claim (demands_term agrees.fork t bare takes right) rfl

theorem require_yields {quiet : Prop} (right : quiet → s.Accepts env p t) :
    ∃ r last, (Goal.require env p t o).Yields s r last ∧ (quiet → last.diagnostics = s.diagnostics) ∧
      ((r = .ok () ∧ s.Accepts env p t) ∨
        ¬ quiet ∧ (∃ report, r = .error (.reported report)) ∧ s.Failed last) := by
  have sure : s.Sure env quiet (.require env p t o) :=
    sure_require types bare within rfl right
  obtain ⟨r, last, answers, w, yields, _, post, leads⟩ :=
    Goal.yields_of_settles id ground_start fun w leads => sure w leads.sound
  exact ⟨r, last, yields, leads.sound.2.2.1, post⟩

theorem yields_of_accepts (accepts : s.Accepts env p t) :
    ∃ last, (Goal.require env p t o).Yields s (.ok ()) last ∧ last.diagnostics = s.diagnostics := by
  obtain ⟨r, last, yields, calm, ⟨rfl, _⟩ | ⟨loud, _⟩⟩ := require_yields types bare within fun _ => accepts
  · exact ⟨last, yields, calm accepts⟩
  · exact (loud accepts).elim

theorem yields_of_not_accepts (refused : ¬ s.Accepts env p t) :
    ∃ report last, (Goal.require env p t o).Yields s (.error (.reported report)) last ∧ s.Failed last := by
  obtain ⟨r, last, yields, _, ⟨_, accepts⟩ | ⟨_, ⟨report, rfl⟩, failed⟩⟩ :=
    require_yields types bare within fun impossible : False => impossible.elim
  · exact (refused accepts).elim
  · exact ⟨report, last, yields, failed⟩

theorem fulfils_iff : s.Fulfils env o p t ↔ s.Accepts env p t := by
  constructor
  · rintro ⟨last, yields⟩
    by_contra refused
    obtain ⟨report, last', yields', _⟩ := yields_of_not_accepts types bare within refused
    cases (yields.unique yields').1
  · intro accepts
    obtain ⟨last, yields, _⟩ := yields_of_accepts types bare within accepts
    exact ⟨last, yields⟩

theorem tested_iff : s.Tested env p t ↔ s.Proves env p t := answers_true_iff (answers_holds env bare types within)

end Answers

/-- Requirements of predicates agree with their tests. Owned and lent are required with success exactly if
they provably hold. What is required to be copy provably is, and what provably is move may be required to
be, with equivalence if there is no `!`. A requirement that is met leaves no diagnostics, and one that is
not leaves some. -/
theorem requirement_agrees (types : s.BarePlaces places) (env : Env) (o : Obligation) {t : Term} (bare : t.Bare)
    (within : t.leases ⊆ places) :
    (s.Fulfils env o .owned t ↔ s.Tested env .owned t) ∧
    (s.Fulfils env o .lent t ↔ s.Tested env .lent t) ∧
    (s.Fulfils env o .copy t → s.Tested env .copy t) ∧
    (s.Tested env .move t → s.Fulfils env o .move t) ∧
    (s.NeverFree t → (s.Fulfils env o .copy t ↔ s.Tested env .copy t) ∧
      (s.Fulfils env o .move t ↔ s.Tested env .move t)) ∧
    ∀ p, (s.Fulfils env o p t → ∀ r last, (Goal.require env p t o).Yields s r last →
        last.diagnostics = s.diagnostics) ∧
      (¬ s.Fulfils env o p t → ∃ report last,
        (Goal.require env p t o).Yields s (.error (.reported report)) last ∧
          s.diagnostics.length < last.diagnostics.length) := by
  have tested (p : Predicate) : s.Tested env p t ↔ s.Proves env p t := tested_iff types bare within
  have fulfils (p : Predicate) : s.Fulfils env o p t ↔ s.Accepts env p t := fulfils_iff types bare within
  have clean (free : s.NeverFree t) : s.Clean t := by
    cases t with
    | place _ => exact bare.elim
    | _ => exact free
  simp only [tested, fulfils]
  refine ⟨⟨fun h => h.proves nofun, fun h => h.accepts nofun⟩, ⟨fun h => h.proves nofun, fun h => h.accepts nofun⟩,
    fun h => h.proves nofun, fun h => h.accepts nofun, fun free => ⟨?_, ?_⟩, fun p => ⟨?_, ?_⟩⟩
  · exact ⟨fun h => h.proves nofun, fun h => h.accepts fun _ => clean free⟩
  · exact ⟨fun h => h.proves fun _ => clean free, fun h => h.accepts nofun⟩
  · intro accepts r last yields
    obtain ⟨last', yields', calm⟩ := yields_of_accepts types bare within accepts
    rw [(yields.unique yields').2, calm]
  · exact yields_of_not_accepts types bare within

section Leasing

theorem leasing_barePlaces : leasing.BarePlaces [.var owner, .var borrower] := leasing_typesPlaces.bare

theorem leasing_neverFree : leasing.NeverFree (.ty (point.leasedFrom (.var borrower))) :=
  ⟨rfl, fun place u _ typed => by rcases placeTy?_leasing typed with ⟨_, rfl⟩ | ⟨_, rfl⟩ <;> rfl⟩

def pointIsCopy : Obligation := ⟨.predicate default (.ty point) .copy, []⟩

theorem requirement_agrees_leasing :
    leasing.BarePlaces [.var owner, .var borrower] ∧
      leasing.NeverFree (.ty (point.leasedFrom (.var borrower))) ∧
      leasing.Fulfils (.root []) pointIsCopy .move (.ty (point.leasedFrom (.var borrower))) ∧
      (∃ report last, (Goal.require (.root []) .copy (.ty (point.leasedFrom (.var borrower)))
        pointIsCopy).Yields leasing (.error (.reported report)) last ∧ 0 < last.diagnostics.length) ∧
      leasing.Tested (.root []) .copy (.ty .never) ∧
      ¬ leasing.Fulfils (.root []) pointIsCopy .copy (.ty .never) := by
  have within : [Place.var borrower] ⊆ [.var owner, .var borrower] := List.subset_cons_self _ _
  obtain ⟨_, _, _, _, agree, decides⟩ := requirement_agrees (t := .ty (point.leasedFrom (.var borrower)))
    leasing_barePlaces (.root []) pointIsCopy ⟨trivial, trivial⟩ within
  obtain ⟨copy, move⟩ := agree leasing_neverFree
  refine ⟨leasing_barePlaces, leasing_neverFree, move.mpr ⟨leasing, 60, _, rfl, rfl, rfl, rfl⟩,
    (decides .copy).2 fun fulfils => ?_, ⟨leasing, 20, _, rfl, rfl, rfl, rfl⟩, fun fulfils => ?_⟩
  · obtain ⟨last, yields⟩ := copy.mp fulfils
    have fails : (Goal.holds (.root []) .copy (.ty (point.leasedFrom (.var borrower)))).Yields leasing
        (.ok false) leasing := ⟨60, _, rfl, rfl, rfl, rfl⟩
    cases (yields.unique fails).1
  · have bare : Term.Bare (.ty .never) := trivial
    have accepts := (fulfils_iff leasing_barePlaces bare (List.nil_subset _)).mp fulfils
    exact nomatch accepts_never.mp accepts

end Leasing

end Session

end Ownership
