import Mathlib.Order.WellFoundedSet
import Ownership.Proofs.BindingRules
import Ownership.Proofs.Records
import Ownership.Proofs.SoloRuns

namespace Ownership

open Relation (TransGen)

namespace Session

variable {s : Session}

def Mentions (s : Session) (i j : InferIndex) : Prop := ∃ b, s.lower? i = some b ∧ j ∈ b.term.infers

def Acyclic (s : Session) : Prop := ∀ i, ¬ TransGen s.Mentions i i

/-- The second type is what a walk that looks at the first goes on with. -/
def Continues (s : Session) (u t : Ty) : Prop :=
  ∃ i o, t.head = .infer i ∧ s.lower? i = some ⟨.ty u, o⟩

/-- From head to lower bound and so on, the type leads to one without a head to go on from. -/
def Founded (s : Session) (t : Ty) : Prop := Acc s.Continues t

theorem lt_length_of_lower? {i : InferIndex} {b : Bound} (bound : s.lower? i = some b) : i < s.inferVars.length := by
  by_contra outside
  rw [lower?, List.getElem?_eq_none (Nat.le_of_not_lt outside)] at bound
  cases bound

theorem Acyclic.wellFounded (acyclic : s.Acyclic) : WellFounded fun j i =>
    TransGen s.Mentions i j ∧ j < s.inferVars.length ∧ i < s.inferVars.length := by
  have order : IsStrictOrder InferIndex fun j i => TransGen s.Mentions i j :=
    { irrefl := acyclic
      trans := fun _ _ _ first second => second.trans first }
  exact Set.wellFoundedOn_iff.1 (Set.finite_lt_nat s.inferVars.length).wellFoundedOn

theorem Acyclic.founded (acyclic : s.Acyclic) (t : Ty) : s.Founded t := by
  have bounds (i : InferIndex) : ∀ u o, s.lower? i = some ⟨.ty u, o⟩ → s.Founded u := by
    induction i using acyclic.wellFounded.induction with
    | h i ih =>
      intro u o bound
      refine Acc.intro u fun u' ⟨j, o', head, next⟩ => ?_
      have mentions : s.Mentions i j := ⟨_, bound, Ty.mem_infers_of_head head⟩
      exact ih j ⟨.single mentions, lt_length_of_lower? next, lt_length_of_lower? bound⟩ u' o' next
  exact Acc.intro t fun u ⟨i, o, _, bound⟩ => bounds i u o bound

end Session

theorem Action.sameLowers_setFallback (i : InferIndex) (d : Default) :
    (Action.setFallback i d).Within Session.SameLowers := by
  intro s j
  simp only [setFallback, exec_bind, exec_inferVar]
  cases s.inferVars[i]? with
  | none => rfl
  | some v =>
    dsimp only [Option.elim]
    split
    · simp only [modifyInferVar, exec_modify, Session.lower?, List.getElem?_modify]
      cases s.inferVars[j]? with
      | none => rfl
      | some w => by_cases same : i = j <;> simp [same]
    · rfl

open Machine (solo)

/-- Nothing happens any more, or a goal is taken up that is handed over. -/
def Machine.Stops (Hands : ⦃sh : Shape⦄ → Goal sh → Prop) ⦃β : Type⦄ (m : Machine β) : Prop :=
  m.queue = [] ∨ ∃ (sh : Shape) (g : Goal sh) (s : Session) (n : Nat) (k : Except Failure sh.Value → Prog β),
    Hands g ∧ m = solo s n (.call g k)

namespace Prog

variable {Hands : ⦃sh : Shape⦄ → Goal sh → Prop}
variable {α β : Type} {s : Session} {p : Prog α} {P Q : Except Failure α → Prop} {R : Except Failure β → Prop}

/-- Wherever lower bounds are as in `s`, the program alone is done after finitely many steps, as the
postcondition says and with lower bounds as they were, or waits, or hands over. -/
def Rests (Hands : ⦃sh : Shape⦄ → Goal sh → Prop) (s : Session) (p : Prog α) (Q : Except Failure α → Prop) : Prop :=
  ∀ s', s.SameLowers s' → p.Completes (Machine.Stops Hands) s' fun r last => s.SameLowers last ∧ Q r

theorem rests_done {r : Except Failure α} (h : Q r) : (done r).Rests Hands s Q := fun _ same => completes_done ⟨same, h⟩

theorem rests_perform {a : Action α} (keeps : a.Within Session.SameLowers)
    (h : ∀ s', s.SameLowers s' → Q (a.exec s').1) : (perform a).Rests Hands s Q := fun s' same =>
  completes_perform fun last ⟨_, _, _, _, quiet⟩ => ⟨(same.trans (keeps s')).trans (.of_inferVars (by rw [quiet])), h s' same⟩

theorem rests_within {a : Action α} (keeps : a.Within Session.SameLowers) :
    (perform a).Rests Hands s fun _ => True := rests_perform keeps fun _ _ => trivial

theorem Rests.bind {f : α → Prog β} (first : p.Rests Hands s P) (next : ∀ a, P (.ok a) → (f a).Rests Hands s R)
    (failed : ∀ e, P (.error e) → R (.error e)) : (p >>= f).Rests Hands s R := fun s' same =>
  ((first s' same).mono fun r last ⟨same', h⟩ => match r with
    | .ok a => next a h last same'
    | .error e => completes_done ⟨same', failed e h⟩).bind

variable {sh : Shape} {g : Goal sh} {P : Except Failure sh.Value → Prop}

theorem rests_ask (rule : (Rules.rule sh g).Rests Hands s P) : (ask g).Rests Hands s P :=
  fun s' same => (rule s' same).call.awaited

theorem rests_relay (rule : (Rules.rule sh g).Rests Hands s P) : (relay g).Rests Hands s P :=
  fun s' same => (rule s' same).call.relayed

theorem rests_handed (handed : Hands g) : (relay g).Rests Hands s P := fun _ _ =>
  Completes.relayed fun _ _ reverts _ n _ => reverts.stops (.inr ⟨_, g, _, n, _, handed, rfl⟩)

theorem rests_wait (env : Env) (i : InferIndex) (enough : InferVar → Bool)
    {Q : Except Failure Unit → Prop} : (wait env i enough).Rests Hands s Q :=
  fun _ _ _ _ reverts _ _ _ => reverts.back rfl (reverts.stops (.inl rfl))

end Prog

namespace Rules

open Prog

variable {Hands : ⦃sh : Shape⦄ → Goal sh → Prop} {s : Session}

theorem sameLowers_of_spares {α : Type} {a : Action α} (spares : a.Spares) : a.Within Session.SameLowers :=
  fun s => .of_inferVars (spares s)

theorem rests_inferVar (i : InferIndex) :
    (perform (Action.inferVar i)).Rests Hands s fun r => ∀ v, r = .ok v → s.lower? i = v.lower := by
  refine rests_perform (sameLowers_of_spares (Action.spares_inferVar i)) fun s' same v known => ?_
  rw [← same i, Session.lower?]
  rw [Action.exec_inferVar] at known
  cases found : s'.inferVars[i]? with
  | none =>
    rw [found] at known
    cases known
  | some w =>
    rw [found] at known
    cases known
    rfl

theorem rests_lowerBound (env : Env) (i : InferIndex) : (lowerBound env i).Rests Hands s fun r =>
    ∀ b, r = .ok (some b) → s.lower? i = some b := by
  unfold lowerBound
  refine (rests_inferVar i).bind (fun v known => ?_) (by simp)
  split
  · rename_i b bound
    refine rests_done fun b' same => ?_
    cases same
    rw [known v rfl, bound]
  · refine (rests_wait env i _).bind (P := fun r => r = .ok ()) (fun _ _ => ?_) (by simp)
    refine (rests_inferVar i).bind (fun w known => rests_done fun b same => ?_) (by simp)
    rw [known w rfl]
    exact Except.ok.inj same

theorem rests_refuse {α : Type} (env : Env) (o : Obligation) (because : Because) :
    (Prog.refuse env o because : Prog α).Rests Hands s fun _ => True :=
  rests_within (sameLowers_of_spares (Action.spares_refuse env o because))

theorem rests_onLowerBound (env : Env) {i : InferIndex} (o : Obligation) {next : Ty → Obligation → Prog Unit}
    (rests : ∀ u origin, s.lower? i = some ⟨.ty u, origin⟩ →
      (next u (o.becauseOfLowerBound (.ty u) origin)).Rests Hands s fun _ => True) :
    (onLowerBound env i o next).Rests Hands s fun _ => True := by
  unfold onLowerBound
  refine (rests_ask (rests_lowerBound env i)).bind (fun found known => ?_) fun _ _ => trivial
  split
  · exact (rests_inferVar i).bind (fun _ _ => rests_refuse env o _) fun _ _ => trivial
  · exact rests _ _ (known _ rfl)
  · exact rests_done trivial

theorem rests_numeric (env : Env) {t : Ty} (o : Obligation) (founded : s.Founded t) :
    (numeric env t o).Rests Hands s fun _ => True := by
  induction founded generalizing o with
  | intro t _ ih =>
    unfold numeric
    split
    · exact rests_done trivial
    · exact rests_done trivial
    · exact rests_refuse env o _
    · split
      · exact rests_done trivial
      · exact rests_refuse env o _
    · exact rests_refuse env o _
    · rename_i i head
      refine (rests_within (Action.sameLowers_setFallback i _)).bind (fun _ _ => ?_) fun _ _ => trivial
      exact rests_onLowerBound env o fun u origin bound => rests_relay (ih u ⟨i, origin, head, bound⟩ _)

theorem rests_fieldTy (env : Env) {t : Ty} (f : Field) (founded : s.Founded t) :
    (fieldTy env t f).Rests Hands s fun _ => True := by
  induction founded with
  | intro t _ ih =>
    unfold fieldTy
    dsimp only
    split
    · split
      · exact rests_done trivial
      · refine (rests_within fun _ => .refl _).bind (fun session _ => ?_) fun _ _ => trivial
        cases declaredFieldTy session.program f _ <;> exact rests_done trivial
    · exact rests_done trivial
    · rename_i i head
      refine (rests_ask (rests_lowerBound env i)).bind (fun found known => ?_) fun _ _ => trivial
      split
      · rename_i u origin
        exact (rests_ask (ih u ⟨i, origin, head, known _ rfl⟩)).bind (fun _ _ => rests_done trivial)
          fun _ _ => trivial
      · refine (rests_inferVar i).bind (fun v _ => ?_) fun _ _ => trivial
        exact (rests_within (sameLowers_of_spares (Action.spares_report env _))).bind
          (fun _ _ => rests_done trivial) fun _ _ => trivial
    · exact rests_done trivial
    · exact rests_done trivial
    · exact rests_done trivial

theorem rests_futureHead (env : Env) {t : Ty} (awaited : Ty) (o : Obligation) (founded : s.Founded t)
    (hands : ∀ u o, Hands (.subTys env u awaited o)) :
    (futureHead env t awaited o).Rests Hands s fun _ => True := by
  induction founded generalizing o with
  | intro t _ ih =>
    unfold futureHead
    split
    · exact rests_done trivial
    · rename_i result _ _
      cases expected : result.expectTy with
      | error v => exact rests_done trivial
      | ok u => exact rests_handed (hands u o)
    · exact rests_done trivial
    · exact rests_refuse env o _
    · exact rests_refuse env o _
    · exact rests_refuse env o _
    · rename_i i head
      exact rests_onLowerBound env o fun u origin bound => rests_relay (ih u ⟨i, origin, head, bound⟩ _)

theorem spares_toPlace (env : Env) (f : Finding) : (f.toPlace env).Spares := by
  unfold Finding.toPlace
  split
  · exact fun _ => rfl
  · exact fun _ => rfl
  · exact (Action.spares_report env _).bind fun _ _ => rfl
  · exact (Action.spares_report env _).bind fun _ _ => rfl

theorem spares_toExpr (env : Env) (f : Finding) : (f.toExpr env).Spares := by
  unfold Finding.toExpr
  split
  · exact fun _ => rfl
  · exact fun _ => rfl
  · exact fun _ => rfl
  · exact (Action.spares_report env _).bind fun _ _ => rfl
  · exact (Action.spares_report env _).bind fun _ _ => rfl

theorem rests_member (env : Env) (owner : Finding) {ownerTy t : Ty} (name : Name) (span : Span)
    (founded : s.Founded ownerTy) (looks : s.Founded t) :
    (member env owner ownerTy t name span).Rests Hands s fun _ => True := by
  have reports (d : Diagnostic) : (perform (reportFinding env d)).Rests Hands s fun _ => True :=
    rests_within (sameLowers_of_spares ((Action.spares_report env d).bind fun _ _ => rfl))
  induction looks with
  | intro t _ ih =>
    unfold member
    dsimp only
    split
    · refine (rests_within fun _ => .refl _).bind (fun session _ => ?_) fun _ _ => trivial
      split
      · refine (rests_within (sameLowers_of_spares (spares_toPlace env owner))).bind (fun _ _ => ?_) fun _ _ => trivial
        exact (rests_ask (rests_fieldTy env _ founded)).bind (fun _ _ => rests_done trivial) fun _ _ => trivial
      · split
        · exact reports _
        · exact (rests_within (sameLowers_of_spares (spares_toExpr env owner))).bind (fun _ _ => rests_done trivial)
            fun _ _ => trivial
      · exact reports _
    · exact reports _
    · rename_i i head
      refine (rests_ask (rests_lowerBound env i)).bind (fun found known => ?_) fun _ _ => trivial
      split
      · rename_i u origin
        exact rests_relay (ih u ⟨i, origin, head, known _ rfl⟩)
      · exact reports _
    · exact rests_done trivial
    · exact reports _
    · exact reports _

end Rules

/-- The goal comes to rest, or another one takes its place. -/
def Goal.RestsOr {sh : Shape} (g : Goal sh) (Hands : ⦃sh : Shape⦄ → Goal sh → Prop) (start : Session) : Prop :=
  ∃ fuel, ((g.alone start).run Rules.answer fuel).Stops Hands

def Goal.Rests {sh : Shape} (g : Goal sh) (start : Session) : Prop :=
  ∃ fuel, ((g.alone start).run Rules.answer fuel).queue = []

/-- The goal compares something with the awaited type. -/
def Goal.Supplies (awaited : Ty) {sh : Shape} : Goal sh → Prop
  | .subTys _ _ upper _ => upper = awaited
  | _ => False

section Ending

variable {s : Session} {sh : Shape} {g : Goal sh} {P : Except Failure sh.Value → Prop}

theorem Prog.Rests.restsOr {Hands : ⦃sh : Shape⦄ → Goal sh → Prop} (rule : (Rules.rule sh g).Rests Hands s P) :
    g.RestsOr Hands s := by
  obtain ⟨fuel, stops | ⟨r, last, n, _, run⟩⟩ := (Prog.rests_ask rule s (.refl s)).run
  · exact ⟨fuel, stops⟩
  · refine ⟨fuel + 1, .inl ?_⟩
    change ((solo s 0 (.ask g)).run Rules.answer (fuel + 1)).queue = []
    rw [Machine.run_add, run]
    rfl

theorem Prog.Rests.goal (rule : (Rules.rule sh g).Rests (fun _ _ => False) s P) : g.Rests s := by
  obtain ⟨fuel, rest | ⟨_, _, _, _, _, handed, _⟩⟩ := rule.restsOr
  · exact ⟨fuel, rest⟩
  · exact handed.elim

end Ending

end Ownership
