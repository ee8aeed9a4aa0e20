import Ownership.Proofs.Requests
import Ownership.Proofs.Runs

namespace Ownership

variable {β : Type}

open Relation (ReflGen ReflTransGen TransGen)

section Scenes

variable {C : Contract} {A : Asks} {rules : Rules} {aims : Aims C β} {x y : Scene β}

def Scene.Assures (C : Contract) (A : Asks) (P : Moment → Prop) (x : Scene β) : Prop :=
  P x.moment ∨ ∃ t ∈ x.lives, t.1.Owing ∧ t.2.Meets C A x.roll (fun _ => P) x.moment

/-- Every debt is paid, or some fiber is bound to pay it. -/
def Scene.Honours (C : Contract) (A : Asks) (x : Scene β) : Prop :=
  ∀ debt, C.Owed x.moment.session debt → x.Assures C A (C.Paid debt)

variable {P : Moment → Prop}

theorem Scene.Shift.assures (shift : x.Shift rules (fun _ => True) y) (verified : rules.Verified C A) (correct : x.Correct A aims)
    (lasts : ∀ {w w'}, P w → C.Later w w' → P w') (assures : x.Assures C A P) : y.Assures C A P := by
  obtain @⟨roll, roll', w, w', w'', t, new, rest, next, alike, keeps, waiting, _⟩ := shift
  have sound : C.Sound w := correct.sound
  have leads := (next.goes_on verified sound correct.vouches (correct.meets t (Multiset.mem_cons_self _ _))).1
  have last : C.Later w' w'' := (Contract.Leads.quiet (.refl leads.sound) alike).1
  have now : C.Later w w'' := C.later_trans leads.1 last
  rcases assures with holds | ⟨bound, alive, owing, brings⟩
  · exact .inl (lasts holds now)
  · rcases Multiset.mem_cons.mp alive with rfl | other
    · obtain ⟨_, ⟨_, _, _, holds⟩ | ⟨t', started, rfl, brings⟩⟩ := next.goes_on verified sound correct.vouches brings
      · exact .inl (lasts holds last)
      · refine .inr ⟨⟨_, t'⟩, Multiset.mem_add.mpr (.inl ?_), owing, brings.later last⟩
        exact Multiset.mem_coe.mpr List.mem_cons_self
    · refine .inr ⟨bound, Multiset.mem_add.mpr (.inr other), owing, ?_⟩
      exact (brings.later now).frame (waiting bound other) fun _ _ => id

theorem Scene.Assures.shifts (assures : x.Assures C A P) (verified : rules.Verified C A)
    (correct : x.Correct A aims) (lasts : ∀ {w w'}, P w → C.Later w w' → P w')
    (shifts : ReflTransGen (Scene.Shift rules fun _ => True) x y) : y.Correct A aims ∧ y.Assures C A P := by
  induction shifts with
  | refl => exact ⟨correct, assures⟩
  | tail _ shift ih =>
    exact ⟨(shift.correct verified ih.1).2, shift.assures verified ih.1 lasts ih.2⟩

theorem Scene.Assures.alike {w : Moment} (assures : x.Assures C A P)
    (correct : x.Correct A aims) (lasts : ∀ {w w'}, P w → C.Later w w' → P w') (alike : x.moment.Alike w) :
    Scene.Assures C A P ⟨x.roll, x.lives, w⟩ := by
  have later := (correct.alike alike).1.1
  rcases assures with holds | ⟨t, alive, owing, brings⟩
  · exact .inl (lasts holds later)
  · exact .inr ⟨t, alive, owing, brings.later later⟩

theorem Live.Next.causes {heard : Wake → Prop} {roll roll' : Roll} {w w' : Moment} {d : Dest} {t : Live β d} {new : List (Sigma (Live β))}
    {Q : Except Failure (d.Answer β) → Moment → Prop} {debt : C.Debt}
    (next : Live.Next rules heard roll w ⟨d, t⟩ new roll' w') (sound : C.Sound w) (meets : t.Meets C A roll Q w) (owed : C.Owed w'.session debt) :
    C.Owed w.session debt ∨ d.Owing ∧ ∃ t' : Live β d, new = [⟨d, t'⟩] ∧
      t'.Meets C A roll' (fun _ => C.Paid debt) w' := by
  cases next with
  | update =>
    obtain ⟨_, _, debts⟩ := meets w (.refl sound)
    rcases debts debt owed with old | ⟨owing, pays⟩
    · exact .inl old
    · exact .inr ⟨owing, _, rfl, pays⟩
  | _ => exact .inl owed

theorem Scene.Shift.honours (shift : x.Shift rules (fun _ => True) y) (verified : rules.Verified C A)
    (correct : x.Correct A aims) (honours : x.Honours C A) : y.Honours C A := by
  intro debt owed
  have kept (old : C.Owed x.moment.session debt) : y.Assures C A (C.Paid debt) :=
    shift.assures verified correct C.paid_later (honours debt old)
  obtain @⟨roll, roll', w, w', w'', t, new, rest, next, alike, keeps, waiting, _⟩ := shift
  have sound : C.Sound w := correct.sound
  have own := correct.meets t (Multiset.mem_cons_self _ _)
  have leads := (next.goes_on verified sound correct.vouches own).1
  have last : C.Later w' w'' := (Contract.Leads.quiet (.refl leads.sound) alike).1
  rcases next.causes sound own (C.owed_alike alike.1 owed) with old | ⟨owing, t', rfl, pays⟩
  · exact kept old
  · refine .inr ⟨⟨_, t'⟩, Multiset.mem_add.mpr (.inl ?_), owing, pays.later last⟩
    exact Multiset.mem_coe.mpr List.mem_cons_self

theorem Scene.Honours.shifts (honours : x.Honours C A) (verified : rules.Verified C A)
    (correct : x.Correct A aims) (shifts : ReflTransGen (Scene.Shift rules fun _ => True) x y) :
    C.Leads x.moment y.moment ∧ y.Correct A aims ∧ y.Honours C A := by
  induction shifts with
  | refl => exact ⟨.refl correct.sound, correct, honours⟩
  | tail _ shift ih =>
    obtain ⟨leads, correct, honours⟩ := ih
    obtain ⟨last, correct'⟩ := shift.correct verified correct
    exact ⟨leads.trans last, correct', shift.honours verified correct honours⟩

theorem Scene.Honours.alike {w : Moment} (honours : x.Honours C A) (correct : x.Correct A aims)
    (alike : x.moment.Alike w) : Scene.Honours C A ⟨x.roll, x.lives, w⟩ := fun debt owed =>
  Scene.Assures.alike (honours debt (C.owed_alike alike.1 owed)) correct C.paid_later alike

end Scenes

section Settling

namespace Action

variable {α : Type}

abbrev Quiet (a : Action α) : Prop := a.Within Session.Alike

theorem quiet_settleOldest (running : Nat) : (settleOldest running).Quiet :=
  within_settleOldest .trans .refl (fun _ _ => ⟨_, _, _, _, rfl⟩) (fun _ _ => ⟨_, _, _, _, rfl⟩)
    (fun _ _ => ⟨_, _, _, _, rfl⟩) running

end Action

theorem Machine.settleOldest_cases (m : Machine β) :
    ∃ s, m.session.Alike s ∧ s.signals = m.session.signals ∧
      ((∃ e, m.settleOldest = (.error e, { m with session := s })) ∨
        ∃ ticket, m.settleOldest = (.ok (), { m with session := s }.wake ticket .settled)) := by
  refine ⟨_, Action.quiet_settleOldest m.running m.session,
    Action.within_settleOldest (R := fun s s' => s'.signals = s.signals) (fun first second => second.trans first)
      (fun _ => rfl) (fun _ _ => rfl) (fun _ _ => rfl) (fun _ _ => rfl) m.running m.session, ?_⟩
  rw [Machine.settleOldest, Action.exec]
  rcases (Action.settleOldest m.running).run.run m.session with ⟨_ | ticket, s⟩
  · exact .inl ⟨_, rfl⟩
  · exact .inr ⟨_, rfl⟩

end Settling

namespace Stage

inductive Step (rules : Rules) (Calls : Goal .unit → Prop) (σ : Stage β) : Stage β → Prop where
  | turn {τ : Stage β} (turn : σ.Turn rules τ) : Step rules Calls σ τ
  | call {g : Goal .unit} (description : String) (allowed : Calls g) :
    Step rules Calls σ ⟨σ.machine.spawn description (rules .unit g), σ.answers⟩
  | settle {m : Machine β} (settled : σ.machine.settleOldest = (.ok (), m)) :
    Step rules Calls σ ⟨m, σ.answers⟩

variable {Calls : Goal .unit → Prop} {goals : List (Goal .unit)}

theorem steps_of_turns {rules : Rules} {σ τ : Stage β}
    (turns : ReflTransGen (Turn rules) σ τ) : ReflTransGen (Step rules Calls) σ τ :=
  ReflTransGen.mono (fun _ _ => Step.turn) σ τ turns

def calling (rules : Rules) (description : String) (σ : Stage β) (goals : List (Goal .unit)) : Stage β :=
  ⟨goals.foldl (fun m g => m.spawn description (rules .unit g)) σ.machine, σ.answers⟩

theorem steps_calling {rules : Rules} (description : String) (allowed : ∀ g ∈ goals, Calls g) (σ : Stage β) :
    ReflTransGen (Step rules Calls) σ (σ.calling rules description goals) := by
  induction goals generalizing σ with
  | nil => exact .refl
  | cons g goals ih =>
    have first : Step rules Calls σ ⟨σ.machine.spawn description (rules .unit g), σ.answers⟩ :=
      .call description (allowed g List.mem_cons_self)
    exact .head first (ih (fun h member => allowed h (List.mem_cons_of_mem _ member)) _)

variable {C : Contract} {A : Asks} {aims : Aims C β} {slots : Nat → Nat} {roll roll' : Roll}
variable {rules : Rules} {σ τ : Stage β}

theorem Moves.honours (moves : Moves rules (fun _ => True) roll roll' σ τ) (verified : rules.Verified C A)
    (correct : (σ.scene roll).Correct A aims) (honours : (σ.scene roll).Honours C A) : (τ.scene roll').Honours C A := by
  rcases moves with shifts | ⟨same, _⟩
  · exact (honours.shifts verified correct shifts.to_reflTransGen).2.2
  · exact same ▸ honours

theorem Coherent.settle {m : Machine β} (coherent : σ.Coherent A aims slots roll) (verified : rules.Verified C A)
    (honours : (σ.scene roll).Honours C A) (settled : σ.machine.settleOldest = (.ok (), m)) :
    Coherent A aims slots roll ⟨m, σ.answers⟩ ∧ Scene.Honours C A (scene roll ⟨m, σ.answers⟩) := by
  obtain ⟨session, alike, _, ⟨e, failed⟩ | ⟨ticket, woken⟩⟩ := σ.machine.settleOldest_cases
  · cases settled.symm.trans failed
  cases settled.symm.trans woken
  let idle : Machine β := { σ.machine with session := session }
  have same : σ.moment.Alike ⟨session, σ.answers⟩ := ⟨alike, rfl⟩
  obtain ⟨leads, correct⟩ := coherent.correct.alike same
  have books : idle.Books slots roll :=
    coherent.books.transfer rfl rfl rfl rfl rfl coherent.books.tickets fun _ _ => Iff.rfl
  have woken : (idle.wake ticket .settled).Books slots roll ∧ ReflGen (Scene.Shift rules fun _ => True)
      ⟨roll, idle.lives, ⟨session, σ.answers⟩⟩ ⟨roll, (idle.wake ticket .settled).lives, ⟨session, σ.answers⟩⟩ :=
    books.wake _ ticket trivial
  obtain ⟨books, shift⟩ := woken
  obtain ⟨_, correct, honours⟩ :=
    (honours.alike coherent.correct same).shifts verified correct shift.to_reflTransGen
  have told : (idle.wake ticket .settled).told = σ.machine.told ∧
      (idle.wake ticket .settled).session = session := by
    unfold Machine.wake
    split <;> exact ⟨rfl, rfl⟩
  have moment : moment ⟨idle.wake ticket .settled, σ.answers⟩ = ⟨session, σ.answers⟩ :=
    congrArg (Moment.mk · σ.answers) told.2
  have results : (idle.wake ticket .settled).results = σ.machine.results := congrArg Prod.fst told.1
  have failures : (idle.wake ticket .settled).failures = σ.machine.failures :=
    congrArg Prod.snd told.1
  refine ⟨⟨moment ▸ correct, books, fun entry member => ?_, fun e member => ?_⟩, ?_⟩
  · rw [moment]
    exact aims.root_later (coherent.results entry (results ▸ member)) leads.1
  · rw [moment]
    exact aims.task_later (coherent.failures e (failures ▸ member)) leads.1
  · rw [scene, moment]
    exact honours

theorem Coherent.steps (coherent : σ.Coherent A aims slots roll)
    (verified : rules.Verified C A) (allowed : ∀ g, Calls g → ∀ w, A g w)
    (honours : (σ.scene roll).Honours C A) (steps : ReflTransGen (Step rules Calls) σ τ) :
    ∃ roll', τ.Coherent A aims slots roll' ∧ (τ.scene roll').Honours C A := by
  induction steps with
  | refl => exact ⟨roll, coherent, honours⟩
  | tail _ step ih =>
    obtain ⟨roll', coherent, honours⟩ := ih
    cases step with
    | turn turn =>
      obtain ⟨roll'', next, moves, _⟩ := coherent.turn verified turn
      exact ⟨roll'', next, moves.honours verified coherent.correct honours⟩
    | @call g description calls =>
      rename_i σ' _
      refine ⟨roll', coherent.spawn verified description (allowed g calls _), ?_⟩
      intro debt owed
      refine (honours debt owed).imp_right fun ⟨t, alive, pays⟩ => ⟨t, ?_, pays⟩
      have lives : (σ'.machine.spawn description (rules .unit g)).lives =
        ⟨.task description, .running (rules .unit g)⟩ ::ₘ σ'.machine.lives := Machine.lives_enqueue _ _
      change t ∈ (σ'.machine.spawn description (rules .unit g)).lives
      rw [lives]
      exact Multiset.mem_cons_of_mem alive
    | settle settled => exact ⟨roll', coherent.settle verified honours settled⟩

/-- A run in which exactly these requirements come in, in this order, as tasks. Events are handled in
between, in any order. -/
inductive Serves (rules : Rules) : List (Goal .unit) → Stage β → Stage β → Prop where
  | rest {σ : Stage β} : Serves rules [] σ σ
  | turn {goals : List (Goal .unit)} {σ τ υ : Stage β} (turn : σ.Turn rules τ)
    (rest : Serves rules goals τ υ) : Serves rules goals σ υ
  | call {g : Goal .unit} {goals : List (Goal .unit)} {σ υ : Stage β} (description : String)
    (rest : Serves rules goals ⟨σ.machine.spawn description (rules .unit g), σ.answers⟩ υ) :
    Serves rules (g :: goals) σ υ

theorem Serves.steps (serves : Serves rules goals σ τ) (allowed : ∀ g ∈ goals, Calls g) :
    ReflTransGen (Step rules Calls) σ τ := by
  induction serves with
  | rest => exact .refl
  | turn turn _ ih => exact .head (.turn turn) (ih allowed)
  | @call g goals σ υ description _ ih =>
    have first : Step rules Calls σ ⟨σ.machine.spawn description (rules .unit g), σ.answers⟩ :=
      .call description (allowed g List.mem_cons_self)
    exact .head first (ih fun h member => allowed h (List.mem_cons_of_mem _ member))

theorem serves_turns {υ : Stage β} (turns : ReflTransGen (Turn rules) σ τ)
    (serves : Serves rules goals τ υ) : Serves rules goals σ υ := by
  induction turns using ReflTransGen.head_induction_on with
  | refl => exact serves
  | head turn _ ih => exact .turn turn ih

theorem serves_calling (description : String) (goals : List (Goal .unit)) (σ : Stage β)
    (turns : ReflTransGen (Turn rules) (σ.calling rules description goals) τ) : Serves rules goals σ τ := by
  induction goals generalizing σ with
  | nil => exact serves_turns turns .rest
  | cons g goals ih => exact .call description (ih ⟨_, σ.answers⟩ turns)

theorem Moves.assures {P : Moment → Prop} (moves : Moves rules (fun _ => True) roll roll' σ τ) (verified : rules.Verified C A)
    (correct : (σ.scene roll).Correct A aims) (lasts : ∀ {w w'}, P w → C.Later w w' → P w')
    (assures : (σ.scene roll).Assures C A P) : (τ.scene roll').Assures C A P := by
  rcases moves with shifts | ⟨same, _⟩
  · exact (assures.shifts verified correct lasts shifts.to_reflTransGen).2
  · exact same ▸ assures

theorem Coherent.serves (coherent : σ.Coherent A aims slots roll) (verified : rules.Verified C A)
    (allowed : ∀ g ∈ goals, ∀ w, C.Sound w → A g w) (serves : Serves rules goals σ τ) :
    ∃ roll', τ.Coherent A aims slots roll' ∧
      (∀ g ∈ goals, (τ.scene roll').Assures C A fun w => ∃ start r, C.Post g start r w) ∧
      ∀ P : Moment → Prop, (∀ {w w'}, P w → C.Later w w' → P w') →
        (σ.scene roll).Assures C A P → (τ.scene roll').Assures C A P := by
  induction serves generalizing roll with
  | rest => exact ⟨roll, coherent, fun _ member => absurd member List.not_mem_nil, fun _ _ => id⟩
  | turn turn _ ih =>
    obtain ⟨roll₁, next, moves, _⟩ := coherent.turn verified turn
    obtain ⟨roll₂, last, answered, kept⟩ := ih next allowed
    refine ⟨roll₂, last, answered, fun P lasts assures => kept P lasts ?_⟩
    exact moves.assures verified coherent.correct lasts assures
  | @call g goals σ υ description _ ih =>
    have asked : A g σ.moment := allowed g List.mem_cons_self _ coherent.correct.sound
    obtain ⟨roll', last, answered, kept⟩ := ih (coherent.spawn verified description asked)
      fun h member => allowed h (List.mem_cons_of_mem _ member)
    have lives : (σ.machine.spawn description (rules .unit g)).lives =
      ⟨.task description, .running (rules .unit g)⟩ ::ₘ σ.machine.lives := Machine.lives_enqueue _ _
    refine ⟨roll', last, List.forall_mem_cons.mpr ⟨?_, answered⟩, fun P lasts assures => kept P lasts ?_⟩
    · refine kept _ (fun ⟨start, r, post⟩ later => ⟨start, r, C.post_later post later⟩) (.inr ?_)
      refine ⟨⟨.task description, .running (rules .unit g)⟩, ?_, trivial, ?_⟩
      · change _ ∈ (σ.machine.spawn description (rules .unit g)).lives
        rw [lives]
        exact Multiset.mem_cons_self _ _
      · exact (verified _ g _ coherent.correct.sound asked).imp (fun _ _ _ => id) (fun _ => trivial)
          fun r v _ post => ⟨_, r, post⟩
    · refine assures.imp_right fun ⟨t, alive, brings⟩ => ⟨t, ?_, brings⟩
      change t ∈ (σ.machine.spawn description (rules .unit g)).lives
      rw [lives]
      exact Multiset.mem_cons_of_mem alive

def Complete (σ : Stage β) : Prop :=
  σ.machine.queue = [] ∧ ∀ t ∈ σ.machine.lives, ¬ t.1.Owing

theorem complete_of_rest (queue : σ.machine.queue = []) (joins : σ.machine.joins = [])
    (suspended : σ.machine.suspended = []) : σ.Complete := by
  refine ⟨queue, fun t alive => ?_⟩
  simp [Machine.lives, queue, joins, suspended] at alive

/-- In the end no debt is left. -/
theorem paid_of_complete {debt : C.Debt} (honours : (σ.scene roll).Honours C A)
    (complete : σ.Complete) (owed : C.Owed σ.machine.session debt) : C.Paid debt σ.moment := by
  rcases honours debt owed with paid | ⟨t, alive, owing, _⟩
  · exact paid
  · exact (complete.2 t alive owing).elim

end Stage

end Ownership
