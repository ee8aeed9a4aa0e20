import Mathlib.Data.List.Forall2
import Ownership.Machine

namespace Ownership

structure Answer where
  {shape : Shape}
  goal : Goal shape
  value : Except Failure shape.Value

structure Moment where
  session : Session
  answers : List Answer

namespace Moment

def after (w : Moment) (f : Session → Session) : Moment := ⟨f w.session, w.answers⟩

def noting (w : Moment) {s : Shape} (g : Goal s) (r : Except Failure s.Value) : Moment :=
  ⟨w.session, ⟨g, r⟩ :: w.answers⟩

@[simp] theorem after_session (w : Moment) (f : Session → Session) : (w.after f).session = f w.session := rfl

@[simp] theorem after_answers (w : Moment) (f : Session → Session) : (w.after f).answers = w.answers := rfl

@[simp] theorem noting_session (w : Moment) {s : Shape} (g : Goal s) (r : Except Failure s.Value) :
    (w.noting g r).session = w.session := rfl

@[simp] theorem noting_answers (w : Moment) {s : Shape} (g : Goal s) (r : Except Failure s.Value) :
    (w.noting g r).answers = ⟨g, r⟩ :: w.answers := rfl

end Moment

/-- The sessions differ at most in who waits, in what is yet to be delivered, and in the trace. -/
def Session.Alike (s s' : Session) : Prop :=
  ∃ waiters signals rounds trace, s' =
    { s with waiters := waiters, signals := signals, settleRounds := rounds, trace := trace }

theorem Session.Alike.refl (s : Session) : s.Alike s := ⟨_, _, _, _, rfl⟩

theorem Session.Alike.trans {s s' s'' : Session} (first : s.Alike s') (second : s'.Alike s'') : s.Alike s'' := by
  obtain ⟨_, _, _, _, rfl⟩ := first
  obtain ⟨_, _, _, _, rfl⟩ := second
  exact ⟨_, _, _, _, rfl⟩

structure Contract where
  Sound : Moment → Prop
  Later : Moment → Moment → Prop
  /-- What the answer of a goal means that was asked at the first moment, at the second one. -/
  Post : ⦃s : Shape⦄ → Goal s → Moment → Except Failure s.Value → Moment → Prop
  Debt : Type
  Owed : Session → Debt → Prop
  Paid : Debt → Moment → Prop
  Waits : Prop
  later_refl : ∀ w, Later w w
  later_trans : ∀ {u v w}, Later u v → Later v w → Later u w
  post_later : ∀ {s} {g : Goal s} {start r w w'}, Post g start r w → Later w w' → Post g start r w'
  paid_later : ∀ {d w w'}, Paid d w → Later w w' → Paid d w'
  alike : ∀ {s s' answers}, s.Alike s' → Sound ⟨s, answers⟩ →
    Sound ⟨s', answers⟩ ∧ Later ⟨s, answers⟩ ⟨s', answers⟩
  owed_alike : ∀ {s s' d}, s.Alike s' → Owed s' d → Owed s d

abbrev Asks := ⦃s : Shape⦄ → Goal s → Moment → Prop

namespace Contract

variable (C : Contract)

def Leads (w w' : Moment) : Prop := C.Later w w' ∧ C.Sound w'

variable {C}
variable {w : Moment}

theorem Leads.refl (sound : C.Sound w) : C.Leads w w := ⟨C.later_refl w, sound⟩

theorem Leads.sound {w' : Moment} (leads : C.Leads w w') : C.Sound w' := leads.2

theorem Leads.trans {u v : Moment} (first : C.Leads u v) (second : C.Leads v w) : C.Leads u w :=
  ⟨C.later_trans first.1 second.1, second.2⟩

theorem Leads.alike {w' : Moment} {s : Session} (leads : C.Leads w w') (h : w'.session.Alike s) :
    C.Leads w ⟨s, w'.answers⟩ := by
  have kept := C.alike h leads.2
  exact ⟨C.later_trans leads.1 kept.2, kept.1⟩

variable (C)

def RaceEnds (decisive : Bool) (asked : List (Goal .truth × Moment)) :
    Except Failure Bool → Moment → Prop
  | .ok b, w => (b = decisive ∧ ∃ a ∈ asked, C.Post a.1 a.2 (.ok decisive) w) ∨
    (b = !decisive) ∧ ∀ a ∈ asked, C.Post a.1 a.2 (.ok !decisive) w
  | .error e, w => ∃ a ∈ asked, C.Post a.1 a.2 (.error e) w

def ContestEnds (asked : List (Goal .truth × Moment)) :
    Except Failure (Option Bool) → Moment → Prop
  | .ok none, _ => True
  | .ok (some b), w => C.RaceEnds false asked (.ok b) w
  | .error e, w => C.RaceEnds false asked (.error e) w

def GatherEnds {s : Shape} (asked : List (Goal s × Moment)) :
    Except Failure (List s.Value) → Moment → Prop
  | .ok vs, w => List.Forall₂ (fun a v => C.Post a.1 a.2 (.ok v) w) asked vs
  | .error e, w => ∃ a ∈ asked, C.Post a.1 a.2 (.error e) w

/-- A gathering that has asked some goals and goes on with the groups may ask these, and whatever it
ends in satisfies `K`. -/
def Gathers (A : Asks) {s : Shape} (K : Except Failure (List s.Value) → Moment → Prop) :
    List (Session → List (Goal s)) → List (Goal s × Moment) → Moment → Prop
  | [], asked, w => ∀ r w', C.Leads w w' → C.GatherEnds asked r w' → K r w'
  | group :: groups, asked, w => ∀ w', C.Leads w w' → (∀ g ∈ group w'.session, A g w') ∧
    Gathers A K groups (asked ++ (group w'.session).map (·, w')) w'

end Contract

/-- The program keeps the contract from the given moment on, asks only what `A` allows, and ends in
the postcondition. Only a program that is `owing` may cause debts or take over requirements; it then
ends with the debt paid. -/
def Prog.Meets (C : Contract) (A : Asks) (owing : Prop) {α : Type} :
    Prog α → (Except Failure α → Moment → Prop) → Moment → Prop
  | .done r, Q, w => ∀ w', C.Leads w w' → Q r w'
  | .update f k, Q, w => ∀ w', C.Leads w w' → C.Leads w' (w'.after f) ∧
    (k w'.session).Meets C A owing Q (w'.after f) ∧
    ∀ d, C.Owed (f w'.session) d → C.Owed w'.session d ∨
      owing ∧ (k w'.session).Meets C A owing (fun _ => C.Paid d) (w'.after f)
  | .call (s := s) g k, Q, w => ∀ w', C.Leads w w' → A g w' ∧ (s = .unit → owing) ∧
    ∀ r w'', C.Leads w' w'' → C.Post g w' r w'' → (k r).Meets C A owing Q w''
  | .rest _ k, Q, w => k.Meets C A owing Q w
  | .mark k, Q, w => ∀ n, (k n).Meets C A owing Q w
  | .note g r k, Q, w => ∀ w', C.Leads w w' → C.Leads w' (w'.noting g r) ∧
    k.Meets C A owing Q (w'.noting g r)
  | .park _ _ _ k, Q, w => ∀ w', C.Leads w w' → C.Waits ∧ ∀ wake, (k wake).Meets C A owing Q w'
  | .race decisive _ tests k, Q, w => ∀ w', C.Leads w w' → (∀ g ∈ tests, A g w') ∧
    ∀ r w'', C.Leads w' w'' → C.RaceEnds decisive (tests.map (·, w')) r w'' →
      (k r).Meets C A owing Q w''
  | .gather groups k, Q, w => C.Gathers A (fun r w' => (k r).Meets C A owing Q w') groups [] w
  | .contest _ tests k, Q, w => ∀ w', C.Leads w w' →
    (C.Waits ∧ tests ≠ []) ∧ (∀ g ∈ tests, A g w') ∧
    ∀ r w'', C.Leads w' w'' → C.ContestEnds (tests.map (·, w')) r w'' →
      (k r).Meets C A owing Q w''
  | .spawn _ g k, Q, w => (∀ w', C.Leads w w' → A g w') ∧ k.Meets C A owing Q w

namespace Contract

variable {C : Contract} {A B : Asks} {s : Shape}
variable {K L : Except Failure (List s.Value) → Moment → Prop}
variable {w w' : Moment} {asked : List (Goal s × Moment)} {groups : List (Session → List (Goal s))}

theorem RaceEnds.later {decisive : Bool} {asked : List (Goal .truth × Moment)} {r : Except Failure Bool}
    (ended : C.RaceEnds decisive asked r w) (later : C.Later w w') : C.RaceEnds decisive asked r w' := by
  have keep {a : Goal .truth × Moment} {r : Except Failure Bool} (post : C.Post a.1 a.2 r w) :
      C.Post a.1 a.2 r w' := C.post_later post later
  cases r with
  | error e =>
    obtain ⟨a, member, post⟩ := ended
    exact ⟨a, member, keep post⟩
  | ok b =>
    rcases ended with ⟨decided, a, member, post⟩ | ⟨undecided, posts⟩
    · exact .inl ⟨decided, a, member, keep post⟩
    · exact .inr ⟨undecided, fun a member => keep (posts a member)⟩

theorem GatherEnds.later {r : Except Failure (List s.Value)}
    (ended : C.GatherEnds asked r w) (later : C.Later w w') : C.GatherEnds asked r w' := by
  cases r with
  | error e =>
    obtain ⟨a, member, post⟩ := ended
    exact ⟨a, member, C.post_later post later⟩
  | ok vs => exact ended.imp fun _ _ post => C.post_later post later

theorem Gathers.catchUp
    (h : ∀ v, C.Leads w v → ∃ u, C.Gathers A K groups asked u ∧ C.Leads u v) : C.Gathers A K groups asked w := by
  cases groups with
  | nil => exact fun r v leads => have ⟨_, gathers, leads⟩ := h v leads; gathers r v leads
  | cons group groups => exact fun v leads => have ⟨_, gathers, leads⟩ := h v leads; gathers v leads

theorem Gathers.later (h : C.Gathers A K groups asked w) (later : C.Later w w') : C.Gathers A K groups asked w' :=
  .catchUp fun _ leads => ⟨w, h, C.later_trans later leads.1, leads.2⟩

theorem Gathers.imp (h : C.Gathers A K groups asked w) (asks : ∀ s (g : Goal s) w, A g w → B g w)
    (ends : ∀ r w', C.Leads w w' → K r w' → L r w') : C.Gathers B L groups asked w := by
  induction groups generalizing asked w with
  | nil => exact fun r w' leads ended => ends r w' leads (h r w' leads ended)
  | cons group groups ih =>
    intro w' leads
    obtain ⟨allowed, rest⟩ := h w' leads
    exact ⟨fun g member => asks s g w' (allowed g member),
      ih rest fun r v later => ends r v (leads.trans later)⟩

theorem Gathers.and (h : C.Gathers A K groups asked w) (h' : C.Gathers A L groups asked w) :
    C.Gathers A (fun r w => K r w ∧ L r w) groups asked w := by
  induction groups generalizing asked w with
  | nil => exact fun r w' leads ended => ⟨h r w' leads ended, h' r w' leads ended⟩
  | cons group groups ih =>
    exact fun w' leads => ⟨(h w' leads).1, ih (h w' leads).2 (h' w' leads).2⟩

end Contract

namespace Prog

variable {C : Contract} {A B : Asks} {owing : Prop} {α β : Type}
variable {Q R : Except Failure α → Moment → Prop} {p : Prog α} {w w' : Moment}

/-- A program meets its contract from `w` on if it does so from moments that lead wherever `w` leads. -/
theorem Meets.catchUp (h : ∀ v, C.Leads w v → ∃ u, p.Meets C A owing Q u ∧ C.Leads u v) : p.Meets C A owing Q w := by
  have now {P P' : Moment → Prop} (h : ∀ v, C.Leads w v → ∃ u, P u ∧ C.Leads u v)
      (holds : ∀ u, P u → ∀ v, C.Leads u v → P' v) (v : Moment) (leads : C.Leads w v) : P' v :=
    have ⟨u, found, leads⟩ := h v leads
    holds u found v leads
  induction p with
  | done r | update f k | call g k | note g r k | park i speculation enough k | race decisive passed tests k
  | contest search tests k => exact now h fun _ => id
  | rest turns k ih => exact ih h
  | mark k ih => exact fun n => ih n fun v leads => (h v leads).imp fun _ => .imp_left (· n)
  | gather groups k => exact Contract.Gathers.catchUp h
  | spawn description g k ih =>
    exact ⟨now h fun _ => And.left, ih fun v leads => (h v leads).imp fun _ => .imp_left And.right⟩

theorem Meets.of_leads (h : ∀ w', C.Leads w w' → p.Meets C A owing Q w') : p.Meets C A owing Q w :=
  .catchUp fun v leads => ⟨v, h v leads, .refl leads.sound⟩

theorem Meets.later (h : p.Meets C A owing Q w) (later : C.Later w w') : p.Meets C A owing Q w' :=
  .catchUp fun _ leads => ⟨w, h, C.later_trans later leads.1, leads.2⟩

/-- What a program ends in satisfies whatever follows from two postconditions that last. -/
theorem Meets.combine {owing' : Prop} {Q' : Except Failure α → Moment → Prop} (h : p.Meets C A owing Q w)
    (h' : p.Meets C A owing Q' w) (asks : ∀ s (g : Goal s) w, A g w → B g w) (may : owing → owing')
    (ends : ∀ r w', C.Leads w w' → (∀ v, C.Leads w' v → Q r v ∧ Q' r v) → R r w') : p.Meets C B owing' R w := by
  induction p generalizing Q Q' R w with
  | done r =>
    exact fun w' leads => ends r w' leads fun v later => ⟨h v (leads.trans later), h' v (leads.trans later)⟩
  | update f k ih =>
    intro w' leads
    obtain ⟨next, rest, debts⟩ := h w' leads
    refine ⟨next, ih _ rest (h' w' leads).2.1 fun r v later => ends r v ((leads.trans next).trans later), ?_⟩
    intro d owed
    rcases debts d owed with old | ⟨owes, paid⟩
    · exact .inl old
    · exact .inr ⟨may owes, ih _ paid paid fun _ v later both => (both v (.refl later.sound)).1⟩
  | call g k ih =>
    intro w' leads
    obtain ⟨allowed, owes, rest⟩ := h w' leads
    refine ⟨asks _ g w' allowed, may ∘ owes, fun r v later post => ?_⟩
    refine ih r (rest r v later post) ((h' w' leads).2.2 r v later post) ?_
    exact fun r u last => ends r u ((leads.trans later).trans last)
  | rest turns k ih => exact ih h h' ends
  | mark k ih => exact fun n => ih n (h n) (h' n) ends
  | note g r k ih =>
    intro w' leads
    obtain ⟨next, rest⟩ := h w' leads
    exact ⟨next, ih rest (h' w' leads).2 fun r v later => ends r v ((leads.trans next).trans later)⟩
  | park i speculation enough k ih =>
    exact fun w' leads => ⟨(h w' leads).1, fun wake => ih wake ((h w' leads).2 wake) ((h' w' leads).2 wake)
      fun r v later => ends r v (leads.trans later)⟩
  | race decisive passed tests k ih =>
    intro w' leads
    obtain ⟨allowed, rest⟩ := h w' leads
    refine ⟨fun g member => asks _ g w' (allowed g member), fun r v later ended => ?_⟩
    refine ih r (rest r v later ended) ((h' w' leads).2 r v later ended) ?_
    exact fun r u last => ends r u ((leads.trans later).trans last)
  | gather groups k ih =>
    exact (Contract.Gathers.and h h').imp asks fun r w' leads both =>
      ih r both.1 both.2 fun r v later => ends r v (leads.trans later)
  | contest search tests k ih =>
    intro w' leads
    obtain ⟨waits, allowed, rest⟩ := h w' leads
    refine ⟨waits, fun g member => asks _ g w' (allowed g member), fun r v later ended => ?_⟩
    refine ih r (rest r v later ended) ((h' w' leads).2.2 r v later ended) ?_
    exact fun r u last => ends r u ((leads.trans later).trans last)
  | spawn description g k ih => exact ⟨fun w' leads => asks _ g w' (h.1 w' leads), ih h.2 h'.2 ends⟩

theorem Meets.imp {owing' : Prop} (h : p.Meets C A owing Q w) (asks : ∀ s (g : Goal s) w, A g w → B g w)
    (may : owing → owing') (ends : ∀ r w', C.Leads w w' → Q r w' → R r w') : p.Meets C B owing' R w :=
  h.combine h asks may fun r w' leads both => ends r w' leads (both w' (.refl leads.sound)).1

theorem Meets.mono (h : p.Meets C A owing Q w) (ends : ∀ r w', C.Leads w w' → Q r w' → R r w') :
    p.Meets C A owing R w := h.imp (fun _ _ _ => id) id ends

theorem Meets.and (h : p.Meets C A owing Q w) (h' : p.Meets C A owing R w) :
    p.Meets C A owing (fun r w => Q r w ∧ R r w) w :=
  h.combine h' (fun _ _ _ => id) id fun _ w' leads both => both w' (.refl leads.sound)

theorem Meets.lasting (h : p.Meets C A owing Q w) : p.Meets C A owing (fun r w => ∀ w', C.Leads w w' → Q r w') w :=
  h.combine h (fun _ _ _ => id) id fun _ _ _ both v later => (both v later).1

theorem Meets.andThen {f : Except Failure α → Prog β} {R : Except Failure β → Moment → Prop}
    (h : p.Meets C A owing (fun r w' => (f r).Meets C A owing R w') w) : (p.andThen f).Meets C A owing R w := by
  induction p generalizing R w with
  | done r => exact .of_leads h
  | update g k ih =>
    intro w' leads
    obtain ⟨next, rest, debts⟩ := h w' leads
    refine ⟨next, ih _ rest, fun d owed => (debts d owed).imp_right fun ⟨may, paid⟩ => ⟨may, ih _ ?_⟩⟩
    -- the debt is paid before `f` comes in, and stays paid
    refine (rest.and paid).mono fun r v _ both => both.1.mono fun r u later _ => ?_
    exact C.paid_later both.2 later.1
  | call g k ih =>
    exact fun w' leads => ⟨(h w' leads).1, (h w' leads).2.1, fun r v later post =>
      ih r ((h w' leads).2.2 r v later post)⟩
  | rest turns k ih => exact ih h
  | mark k ih => exact fun n => ih n (h n)
  | note g r k ih => exact fun w' leads => ⟨(h w' leads).1, ih (h w' leads).2⟩
  | park i speculation enough k ih =>
    exact fun w' leads => ⟨(h w' leads).1, fun wake => ih wake ((h w' leads).2 wake)⟩
  | race decisive passed tests k ih =>
    exact fun w' leads => ⟨(h w' leads).1, fun r v later ended =>
      ih r ((h w' leads).2 r v later ended)⟩
  | gather groups k ih => exact Contract.Gathers.imp h (fun _ _ _ => id) fun r _ _ => ih r
  | contest search tests k ih =>
    exact fun w' leads => ⟨(h w' leads).1, (h w' leads).2.1, fun r v later ended =>
      ih r ((h w' leads).2.2 r v later ended)⟩
  | spawn description g k ih => exact ⟨h.1, ih h.2⟩

theorem andThen_done (p : Prog α) : p.andThen done = p := by
  induction p with
  | done r => rfl
  | rest turns k ih | note g r k ih | spawn description g k ih => exact congrArg _ ih
  | update f k ih | call g k ih | mark k ih | park i speculation enough k ih | race decisive passed tests k ih
  | gather groups k ih | contest search tests k ih => exact congrArg _ (funext ih)

def resume (f : α → Prog β) : Except Failure α → Prog β
  | .ok a => f a
  | .error e => done (.error e)

theorem bind_eq (p : Prog α) (f : α → Prog β) : p >>= f = p.andThen (resume f) := rfl

theorem andThen_assoc {γ : Type} (p : Prog α) (f : Except Failure α → Prog β)
    (g : Except Failure β → Prog γ) : (p.andThen f).andThen g = p.andThen fun r => (f r).andThen g := by
  induction p with
  | done r => rfl
  | rest turns k ih | note g r k ih | spawn description g k ih => exact congrArg _ ih
  | update f k ih | call g k ih | mark k ih | park i speculation enough k ih | race decisive passed tests k ih
  | gather groups k ih | contest search tests k ih => exact congrArg _ (funext ih)

instance : LawfulMonad Prog := by
  refine LawfulMonad.mk' Prog (fun p => ?_) (fun _ _ => rfl) fun p f g => ?_
  · calc id <$> p = p.andThen (resume fun a => done (.ok a)) := rfl
      _ = p.andThen done := congrArg p.andThen (funext fun r => by cases r <;> rfl)
      _ = p := andThen_done p
  · simp only [bind_eq, andThen_assoc]
    exact congrArg p.andThen (funext fun r => by cases r <;> rfl)

theorem Meets.bind {f : α → Prog β} {R : Except Failure β → Moment → Prop} (h : p.Meets C A owing Q w)
    (ok : ∀ a w', C.Leads w w' → Q (.ok a) w' → (f a).Meets C A owing R w')
    (error : ∀ e w', C.Leads w w' → Q (.error e) w' → R (.error e) w') : (p >>= f).Meets C A owing R w := by
  rw [bind_eq]
  refine Meets.andThen (h.lasting.mono fun r w' leads ends => ?_)
  cases r with
  | ok a => exact .of_leads fun v later => ok a v (leads.trans later) (ends v later)
  | error e => exact fun v later => error e v (leads.trans later) (ends v later)

theorem Meets.ok {a : α} (h : ∀ w', C.Leads w w' → Q (.ok a) w') : (pure a : Prog α).Meets C A owing Q w := h

theorem Meets.awaited (h : p.Meets C A owing Q w) : p.awaited.Meets C A owing Q w :=
  Meets.andThen h.lasting

theorem Meets.relayed (h : p.Meets C A owing Q w) : p.relayed.Meets C A owing Q w :=
  fun _ => Meets.andThen (h.lasting.mono fun _ _ _ ends _ => ends)

theorem Meets.noted {s : Shape} {p : Prog s.Value} {Q : Except Failure s.Value → Moment → Prop} {g : Goal s}
    (h : p.Meets C A owing (fun r w => C.Leads w (w.noting g r) ∧ Q r (w.noting g r)) w)
    (lasting : ∀ {r w w'}, Q r w → C.Later w w' → Q r w') : (p.noted g).Meets C A owing Q w :=
  Meets.andThen (h.lasting.mono fun _ _ _ ends w' leads =>
    ⟨(ends w' leads).1, fun _ later => lasting (ends w' leads).2 later.1⟩)

section Requests

variable {s : Shape} {g : Goal s} {Q : Except Failure s.Value → Moment → Prop} (h : ∀ w', C.Leads w w' → A g w' ∧
  (s = .unit → owing) ∧ ∀ r w'', C.Leads w' w'' → C.Post g w' r w'' → Q r w'')
include h

theorem Meets.call : (Prog.call g done).Meets C A owing Q w := by
  intro w' leads
  obtain ⟨allowed, may, ends⟩ := h w' leads
  exact ⟨allowed, may, fun r v later post u last => ends r u (later.trans last)
    (C.post_later post last.1)⟩

theorem Meets.ask : (Prog.ask g).Meets C A owing Q w := Meets.awaited (.call h)

theorem Meets.relay : (Prog.relay g).Meets C A owing Q w := Meets.relayed (.call h)

end Requests

end Prog

end Ownership
