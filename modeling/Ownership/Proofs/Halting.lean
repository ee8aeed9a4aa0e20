import Mathlib.Logic.Hydra
import Ownership.Proofs.Runs

namespace Ownership

variable {β : Type}

open Relation (ReflTransGen TransGen CutExpand)

/-- The goals whose rules ask, at whatever depth, for finitely many goals, and answer as the contract
says: the least set that contains a goal once it contains what its rule asks for. -/
def Rules.Settles (rules : Rules) (C : Contract) : Asks := fun _ g w =>
  ∀ A : Asks, (∀ s (g : Goal s) w, C.Sound w →
    (rules s g).Meets C A (s = .unit) (C.Post g w) w → A g w) → A g w

section Settling

variable {rules : Rules} {C : Contract} {s : Shape} {g : Goal s} {w : Moment}

theorem Rules.Settles.intro (sound : C.Sound w)
    (meets : (rules s g).Meets C (rules.Settles C) (s = .unit) (C.Post g w) w) : rules.Settles C g w := fun A closed =>
  closed s g w sound (meets.imp (fun _ _ _ settles => settles A closed) id fun _ _ _ => id)

theorem Rules.verified_settles : rules.Verified C (rules.Settles C) := by
  intro s g w sound settles
  refine (settles (fun s g w => C.Sound w ∧
    (rules s g).Meets C (rules.Settles C) (s = .unit) (C.Post g w) w) ?_).2
  intro s g w sound meets
  exact ⟨sound, meets.imp (fun _ _ _ both => .intro both.1 both.2) id fun _ _ _ => id⟩

end Settling

structure Point (β : Type) where
  roll : Roll
  moment : Moment
  live : Sigma (Live β)

def Point.Next (C : Contract) (rules : Rules) (heard : Wake → Prop) (b a : Point β) : Prop :=
  ∃ roll w new, C.Leads a.moment w ∧ C.Vouches roll w ∧
    (∀ join, a.live.2.join? = some join → roll.asked join = a.roll.asked join) ∧
      Live.Next rules heard roll w a.live new b.roll b.moment ∧ b.live ∈ new

def Point.Halts (C : Contract) (rules : Rules) (heard : Wake → Prop) (a : Point β) : Prop := Acc (Point.Next C rules heard) a

theorem Point.Halts.intro {C : Contract} {rules : Rules} {heard : Wake → Prop} {roll : Roll} {w : Moment}
    {t : Sigma (Live β)} (step : ∀ roll₀ v new roll' v', C.Leads w v → C.Vouches roll₀ v →
      (∀ join, t.2.join? = some join → roll₀.asked join = roll.asked join) →
      Live.Next rules heard roll₀ v t new roll' v' → ∀ t' ∈ new, Halts C rules heard ⟨roll', v', t'⟩) :
    Halts C rules heard ⟨roll, w, t⟩ := by
  refine Acc.intro _ fun b next => ?_
  obtain ⟨roll₀, v, new, leads, vouches, same, next, member⟩ := next
  exact step roll₀ v new b.roll b.moment leads vouches same next b.live member

theorem Point.Halts.parked {C : Contract} {rules : Rules} {heard : Wake → Prop} {roll : Roll} {w : Moment} {d : Dest}
    {code : Wake → Prog (d.Answer β)} (silent : ∀ reason, ¬ heard reason) :
    Halts C rules heard ⟨roll, w, ⟨d, .parked code⟩⟩ := by
  refine .intro fun roll₀ v new roll' v' leads vouches same next => ?_
  cases next with
  | wake told => exact (silent _ told).elim

namespace Prog

variable {C : Contract} {rules : Rules} {heard : Wake → Prop} {α : Type} {d : Dest} {owing : Prop} {w : Moment}

def Halts (C : Contract) (rules : Rules) (heard : Wake → Prop) (d : Dest) (p : Prog (d.Answer β)) (w : Moment) : Prop :=
  ∀ roll, Point.Halts C rules heard ⟨roll, w, ⟨d, .running p⟩⟩

def Passes (β : Type) (C : Contract) (rules : Rules) (heard : Wake → Prop) : Asks := fun s g w =>
  ∀ (d : Dest) (k : Except Failure s.Value → Prog (d.Answer β)),
    (∀ r w', C.Leads w w' → C.Post g w r w' → Halts C rules heard d (k r) w') →
      Halts C rules heard d ((rules s g).andThen k) w

theorem halts_done {r : Except Failure (d.Answer β)} : Halts C rules heard d (done r) w := by
  refine fun roll => .intro fun roll₀ v new roll' v' leads _ same next t member => ?_
  cases next
  cases member

theorem Passes.halts {s : Shape} {g : Goal s} (passes : Passes β C rules heard g w) (join index : Nat) :
    Halts (β := β) C rules heard (.child s join index) (rules s g) w := by
  have halts := passes (.child s join index) done fun _ _ _ _ => halts_done
  have same : (rules s g).andThen (β := Dest.Answer β (.child s join index)) done = rules s g :=
    andThen_done _
  exact same ▸ halts

theorem Halts.intro {p : Prog (d.Answer β)} (step : ∀ roll v new roll' v', C.Leads w v →
    Live.Next rules heard roll v ⟨d, .running p⟩ new roll' v' →
      ∀ t ∈ new, Point.Halts C rules heard ⟨roll', v', t⟩) : Halts C rules heard d p w := by
  exact fun roll => .intro fun roll₀ v new roll' v' leads _ _ next => step roll₀ v new roll' v' leads next

theorem halts_asked {s : Shape} {goals : List (Goal s)} {roll : Roll} {join first : Nat}
    (passes : ∀ g ∈ goals, Passes β C rules heard g w) :
    ∀ t ∈ (Live.asked rules join first goals : List (Sigma (Live β))), Point.Halts C rules heard ⟨roll, w, t⟩ := by
  intro t member
  obtain ⟨⟨g, index⟩, position, rfl⟩ := List.mem_map.mp member
  obtain ⟨_, _, same⟩ := List.mem_zipIdx position
  exact (passes g (same ▸ List.getElem_mem _)).halts join index roll

theorem halts_gathering {s : Shape} {groups : List (Session → List (Goal s))} {join : Nat}
    {code : Except Failure (List s.Value) → Prog (d.Answer β)} {roll : Roll}
    {asked : List (Goal s × Moment)} (known : roll.asked join = ⟨s, asked⟩)
    (gathers : C.Gathers (Passes β C rules heard) (fun r v => Halts C rules heard d (code r) v) groups asked w) :
    Point.Halts C rules heard ⟨roll, w, ⟨d, .gathering join s groups code⟩⟩ := by
  induction groups generalizing roll w asked with
  | nil =>
    refine .intro fun roll₀ v new roll' v' leads vouches same next t member => ?_
    cases next with
    | gatherEnds ends =>
      rw [List.mem_singleton.mp member]
      exact gathers _ v leads (vouches.gatherEnds ((same join rfl).trans known) ends) _
  | cons group groups ih =>
    refine .intro fun roll₀ v new roll' v' leads _ same next t member => ?_
    obtain ⟨passes, rest⟩ := gathers v leads
    cases next with
    | enlist known' =>
      rw [same join rfl, known] at known'
      cases known'
      rcases List.mem_cons.mp member with rfl | child
      · exact ih (Function.update_self ..) rest
      · exact halts_asked passes t child

theorem halts_andThen {p : Prog α} {Q : Except Failure α → Moment → Prop} {k : Except Failure α → Prog (d.Answer β)}
    (silent : C.Waits → ∀ reason, ¬ heard reason) (sound : C.Sound w) (meets : p.Meets C (Passes β C rules heard) owing Q w)
    (goes_on : ∀ r v, C.Leads w v → Q r v → Halts C rules heard d (k r) v) : Halts C rules heard d (p.andThen k) w := by
  induction p generalizing w with
  | done r => exact goes_on r w (.refl sound) (meets w (.refl sound))
  | update f next ih =>
    refine .intro fun roll v new roll' v' leads adv t member => ?_
    cases adv
    rw [List.mem_singleton.mp member]
    obtain ⟨after, rest, _⟩ := meets v leads
    exact ih _ after.sound rest (fun r u later => goes_on r u (leads.trans (after.trans later))) _
  | call g next ih =>
    refine .intro fun roll v new roll' v' leads adv t member => ?_
    cases adv
    rw [List.mem_singleton.mp member]
    obtain ⟨passes, _, rest⟩ := meets v leads
    refine passes d _ (fun r u later post => ?_) _
    exact ih r later.sound (rest r u later post) fun r' u' last =>
      goes_on r' u' ((leads.trans later).trans last)
  | rest turns next ih =>
    induction turns generalizing w with
    | zero =>
      refine .intro fun roll v new roll' v' leads adv t member => ?_
      cases adv
      rw [List.mem_singleton.mp member]
      exact ih leads.sound (Meets.later meets leads.1) (fun r u later => goes_on r u (leads.trans later)) _
    | succ turns again =>
      refine .intro fun roll v new roll' v' leads adv t member => ?_
      cases adv
      rw [List.mem_singleton.mp member]
      exact again leads.sound (Meets.later meets leads.1)
        (fun r u later => goes_on r u (leads.trans later)) _
  | mark next ih =>
    refine .intro fun roll v new roll' v' leads adv t member => ?_
    cases adv
    rw [List.mem_singleton.mp member]
    exact ih _ leads.sound (Meets.later (meets _) leads.1)
      (fun r u later => goes_on r u (leads.trans later)) _
  | note g r next ih =>
    refine .intro fun roll v new roll' v' leads adv t member => ?_
    cases adv
    rw [List.mem_singleton.mp member]
    obtain ⟨next, rest⟩ := meets v leads
    exact ih next.sound rest (fun r u later => goes_on r u (leads.trans (next.trans later))) _
  | park i speculation enough next ih =>
    refine .intro fun roll v new roll' v' leads adv t member => ?_
    cases adv
    rw [List.mem_singleton.mp member]
    exact .parked (silent (meets v leads).1)
  | race decisive passed tests next ih =>
    refine .intro fun roll v new roll' v' leads adv t member => ?_
    obtain ⟨passes, rest⟩ := meets v leads
    have on (r : Except Failure Bool) {u : Moment} (later : C.Leads v u)
        (ends : C.RaceEnds decisive (tests.map (·, v)) r u) :
        Halts C rules heard d ((next r).andThen k) u :=
      ih r later.sound (rest r u later ends) fun r' u' last =>
        goes_on r' u' ((leads.trans later).trans last)
    cases adv with
    | untested =>
      rw [List.mem_singleton.mp member]
      exact on (.ok !decisive) (.refl leads.sound)
        (.inr ⟨rfl, fun _ member => absurd member List.not_mem_nil⟩) _
    | race join =>
      rcases List.mem_cons.mp member with rfl | child
      · refine .intro fun roll₀ u new roll' u' later vouches same next t member => ?_
        cases next with
        | raceEnds ends =>
          rw [List.mem_singleton.mp member]
          exact on _ later (vouches.raceEnds ((same join rfl).trans (Roll.asked_opening _)) ends) _
      · exact halts_asked passes t child
  | gather groups next ih =>
    refine .intro fun roll v new roll' v' leads adv t member => ?_
    cases adv
    rw [List.mem_singleton.mp member]
    refine halts_gathering (Function.update_self ..) ?_
    refine (Contract.Gathers.later meets leads.1).imp (fun _ _ _ => id) fun r u later rest => ?_
    exact ih r later.sound rest fun r' u' last => goes_on r' u' ((leads.trans later).trans last)
  | contest search tests next ih =>
    refine .intro fun roll v new roll' v' leads adv t member => ?_
    obtain ⟨_, passes, rest⟩ := meets v leads
    cases adv with
    | contest join =>
      rcases List.mem_cons.mp member with rfl | child
      · refine .intro fun roll₀ u new roll' u' later vouches same next t member => ?_
        cases next with
        | contestEnds ends =>
          rw [List.mem_singleton.mp member]
          exact ih _ later.sound (rest _ u later (vouches.contestEnds ((same join rfl).trans (Roll.asked_opening _)) ends))
            (fun r' u' last => goes_on r' u' ((leads.trans later).trans last)) _
      · exact halts_asked passes t child
  | spawn description g next ih =>
    refine .intro fun roll v new roll' v' leads adv t member => ?_
    cases adv
    rcases List.mem_cons.mp member with rfl | task
    · exact ih leads.sound (Meets.later meets.2 leads.1) (fun r u later => goes_on r u (leads.trans later)) _
    · rw [List.mem_singleton.mp task]
      have halts := meets.1 v leads (.task description) done fun _ _ _ _ => halts_done
      have same : (rules .unit g).andThen (β := Dest.Answer β (.task description)) done =
        rules .unit g := andThen_done _
      exact (same ▸ halts) _

end Prog

section Fibers

variable {C : Contract} {rules : Rules} {heard : Wake → Prop} {roll : Roll} {w : Moment} {d : Dest}

theorem Rules.Settles.passes {s : Shape} {g : Goal s} (silent : C.Waits → ∀ reason, ¬ heard reason)
    (settles : rules.Settles C g w) : Prog.Passes β C rules heard g w :=
  settles _ fun _ _ _ sound meets _ _ goes_on => Prog.halts_andThen silent sound meets goes_on

theorem Live.Meets.halts {t : Live β d} {Q : Except Failure (d.Answer β) → Moment → Prop} (silent : C.Waits → ∀ reason, ¬ heard reason)
    (sound : C.Sound w) (meets : t.Meets C (rules.Settles C) roll Q w) : Point.Halts C rules heard ⟨roll, w, ⟨d, t⟩⟩ := by
  have program {p : Prog (d.Answer β)} {v : Moment} (sound : C.Sound v)
      (meets : p.Meets C (rules.Settles C) d.Owing Q v) : Prog.Halts C rules heard d p v := by
    have passes : p.Meets C (Prog.Passes β C rules heard) d.Owing Q v :=
      meets.imp (fun _ _ _ settles => settles.passes silent) id fun _ _ _ => id
    have halts := Prog.halts_andThen (k := Prog.done) silent sound passes fun _ _ _ _ => Prog.halts_done
    rwa [Prog.andThen_done] at halts
  cases t with
  | running code => exact program sound meets roll
  | parked code => exact .parked (silent meets.1)
  | contesting join code =>
    obtain ⟨_, asked, known, rest⟩ := meets
    refine .intro fun roll₀ v new roll' v' leads vouches same next t member => ?_
    cases next with
    | contestEnds ends =>
      rw [List.mem_singleton.mp member]
      exact program leads.sound (rest _ v leads (vouches.contestEnds ((same join rfl).trans known) ends)) _
  | racing join decisive code =>
    obtain ⟨asked, known, rest⟩ := meets
    refine .intro fun roll₀ v new roll' v' leads vouches same next t member => ?_
    cases next with
    | raceEnds ends =>
      rw [List.mem_singleton.mp member]
      exact program leads.sound (rest _ v leads (vouches.raceEnds ((same join rfl).trans known) ends)) _
  | gathering join s groups code =>
    obtain ⟨asked, known, gathers⟩ := meets
    refine Prog.halts_gathering known (gathers.imp (fun _ _ _ settles => settles.passes silent) ?_)
    exact fun r v leads rest => program leads.sound rest

end Fibers

structure Scene.SeenAs (C : Contract) (x : Scene β) (points : Multiset (Point β)) : Prop where
  lives : points.map Point.live = x.lives
  leads : ∀ a ∈ points, C.Leads a.moment x.moment
  joins : ∀ a ∈ points, ∀ join, a.live.2.join? = some join → x.roll.asked join = a.roll.asked join

def Point.Nears (C : Contract) (rules : Rules) (heard : Wake → Prop) (b a : Point β) : Prop :=
  Point.Next C rules heard b a ∧ Point.Halts C rules heard a

instance (C : Contract) (rules : Rules) (heard : Wake → Prop) : Std.Irrefl (Point.Nears (β := β) C rules heard) where
  irrefl a nears := by
    obtain ⟨next, halts⟩ := nears
    induction halts with
    | intro a _ ih => exact ih a next next

section Descent

variable {C : Contract} {rules : Rules} {heard : Wake → Prop} {x y : Scene β} {points : Multiset (Point β)}

theorem Point.Halts.acc {a : Point β} (halts : a.Halts C rules heard) : Acc (Point.Nears C rules heard) a := by
  induction halts with
  | intro a _ ih => exact .intro a fun b nears => ih b nears.1

theorem acc_of_halts (halts : ∀ a ∈ points, a.Halts C rules heard) :
    Acc (TransGen (CutExpand (Point.Nears C rules heard))) points :=
  (Relation.acc_of_singleton fun a member => (halts a member).acc.cutExpand).transGen

theorem Scene.Shift.descends {A : Asks} {aims : Aims C β} (shift : x.Shift rules heard y)
    (verified : rules.Verified C A)
    (correct : x.Correct A aims) (seen : x.SeenAs C points) (halts : ∀ a ∈ points, a.Halts C rules heard) :
    ∃ points', y.SeenAs C points' ∧ (∀ a ∈ points', a.Halts C rules heard) ∧
      CutExpand (Point.Nears C rules heard) points' points := by
  classical
  obtain @⟨roll, roll', w, w', w'', t, new, rest, step, alike, keeps, waiting, _⟩ := shift
  obtain ⟨a, member, rfl, others⟩ := (Multiset.map_eq_cons _ _ _ _).mpr seen.lives
  obtain ⟨leads, _⟩ := step.goes_on verified correct.sound correct.vouches (correct.meets _ (Multiset.mem_cons_self _ _))
  have last : C.Leads w' w'' := .quiet (.refl leads.sound) alike
  have now : C.Leads w w'' := leads.trans last
  have next : ∀ t ∈ new, Point.Next C rules heard ⟨roll', w', t⟩ a := fun t fresh =>
    ⟨roll, w, new, seen.leads a member, correct.vouches, seen.joins a member, step, fresh⟩
  refine ⟨(new.map fun t => ⟨roll', w', t⟩ : List (Point β)) + points.erase a, ⟨?_, ?_, ?_⟩, ?_, ?_⟩
  · rw [Multiset.map_add, others, Multiset.map_coe, List.map_map]
    exact congrArg (fun l : List _ => (l : Multiset _) + rest) (List.map_id new)
  · intro b found
    rcases Multiset.mem_add.mp found with fresh | old
    · obtain ⟨t, _, rfl⟩ := List.mem_map.mp (Multiset.mem_coe.mp fresh)
      exact last
    · exact (seen.leads b (Multiset.mem_of_mem_erase old)).trans now
  · intro b found join waits
    rcases Multiset.mem_add.mp found with fresh | old
    · obtain ⟨t, _, rfl⟩ := List.mem_map.mp (Multiset.mem_coe.mp fresh)
      rfl
    · have alive : b.live ∈ rest := others ▸ Multiset.mem_map_of_mem _ old
      exact (waiting b.live alive join waits).asked.trans
        (seen.joins b (Multiset.mem_of_mem_erase old) join waits)
  · intro b found
    rcases Multiset.mem_add.mp found with fresh | old
    · obtain ⟨t, started, rfl⟩ := List.mem_map.mp (Multiset.mem_coe.mp fresh)
      exact (halts a member).inv (next t started)
    · exact halts b (Multiset.mem_of_mem_erase old)
  · refine ⟨(new.map fun t => ⟨roll', w', t⟩ : List (Point β)), a, fun b fresh => ?_, ?_⟩
    · obtain ⟨t, started, rfl⟩ := List.mem_map.mp (Multiset.mem_coe.mp fresh)
      exact ⟨next t started, halts a member⟩
    · rw [add_assoc, add_comm (points.erase a), Multiset.singleton_add, Multiset.cons_erase member,
        add_comm]

theorem Scene.Correct.descends {A : Asks} {aims : Aims C β} (correct : x.Correct A aims) (verified : rules.Verified C A)
    (seen : x.SeenAs C points) (halts : ∀ a ∈ points, a.Halts C rules heard) (shifts : TransGen (Scene.Shift rules heard) x y) :
    ∃ points', y.SeenAs C points' ∧ (∀ a ∈ points', a.Halts C rules heard) ∧
      TransGen (CutExpand (Point.Nears C rules heard)) points' points := by
  induction shifts with
  | single shift =>
    obtain ⟨points', seen, halts, cut⟩ := shift.descends verified correct seen halts
    exact ⟨points', seen, halts, .single cut⟩
  | tail before shift ih =>
    obtain ⟨points', seen, halts, cuts⟩ := ih
    obtain ⟨points'', seen, halts, cut⟩ :=
      shift.descends verified (correct.shifts verified before).2 seen halts
    exact ⟨points'', seen, halts, .head cut cuts⟩

end Descent

namespace Stage

variable {C : Contract} {rules : Rules} {aims : Aims C β} {slots : Nat → Nat} {roll : Roll}
variable {σ τ : Stage β}

def Ends (rules : Rules) (σ : Stage β) : Prop := Acc (fun τ σ => Turn rules σ τ) σ

/-- What keeps the invariant announces only what is heard. -/
structure Tells (rules : Rules) (heard : Wake → Prop) (Inv : Stage β → Prop) : Prop where
  turn : ∀ {σ τ}, Inv σ → σ.Turn rules τ → Inv τ
  announces : ∀ {σ}, Inv σ → ∀ e ∈ σ.machine.queue, e.Announces heard σ.machine.session

variable {heard : Wake → Prop} {Inv : Stage β → Prop}

theorem Coherent.ends_seen (tells : Tells rules heard Inv) (inv : Inv σ)
    (coherent : σ.Coherent (rules.Settles C) aims slots roll) {points : Multiset (Point β)}
    (seen : (σ.scene roll).SeenAs C points) (halts : ∀ a ∈ points, a.Halts C rules heard) : σ.Ends rules := by
  -- the fibers come closer to their ends, or an event does while they stay
  induction acc_of_halts halts generalizing σ roll with
  | intro points _ nearer =>
  induction weight : σ.machine.weight using Nat.strong_induction_on generalizing σ roll with
  | h n lighter =>
  refine .intro σ fun τ turn => ?_
  obtain ⟨roll', next, moves, _⟩ := coherent.turn_announced Rules.verified_settles turn (tells.announces inv)
  rcases moves with shifts | ⟨same, less⟩
  · obtain ⟨points', seen, halts, cuts⟩ :=
      coherent.correct.descends Rules.verified_settles seen halts shifts
    exact nearer points' cuts (tells.turn inv turn) next seen halts
  · exact lighter τ.machine.weight (weight ▸ less) (tells.turn inv turn) next (same ▸ seen) rfl

/-- A machine that is asked only for goals that settle comes to rest. Fibers may wait if nothing wakes them. -/
theorem Coherent.ends_telling (tells : Tells rules heard Inv) (inv : Inv σ)
    (silent : C.Waits → ∀ reason, ¬ heard reason)
    (coherent : σ.Coherent (rules.Settles C) aims slots roll) : σ.Ends rules := by
  have sound := coherent.correct.sound
  let points : Multiset (Point β) := σ.machine.lives.map fun t => ⟨roll, σ.moment, t⟩
  have alive {P : Point β → Prop} (h : ∀ t ∈ σ.machine.lives, P ⟨roll, σ.moment, t⟩) :
      ∀ a ∈ points, P a := fun a member => by
    obtain ⟨t, alive, rfl⟩ := Multiset.mem_map.mp member
    exact h t alive
  have seen : (σ.scene roll).SeenAs C points :=
    ⟨(Multiset.map_map ..).trans (Multiset.map_id _), alive fun _ _ => .refl sound,
      alive fun _ _ _ _ => rfl⟩
  exact coherent.ends_seen tells inv seen (alive fun t member => (coherent.correct.meets t member).halts silent sound)

theorem Coherent.ends (never : ¬ C.Waits) (coherent : σ.Coherent (rules.Settles C) aims slots roll) : σ.Ends rules := by
  have tells : Tells rules (fun _ => True) fun _ : Stage β => True := ⟨fun _ _ => trivial, fun _ e _ => e.announces_any _⟩
  exact coherent.ends_telling tells trivial fun waits => absurd waits never

theorem Coherent.suspended_eq_nil {A : Asks} (never : ¬ C.Waits)
    (coherent : σ.Coherent A aims slots roll) : σ.machine.suspended = [] := by
  refine List.eq_nil_iff_forall_not_mem.mpr fun entry listed => never ?_
  have alive : entry.2.live ∈ σ.machine.lives :=
    Multiset.mem_add.mpr (.inl (Multiset.mem_add.mpr (.inr
      (Multiset.mem_coe.mpr (List.mem_map.mpr ⟨entry, listed, rfl⟩)))))
  exact (coherent.correct.meets _ alive).1

theorem Coherent.dests_of_rest {A : Asks} (never : ¬ C.Waits)
    (coherent : σ.Coherent A aims slots roll) (queue : σ.machine.queue = []) : σ.machine.dests = 0 := by
  refine Machine.dests_of_rest coherent.books queue (coherent.suspended_eq_nil never) fun entry listed contests => never ?_
  have alive : entry.2.live entry.1 ∈ σ.machine.lives :=
    Multiset.mem_add.mpr (.inr (Multiset.mem_coe.mpr (List.mem_map.mpr ⟨entry, listed, rfl⟩)))
  have meets := coherent.correct.meets _ alive
  obtain ⟨join, j⟩ := entry
  cases j with
  | contest => exact meets.1
  | race | enlist | gather => exact contests.elim

theorem Coherent.told_of_rest {A : Asks} (never : ¬ C.Waits)
    (coherent : σ.Coherent A aims slots roll) (queue : σ.machine.queue = []) :
    σ.machine.running = 0 ∧ ∀ slot, (σ.machine.results.map Prod.fst).count slot = slots slot := by
  obtain ⟨tasks, roots⟩ := coherent.books.tally
  rw [coherent.dests_of_rest never queue] at tasks roots
  exact ⟨tasks, fun slot => (Nat.zero_add _).symm.trans (roots slot)⟩

theorem Coherent.lives_of_rest {A : Asks} (never : ¬ C.Waits)
    (coherent : σ.Coherent A aims slots roll) (queue : σ.machine.queue = []) : σ.machine.lives = 0 :=
  Multiset.map_eq_zero.mp (add_eq_zero.mp (coherent.dests_of_rest never queue)).1

theorem Ends.rests {σ : Stage β} (ends : Ends rules σ) : ∃ fuel, (σ.run rules fuel).machine.queue = [] := by
  induction ends with
  | intro σ _ ih =>
    cases queue : σ.machine.queue with
    | nil => exact ⟨0, queue⟩
    | cons e rest =>
      have turn : Turn rules σ
        ⟨{ σ.machine with queue := [] ++ rest }.handle rules e, e.notes ++ σ.answers⟩ := .handle queue
      obtain ⟨fuel, last⟩ := ih _ turn
      refine ⟨fuel + 1, ?_⟩
      rw [run, queue]
      exact last

end Stage

end Ownership
