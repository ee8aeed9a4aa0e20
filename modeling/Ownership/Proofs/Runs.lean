import Ownership.Proofs.Decisions

namespace Ownership

variable {β : Type}

open Relation (ReflTransGen TransGen)

section Driving

variable {rules : Rules} {P : Machine β → Prop} (step : ∀ m m', P m → m.step rules = some m' → P m')
include step

theorem Machine.run_keeps {m : Machine β} (h : P m) (fuel : Nat) : P (m.run rules fuel) := by
  induction fuel generalizing m with
  | zero => exact h
  | succ fuel ih =>
    rw [run]
    split
    · rename_i m' stepped
      exact ih (step m m' h stepped)
    · exact h

/-- What every step, default and settling keeps holds however long a machine is driven. -/
theorem Machine.drive_keeps (fallback : ∀ m, P m → P (m.applyFallback rules m.session.inferVars.zipIdx).2)
    (settle : ∀ m, P m → P m.settleOldest.2) {m : Machine β} (h : P m) (fuel rounds : Nat) :
    P (m.drive rules fuel rounds).2 := by
  induction rounds generalizing m with
  | zero => exact h
  | succ rounds ih =>
    have ran := run_keeps step h fuel
    rw [drive]
    split
    · exact ran
    · exact ran
    · split
      · exact ran
      · have applied := fallback _ ran
        split
        · rename_i found
          rwa [found] at applied
        · rename_i found
          rw [found] at applied
          exact ih applied
        · rename_i found
          rw [found] at applied
          have settled := settle _ applied
          split
          · rename_i found
            rwa [found] at settled
          · rename_i found
            rw [found] at settled
            exact ih settled

end Driving

structure Stage (β : Type) where
  machine : Machine β
  answers : List Answer

namespace Stage

def moment (σ : Stage β) : Moment := ⟨σ.machine.session, σ.answers⟩

inductive Turn (rules : Rules) (σ : Stage β) : Stage β → Prop where
  | handle {before after : List (Event β)} {e : Event β}
    (queue : σ.machine.queue = before ++ e :: after) :
    Turn rules σ ⟨{ σ.machine with queue := before ++ after }.handle rules e, e.notes ++ σ.answers⟩

def run (rules : Rules) : Nat → Stage β → Stage β
  | 0, σ => σ
  | fuel + 1, σ =>
    match σ.machine.queue with
    | [] => σ
    | e :: rest =>
      run rules fuel ⟨{ σ.machine with queue := rest }.handle rules e, e.notes ++ σ.answers⟩

theorem turns_run (rules : Rules) (fuel : Nat) (σ : Stage β) : ReflTransGen (Turn rules) σ (σ.run rules fuel) := by
  induction fuel generalizing σ with
  | zero => exact .refl
  | succ fuel ih =>
    rw [run]
    split
    · exact .refl
    · rename_i e rest queue
      have turn : σ.Turn rules ⟨{ σ.machine with queue := [] ++ rest }.handle rules e, e.notes ++ σ.answers⟩ :=
        .handle queue
      exact .head turn (ih _)

theorem machine_run (rules : Rules) (fuel : Nat) (σ : Stage β) :
    (σ.run rules fuel).machine = σ.machine.run rules fuel := by
  induction fuel generalizing σ with
  | zero => rfl
  | succ fuel ih =>
    rw [run, Machine.run, Machine.step]
    cases σ.machine.queue with
    | nil => rfl
    | cons e rest => exact ih _

/-- Every fiber does what it was started for, the books are in order, and what was told to the caller
is as it should be. -/
structure Coherent {C : Contract} (A : Asks) (aims : Aims C β) (slots : Nat → Nat) (roll : Roll)
    (σ : Stage β) : Prop where
  correct : Scene.Correct A aims ⟨roll, σ.machine.lives, σ.moment⟩
  books : σ.machine.Books slots roll
  results : ∀ entry ∈ σ.machine.results, aims.root entry.1 entry.2 σ.moment
  failures : ∀ e ∈ σ.machine.failures, aims.task (.error e) σ.moment

end Stage

namespace Machine

variable {m : Machine β} {rules : Rules}

section Told

def told (m : Machine β) : List (Nat × Except Failure β) × List Failure := (m.results, m.failures)

theorem told_deliver {signals : List Signal} : (signals.foldl deliver m).told = m.told := by
  induction signals generalizing m with
  | nil => rfl
  | cons signal signals ih =>
    rw [List.foldl_cons, ih]
    cases signal with
    | wake ticket reason =>
      simp only [deliver, wake]
      split <;> rfl
    | stirred search => rfl

theorem told_deliverSignals : m.deliverSignals.told = m.told := by
  unfold deliverSignals
  dsimp only
  split
  · rfl
  · exact told_deliver

def Joined (m m' : Machine β) : Prop := ∃ queue joins, m' = { m with queue, joins }

theorem Joined.told {m' : Machine β} (joined : m.Joined m') : m'.told = m.told := by
  obtain ⟨_, _, rfl⟩ := joined
  rfl

theorem Joined.session {m' : Machine β} (joined : m.Joined m') : m'.session = m.session := by
  obtain ⟨_, _, rfl⟩ := joined
  rfl

theorem joined_answerJoin {s : Shape} {join index : Nat} {r : Except Failure s.Value} :
    m.Joined (m.answerJoin s join index r) := by
  unfold answerJoin
  split
  · exact ⟨_, _, rfl⟩
  · split
    · dsimp only
      split <;> exact ⟨_, _, rfl⟩
    · exact ⟨_, _, rfl⟩
  · exact ⟨_, _, rfl⟩
  · split
    · dsimp only
      split <;> exact ⟨_, _, rfl⟩
    · exact ⟨_, _, rfl⟩
  · split
    · dsimp only
      split
      · split <;> exact ⟨_, _, rfl⟩
      · exact ⟨_, _, rfl⟩
    · exact ⟨_, _, rfl⟩

theorem joined_enlistNext {join : Nat} : m.Joined (m.enlistNext rules join) := by
  unfold enlistNext
  split
  · dsimp only
    split <;> exact ⟨_, _, rfl⟩
  · exact ⟨_, _, rfl⟩
  · exact ⟨_, _, rfl⟩

theorem joined_heedRace {join : Nat} : m.Joined (m.heedRace join) := by
  unfold heedRace
  split
  · split <;> exact ⟨_, _, rfl⟩
  · exact ⟨_, _, rfl⟩

theorem joined_decideContest {join : Nat} {outcome : Except Failure (Option Bool)} :
    m.Joined (m.decideContest join outcome) := by
  unfold decideContest
  split <;> exact ⟨_, _, rfl⟩

theorem joined_handIn {s : Shape} {join index : Nat} {r : Except Failure s.Value} :
    m.Joined (m.handIn s join index r) := by
  unfold handIn
  split
  · split <;> exact ⟨_, _, rfl⟩
  · exact ⟨_, _, rfl⟩

end Told

variable {C : Contract} {A : Asks} {aims : Aims C β} {slots : Nat → Nat} {roll : Roll}
variable {answers : List Answer}

def Tells (aims : Aims C β) (m : Machine β) (w : Moment) (m' : Machine β) : Prop :=
  (∀ entry ∈ m'.results, entry ∈ m.results ∨ aims.root entry.1 entry.2 w) ∧
    ∀ e ∈ m'.failures, e ∈ m.failures ∨ aims.task (.error e) w

theorem Tells.of_told {m' : Machine β} {w : Moment} (same : m'.told = m.told) : Tells aims m w m' := by
  have results : m'.results = m.results := congrArg Prod.fst same
  have failures : m'.failures = m.failures := congrArg Prod.snd same
  exact ⟨fun _ h => .inl (results ▸ h), fun _ h => .inl (failures ▸ h)⟩

theorem tells_finish {d : Dest} {r : Except Failure (d.Answer β)} {w : Moment}
    (post : aims.post roll d r w) : Tells aims m w (m.finish d r) := by
  cases d with
  | root slot =>
    refine ⟨fun entry member => ?_, fun _ => .inl⟩
    rcases List.mem_cons.mp member with rfl | member
    · exact .inr post
    · exact .inl member
  | task description =>
    match r with
    | .ok () | .error (.reported report) => exact .of_told rfl
    | .error (.violated v) =>
      refine ⟨fun _ => .inl, fun e member => ?_⟩
      rcases List.mem_append.mp member with member | member
      · exact .inl member
      · rw [List.mem_singleton.mp member]
        exact .inr post
  | child s join index => exact .of_told joined_handIn.told

theorem tells_execute {d : Dest} {waits : Nat} {code : Prog (d.Answer β)} {w : Moment} (sound : C.Sound w)
    (meets : code.Meets C A d.Owing (aims.post roll d) w) : Tells aims m w (m.execute rules d waits code) := by
  cases code with
  | done r => exact tells_finish (meets w (.refl sound))
  | update f k => exact .of_told told_deliverSignals
  | call g k | mark k | note g r k | park i speculation enough k | gather groups k | contest search tests k
  | spawn description g k => exact .of_told rfl
  | rest turns k => cases turns <;> exact .of_told rfl
  | race decisive passed tests k =>
    simp only [execute]
    split <;> exact .of_told rfl

theorem tells_handle {e : Event β} (correct : Scene.Correct A aims ⟨roll, (m.holding e).lives, ⟨m.session, answers⟩⟩) :
    Tells aims m ⟨m.session, answers⟩ (m.handle rules e) := by
  cases e with
  | run f =>
    have alive : f.live ∈ (m.holding (.run f)).lives := by
      rw [lives_run]
      exact Multiset.mem_cons_self _ _
    exact tells_execute correct.sound (correct.meets f.live alive)
  | arrive s join index r => exact .of_told joined_answerJoin.told
  | enlist join => exact .of_told joined_enlistNext.told
  | expect join | notice join => exact .of_told rfl
  | heed join => exact .of_told joined_heedRace.told
  | offer join outcome => exact .of_told joined_decideContest.told

variable {heard : Wake → Prop}

theorem handled_run {d : Dest} {waits : Nat} {code : Prog (d.Answer β)}
    (books : (m.holding (.run ⟨d, waits, code⟩)).Books slots roll) (announces : code.Announces heard m.session) :
    Handled rules heard slots roll (m.holding (.run ⟨d, waits, code⟩)) ⟨m.session, answers⟩
      (m.execute rules d waits code) ⟨(m.execute rules d waits code).session,
        (Event.run ⟨d, waits, code⟩ : Event β).notes ++ answers⟩ := by
  cases code with
  | done r =>
    cases d with
    | root slot => exact handled_root books
    | task description => exact handled_task books
    | child s join index =>
      have same : (m.execute rules (.child s join index) waits (.done r)).session = m.session :=
        joined_handIn.session
      rw [same]
      exact handled_child books
  | update f k => exact handled_update books announces
  | call g k => exact handled_proceed books rfl .call
  | rest turns k =>
    cases turns with
    | zero => exact handled_proceed books rfl .rested
    | succ turns => exact handled_requeue books rfl .rest
  | mark k => exact handled_proceed books rfl (.mark waits)
  | note g r k => exact handled_proceed books rfl .note
  | park i speculation enough k => exact handled_park books
  | race decisive passed tests k =>
    have session : (m.execute rules d waits (.race decisive passed tests k)).session = m.session := by
      simp only [execute]
      split <;> rfl
    rw [session]
    exact handled_race books
  | gather groups k => exact handled_gather books
  | contest search tests k => exact handled_contest books
  | spawn description g k => exact handled_spawn books

theorem handled_event {e : Event β} (books : (m.holding e).Books slots roll) (announces : e.Announces heard m.session)
    (answers : List Answer) : Handled rules heard slots roll (m.holding e) ⟨m.session, answers⟩ (m.handle rules e)
      ⟨(m.handle rules e).session, e.notes ++ answers⟩ := by
  cases e with
  | run f => exact handled_run books announces
  | arrive s join index r =>
    rw [handle, joined_answerJoin.session]
    exact handled_arrive books
  | enlist join =>
    rw [handle, joined_enlistNext.session]
    exact handled_enlist books rfl
  | expect join => exact handled_expect books
  | heed join =>
    rw [handle, joined_heedRace.session]
    exact handled_heed books
  | notice join => exact handled_notice books
  | offer join outcome =>
    rw [handle, joined_decideContest.session]
    exact handled_offer books

theorem handled_turn {before after : List (Event β)} {e : Event β} (books : m.Books slots roll)
    (queue : m.queue = before ++ e :: after) (announces : e.Announces heard m.session) (answers : List Answer) :
    Handled rules heard slots roll m ⟨m.session, answers⟩ ({ m with queue := before ++ after }.handle rules e)
      ⟨({ m with queue := before ++ after }.handle rules e).session, e.notes ++ answers⟩ := by
  have perm : m.queue.Perm (e :: (before ++ after)) := queue ▸ List.perm_middle
  let rest : Machine β := { m with queue := before ++ after }
  have lives : (rest.holding e).lives = m.lives := (lives_reorder m perm).symm
  have weight : (rest.holding e).weight = m.weight := by
    have sums : ((e :: (before ++ after)).map Event.weight).sum = (m.queue.map Event.weight).sum :=
      (perm.map _).sum_nat.symm
    exact congrArg (· + (m.joins.map fun entry => entry.2.weight).sum) sums
  have held : (rest.holding e).Books slots roll := Books.reorder (m := m) perm books
  have handled : Handled rules heard slots roll (rest.holding e) ⟨m.session, answers⟩ _ _ :=
    handled_event held announces answers
  rw [Handled, lives, weight] at handled
  exact handled

end Machine

namespace Stage

variable {C : Contract} {A : Asks} {aims : Aims C β} {slots : Nat → Nat} {roll roll' : Roll}
variable {rules : Rules} {heard : Wake → Prop} {σ τ : Stage β}

def scene (roll : Roll) (σ : Stage β) : Scene β := ⟨roll, σ.machine.lives, σ.moment⟩

def Moves (rules : Rules) (heard : Wake → Prop) (roll roll' : Roll) (σ τ : Stage β) : Prop :=
  TransGen (Scene.Shift rules heard) (σ.scene roll) (τ.scene roll') ∨
    τ.scene roll' = σ.scene roll ∧ τ.machine.weight < σ.machine.weight

theorem Moves.correct (moves : Moves rules heard roll roll' σ τ) (verified : rules.Verified C A)
    (correct : (σ.scene roll).Correct A aims) : C.Leads σ.moment τ.moment ∧ (τ.scene roll').Correct A aims := by
  rcases moves with shifts | ⟨same, _⟩
  · exact correct.shifts verified shifts
  · have now : τ.moment = σ.moment := congrArg Scene.moment same
    rw [same, now]
    exact ⟨.refl correct.sound, correct⟩

/-- Whatever event is handled next, the run stays coherent. -/
theorem Coherent.turn_announced (coherent : σ.Coherent A aims slots roll) (verified : rules.Verified C A)
    (turn : σ.Turn rules τ) (announces : ∀ e ∈ σ.machine.queue, e.Announces heard σ.machine.session) :
    ∃ roll', τ.Coherent A aims slots roll' ∧ Moves rules heard roll roll' σ τ ∧
      C.Leads σ.moment τ.moment := by
  obtain @⟨before, after, e, queue⟩ := turn
  let m : Machine β := { σ.machine with queue := before ++ after }
  have handled : Machine.Handled rules heard slots roll σ.machine σ.moment (m.handle rules e)
      ⟨(m.handle rules e).session, e.notes ++ σ.answers⟩ :=
    Machine.handled_turn coherent.books queue (announces e (queue ▸ List.mem_append_cons_self)) σ.answers
  obtain ⟨roll', kept, moves⟩ := handled
  have moves : Moves rules heard roll roll' σ ⟨m.handle rules e, e.notes ++ σ.answers⟩ := moves
  obtain ⟨leads, correct⟩ := moves.correct verified coherent.correct
  have lives : (m.holding e).lives = σ.machine.lives :=
    (Machine.lives_reorder σ.machine (queue ▸ List.perm_middle)).symm
  obtain ⟨results, failures⟩ : Machine.Tells aims m σ.moment (m.handle rules e) :=
    Machine.tells_handle (lives.symm ▸ coherent.correct)
  refine ⟨roll', ⟨correct, kept, fun entry member => ?_, fun e member => ?_⟩, moves, leads⟩
  · exact (results entry member).elim (fun old => aims.root_later (coherent.results entry old) leads.1)
      fun new => aims.root_later new leads.1
  · exact (failures e member).elim (fun old => aims.task_later (coherent.failures e old) leads.1)
      fun new => aims.task_later new leads.1

theorem Coherent.turn (coherent : σ.Coherent A aims slots roll) (verified : rules.Verified C A)
    (turn : σ.Turn rules τ) : ∃ roll', τ.Coherent A aims slots roll' ∧ Moves rules (fun _ => True) roll roll' σ τ ∧
      C.Leads σ.moment τ.moment := coherent.turn_announced verified turn fun e _ => e.announces_any _

theorem Coherent.turns (coherent : σ.Coherent A aims slots roll) (verified : rules.Verified C A)
    (turns : ReflTransGen (Turn rules) σ τ) : ∃ roll', τ.Coherent A aims slots roll' ∧ C.Leads σ.moment τ.moment := by
  induction turns with
  | refl => exact ⟨roll, coherent, .refl coherent.correct.sound⟩
  | tail _ turn ih =>
    obtain ⟨roll', coherent, leads⟩ := ih
    obtain ⟨roll', coherent, _, last⟩ := coherent.turn verified turn
    exact ⟨roll', coherent, leads.trans last⟩

end Stage

namespace Machine

variable {slots : Nat → Nat} {roll : Roll} {m : Machine β}

section Rest

variable (books : m.Books slots roll) (queue : m.queue = [])
include books queue

theorem older_of_rest {join : Nat} {d : Dest} (suspended : m.suspended = [])
    (member : d ∈ m.dests) (goes : d.join? = some join) : ∃ entry ∈ m.joins, join < entry.1 := by
  have lives : m.lives = (m.joins.map fun entry => entry.2.live entry.1 : List _) := by
    simp only [Machine.lives, queue, suspended, Event.livesOf_nil, List.map_nil, Multiset.coe_nil,
      zero_add]
  rcases Multiset.mem_add.mp member with alive | sent
  · rw [lives] at alive
    obtain ⟨t, found, rfl⟩ := Multiset.mem_map.mp alive
    obtain ⟨entry, listed, rfl⟩ := List.mem_map.mp (Multiset.mem_coe.mp found)
    exact ⟨entry, listed, (books.booked entry.1).older _ (lookup_of_mem books.keys listed) join goes⟩
  · rw [Machine.sent, queue, Event.sentOf_nil, zero_add] at sent
    obtain ⟨entry, listed, kept⟩ := List.mem_flatMap.mp (Multiset.mem_coe.mp sent)
    have due := (books.booked entry.1).due _ (lookup_of_mem books.keys listed)
    rw [queue] at due
    obtain ⟨join', j⟩ := entry
    cases j with
    | enlist =>
      obtain ⟨_, queued, _⟩ := due trivial
      cases queued
    | race | gather | contest => cases kept

theorem awaits_of_rest {entry : Nat × Join β} (listed : entry ∈ m.joins) (plain : ¬ entry.2.Contests) :
    ∃ d ∈ m.dests, d.join? = some entry.1 := by
  obtain ⟨join, j⟩ := entry
  have found := lookup_of_mem books.keys listed
  have waits : ¬ j.Due := fun due => by
    obtain ⟨_, queued, _⟩ := (books.booked join).due j found due
    rw [queue] at queued
    cases queued
  have booked := (books.booked join).entry j found
  cases j with
  | race state noticed fiber =>
    obtain ⟨_, race, open_⟩ := booked
    rw [Roll.RaceBooked, open_ (by simpa [Join.Due] using waits)] at race
    obtain ⟨some_, count, _⟩ := race
    obtain ⟨d, member⟩ := Multiset.card_pos_iff_exists_mem.mp (count ▸ some_)
    exact ⟨d, mem_goingTo.mp member⟩
  | enlist => exact absurd trivial waits
  | gather s state fiber =>
    obtain ⟨_, _, length, lacking, answers⟩ := booked
    obtain ⟨index, bound, missing⟩ := List.getElem_of_mem lacking
    rcases answers index (length ▸ bound) with ⟨_, member⟩ | ⟨v, given, _⟩
    · exact ⟨_, mem_goingTo.mp member⟩
    · rw [List.getElem?_eq_getElem bound, missing] at given
      cases given
  | contest => exact absurd trivial plain

theorem dests_of_rest (suspended : m.suspended = []) (plain : ∀ entry ∈ m.joins, ¬ entry.2.Contests) : m.dests = 0 := by
  have newer : ∀ entry ∈ m.joins, ∃ entry' ∈ m.joins, entry.1 < entry'.1 := fun entry listed => by
    obtain ⟨d, member, goes⟩ := awaits_of_rest books queue listed (plain entry listed)
    exact older_of_rest books queue suspended member goes
  -- joins wait for newer ones only, and there is a newest
  have closed : ∀ gap, ∀ entry ∈ m.joins, m.nextJoin ≤ entry.1 + gap → False := by
    intro gap
    induction gap with
    | zero =>
      intro entry listed
      have := books.opened listed
      omega
    | succ gap ih =>
      intro entry listed bound
      obtain ⟨entry', listed', after⟩ := newer entry listed
      exact ih entry' listed' (by omega)
  have joins : m.joins = [] := List.eq_nil_iff_forall_not_mem.mpr fun entry listed =>
    closed m.nextJoin entry listed (by omega)
  simp [Machine.dests, Machine.lives, Machine.sent, queue, suspended, joins]

end Rest

end Machine

namespace Stage

variable {C : Contract} {A : Asks} {aims : Aims C β} {slots : Nat → Nat} {roll : Roll}
variable {rules : Rules} {σ : Stage β}

theorem coherent_idle (aims : Aims C β) {s : Session} {answers : List Answer}
    (sound : C.Sound ⟨s, answers⟩) :
    Coherent A aims (fun _ => 0) .idle ⟨{ session := s }, answers⟩ where
  correct := ⟨sound, fun _ _ told => absurd told List.not_mem_nil, fun _ alive => absurd alive (Multiset.notMem_zero _)⟩
  books := Machine.books_idle s
  results := nofun
  failures := nofun

theorem Coherent.spawn {g : Goal .unit} (coherent : σ.Coherent A aims slots roll)
    (verified : rules.Verified C A) (description : String) (allowed : A g σ.moment) :
    Coherent A aims slots roll ⟨σ.machine.spawn description (rules .unit g), σ.answers⟩ where
  correct := by
    refine ⟨coherent.correct.sound, coherent.correct.vouches, fun t alive => ?_⟩
    have lives : (σ.machine.spawn description (rules .unit g)).lives =
      ⟨.task description, .running (rules .unit g)⟩ ::ₘ σ.machine.lives := Machine.lives_enqueue _ _
    have alive : t ∈ (σ.machine.spawn description (rules .unit g)).lives := alive
    rw [lives] at alive
    rcases Multiset.mem_cons.mp alive with rfl | old
    · exact (verified _ g _ coherent.correct.sound allowed).imp (fun _ _ _ => id) (fun _ => trivial)
        fun r v _ post => aims.task_post post
    · exact coherent.correct.meets t old
  books := coherent.books.spawn
  results := coherent.results
  failures := coherent.failures

theorem Coherent.start {code : Prog β} {slot : Nat} (coherent : σ.Coherent A aims slots roll)
    (meets : code.Meets C A True (aims.root slot) σ.moment) :
    Coherent A aims (fun other => slots other + if other = slot then 1 else 0) roll
      ⟨σ.machine.start slot code, σ.answers⟩ where
  correct := by
    refine ⟨coherent.correct.sound, coherent.correct.vouches, fun t alive => ?_⟩
    have lives : (σ.machine.start slot code).lives =
      ⟨.root slot, .running code⟩ ::ₘ σ.machine.lives := Machine.lives_enqueue _ _
    have alive : t ∈ (σ.machine.start slot code).lives := alive
    rw [lives] at alive
    rcases Multiset.mem_cons.mp alive with rfl | old
    · exact meets
    · exact coherent.correct.meets t old
  books := by
    have books := coherent.books.launch (f := ⟨.root slot, 0, code⟩) rfl
    simp only [Dest.root.injEq] at books
    exact books
  results := coherent.results
  failures := coherent.failures

end Stage

end Ownership
