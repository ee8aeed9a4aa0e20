import Ownership.Proofs.ConductExpressions
import Ownership.Proofs.Promises
import Ownership.Proofs.Resumptions

namespace Ownership

open Relation (ReflTransGen)

variable {β : Type} {m m' : Machine β} {rules : Rules} {d : Dest} {waits : Nat} {i : InferIndex} {speculation : Option Nat}
  {enough : InferVar → Bool} {k : Wake → Prog (d.Answer β)}

def Conduct.free : Conduct where
  May _ _ := True
  Calls _ _ := True
  Asks _ _ := True
  Posts _ := True
  Contests := True

def Event.isUpdate : Event β → Bool
  | .run ⟨_, _, .update _ _⟩ => true
  | _ => false

def Join.KeepsFrom (C : Conduct) (known : Nat) : Join β → Prop
  | .race _ _ fiber => ∀ r, (fiber.code r).KeepsFrom C known
  | .enlist _ _ _ _ fiber => ∀ r, (fiber.code r).KeepsFrom C known
  | .gather _ _ fiber => ∀ r, (fiber.code r).KeepsFrom C known
  | .contest _ _ fiber => ∀ r, (fiber.code r).KeepsFrom C known

namespace Machine

def released (m m' : Machine β) : List Nat :=
  (m.suspended.map Prod.fst).filter fun ticket => !(m'.suspended.map Prod.fst).contains ticket

theorem released_perm {stays : Nat → Bool} (kept : m'.suspended = m.suspended.filter fun entry => stays entry.1) :
    (m.released m' ++ m'.suspended.map Prod.fst).Perm (m.suspended.map Prod.fst) := by
  have rest : m'.suspended.map Prod.fst = (m.suspended.map Prod.fst).filter stays := by
    rw [kept, List.filter_map]
    rfl
  have gone : m.released m' = (m.suspended.map Prod.fst).filter fun ticket => !stays ticket := by
    unfold released
    rw [rest]
    refine List.filter_congr fun ticket member => ?_
    rw [Bool.eq_iff_iff]
    simp [List.mem_filter, member]
  rw [gone, rest]
  exact List.perm_append_comm.trans (List.filter_append_perm stays _)

theorem released_nil (kept : m.suspended.map Prod.fst ⊆ m'.suspended.map Prod.fst) : m.released m' = [] := by
  refine List.filter_eq_nil_iff.mpr fun ticket member => ?_
  simpa using kept member

/-- Whatever is to go on changes sessions by deeds, and waits for variables that there are. -/
structure Free (m : Machine β) : Prop where
  queue : ∀ f, .run f ∈ m.queue → f.code.KeepsFrom .free m.session.inferVars.length
  suspended : ∀ entry ∈ m.suspended, ∀ reason, (entry.2.code reason).KeepsFrom .free m.session.inferVars.length
  joins : ∀ entry ∈ m.joins, entry.2.KeepsFrom .free m.session.inferVars.length

namespace Free

variable (free : m.Free) {join : Nat} {j : Join β} {f : Fiber β}
include free

theorem session {s : Session} (known : m.session.inferVars.length ≤ s.inferVars.length) :
    { m with session := s }.Free :=
  ⟨fun f queued => (free.queue f queued).mono known, fun entry kept reason => (free.suspended entry kept reason).mono known,
    fun entry listed => by
      have kept := free.joins entry listed
      obtain ⟨_, _ | _ | _ | _⟩ := entry <;> exact fun r => (kept r).mono known⟩

theorem line {queue : List (Event β)} (new : ∀ f, .run f ∈ queue → .run f ∈ m.queue ∨
    f.code.KeepsFrom .free m.session.inferVars.length) : { m with queue := queue }.Free :=
  ⟨fun f queued => (new f queued).elim (free.queue f) id, free.suspended, free.joins⟩

theorem enqueue (kept : f.code.KeepsFrom .free m.session.inferVars.length) : (m.enqueue (.run f)).Free := by
  refine free.line fun f' queued => (List.mem_append.mp queued).imp_right fun new => ?_
  cases List.mem_singleton.mp new
  exact kept

theorem enqueue_idle {e : Event β} (idle : e.lives = []) : (m.enqueue e).Free := by
  refine free.line fun f queued => .inl ((List.mem_append.mp queued).resolve_right fun new => ?_)
  cases List.mem_singleton.mp new
  cases idle

theorem proceed (kept : f.code.KeepsFrom .free m.session.inferVars.length) : (m.proceed f).Free := by
  refine free.line fun f' queued => (List.mem_cons.mp queued).symm.imp_right fun new => ?_
  cases new
  exact kept

omit free in
theorem mem_of_lookup {κ : Type} {entries : List (Nat × κ)} {key : Nat} {value : κ}
    (found : entries.lookup key = some value) : (key, value) ∈ entries := by
  obtain ⟨before, after, rfl, _⟩ := List.lookup_eq_some_iff.mp found
  exact List.mem_append_right _ List.mem_cons_self

theorem found (found : m.joins.lookup join = some j) : j.KeepsFrom .free m.session.inferVars.length :=
  free.joins _ (mem_of_lookup found)

theorem putJoin (kept : j.KeepsFrom .free m.session.inferVars.length) : (m.putJoin join j).Free := by
  refine ⟨free.queue, free.suspended, fun entry listed => ?_⟩
  obtain ⟨old, there, same⟩ := List.mem_map.mp listed
  split at same
  · exact same ▸ kept
  · exact same ▸ free.joins old there

theorem decide {ρ : Type} {fiber : Waiting β ρ} {r : ρ}
    (kept : ∀ r, (fiber.code r).KeepsFrom .free m.session.inferVars.length) : (m.decide join (fiber.resume r)).Free := by
  have dropped : (m.dropJoin join).Free :=
    ⟨free.queue, free.suspended, fun entry listed => free.joins entry (List.mem_filter.mp listed).1⟩
  exact dropped.enqueue (kept r)

theorem openJoin {next : Nat → List (Event β)} (kept : j.KeepsFrom .free m.session.inferVars.length)
    (started : ∀ f, .run f ∈ next m.nextJoin → f.code.KeepsFrom .free m.session.inferVars.length) :
    (m.openJoin j next).Free :=
  ⟨fun f queued => (List.mem_append.mp queued).elim (started f) (free.queue f), free.suspended,
    List.forall_mem_cons.mpr ⟨kept, free.joins⟩⟩

theorem wake (ticket : Nat) (reason : Wake) : (m.wake ticket reason).Free := by
  unfold Machine.wake
  split
  · rename_i fiber found
    have woken := free.enqueue (f := fiber.resume reason) (free.suspended _ (mem_of_lookup found) reason)
    exact ⟨woken.queue, fun entry kept => free.suspended entry (List.mem_filter.mp kept).1, free.joins⟩
  · exact free

theorem park (kept : (Prog.park i speculation enough k).KeepsFrom .free m.session.inferVars.length) :
    (m.execute rules d waits (.park i speculation enough k)).Free := by
  refine ⟨free.queue, List.forall_mem_append.mpr ⟨free.suspended, List.forall_mem_singleton.mpr fun reason => ?_⟩, free.joins⟩
  exact kept.woken reason

theorem deliverSignals : m.deliverSignals.Free := by
  have deliver (signals : List Signal) {m : Machine β} (free : m.Free) : (signals.foldl deliver m).Free := by
    induction signals generalizing m with
    | nil => exact free
    | cons signal signals ih =>
      cases signal with
      | wake ticket reason => exact ih (free.wake ticket reason)
      | stirred search =>
        refine ih (free.line fun f queued => .inl ((List.mem_append.mp queued).resolve_right fun new => ?_))
        obtain ⟨_, same⟩ := notice_of_stir new
        cases same
  unfold Machine.deliverSignals
  dsimp only
  split
  · exact free
  · exact deliver _ (free.session (Nat.le_refl _))

theorem settle : m.settleOldest.2.Free := by
  obtain ⟨s, alike, _, ⟨e, failed⟩ | ⟨ticket, woken⟩⟩ := m.settleOldest_cases
  all_goals have quiet : { m with session := s }.Free := free.session (by obtain ⟨_, _, _, _, rfl⟩ := alike; rfl)
  · rw [failed]
    exact quiet
  · rw [woken]
    exact quiet.wake ticket .settled

theorem answerJoin {s : Shape} {index : Nat} {r : Except Failure s.Value} : (m.answerJoin s join index r).Free := by
  unfold Machine.answerJoin
  split
  · exact free
  · rename_i found
    have kept := free.found found
    split
    · dsimp only
      split
      · exact free.decide kept
      · exact free.putJoin kept
    · exact free
  · exact free
  · rename_i found
    have kept := free.found found
    split
    · dsimp only
      split
      · exact free.decide kept
      · exact free.putJoin kept
    · exact free
  · rename_i found
    have kept := free.found found
    split
    · dsimp only
      split
      · split
        · exact free.putJoin kept
        · rename_i search state fiber _ _ answer _ outcome _ _
          have put : (m.putJoin join (.contest search (state.complete answer) fiber)).Free := free.putJoin kept
          exact put.enqueue_idle rfl
      · exact free.putJoin kept
    · exact free

theorem heedRace : (m.heedRace join).Free := by
  unfold Machine.heedRace
  split
  · rename_i found
    have kept := free.found found
    split
    · exact free.decide kept
    · exact free.putJoin kept
  · exact free

theorem decideContest {outcome : Except Failure (Option Bool)} : (m.decideContest join outcome).Free := by
  unfold Machine.decideContest
  split
  · rename_i found
    have kept := free.found found
    exact free.decide kept
  · exact free

theorem finish {d : Dest} {r : Except Failure (d.Answer β)} : (m.finish d r).Free := by
  unfold Machine.finish
  split
  · exact ⟨free.queue, free.suspended, free.joins⟩
  · have ended : { m with running := m.running - 1 }.Free := ⟨free.queue, free.suspended, free.joins⟩
    dsimp only
    split
    · exact ended
    · exact ended.session (Action.summons_log 0 _ _).known
    · exact ⟨free.queue, free.suspended, free.joins⟩
  · unfold handIn
    split
    · rename_i found
      have kept := free.found found
      split
      · exact free.putJoin kept
      · exact free
    · exact free.enqueue_idle rfl

variable (answers : ∀ ⦃s⦄ (g : Goal s), (rules s g).Keeps .free)
include answers

omit free in
theorem children {s : Shape} {first : Nat} {goals : List (Goal s)} {e : Event β} (known : Nat)
    (queued : e ∈ children rules join first goals) : ∃ f, e = .run f ∧ f.code.KeepsFrom .free known := by
  obtain ⟨_, _, rfl⟩ := List.mem_map.mp queued
  exact ⟨_, rfl, answers _ _⟩

theorem enlistNext : (m.enlistNext rules join).Free := by
  unfold Machine.enlistNext
  split
  · rename_i found
    have kept := free.found found
    dsimp only
    split
    · exact free.decide kept
    · rename_i s count _ fiber _ _
      have put : (m.putJoin join (.gather s (Gathering.start count) fiber)).Free := free.putJoin kept
      refine put.line fun f queued => .inl ((List.mem_append.mp queued).resolve_right fun new => ?_)
      obtain ⟨_, _, same⟩ := List.mem_map.mp new
      cases same
  · rename_i s group groups count early fiber found
    have kept := free.found found
    have put : (m.putJoin join (.enlist s groups (count + (group m.session).length) early fiber)).Free := free.putJoin kept
    refine put.line fun f queued => ?_
    rcases List.mem_append.mp queued with new | old
    · obtain ⟨_, same, kept⟩ := Free.children answers _ new
      cases same
      exact .inr kept
    · exact .inl ((List.mem_cons.mp old).resolve_left nofun)
  · exact free

theorem execute {d : Dest} {waits : Nat} {code : Prog (d.Answer β)}
    (kept : code.KeepsFrom .free m.session.inferVars.length) (other : (Event.run ⟨d, waits, code⟩).isUpdate = false) :
    (m.execute rules d waits code).Free := by
  have started {join first : Nat} {s : Shape} {goals : List (Goal s)} (f : Fiber β)
      (new : .run f ∈ Machine.children rules join first goals) : f.code.KeepsFrom .free m.session.inferVars.length := by
    obtain ⟨_, same, kept⟩ := Free.children answers _ new
    cases same
    exact kept
  cases code with
  | done r => exact free.finish
  | update f k => cases other
  | call g k => exact free.proceed (Prog.KeepsFrom.andThen (answers g _) fun r _ le => (kept.2 r).mono le)
  | rest turns k =>
    cases turns with
    | zero => exact free.proceed kept
    | succ turns => exact free.enqueue kept
  | mark k => exact free.proceed (kept waits)
  | note g r k => exact free.proceed kept
  | park i speculation enough k => exact free.park kept
  | race decisive passed tests k =>
    simp only [Machine.execute]
    split
    · rename_i outcome _
      exact free.enqueue (f := ⟨d, waits + 1, k outcome⟩) (kept.2 outcome)
    · refine free.openJoin kept.2 fun f queued => started f ((List.mem_append.mp queued).resolve_right fun new => ?_)
      split at new <;> simp at new
  | gather groups k =>
    simp only [Machine.execute]
    refine free.openJoin (j := .enlist _ groups 0 [] ⟨d, waits + 1, k⟩) kept.2 fun f new => ?_
    cases List.mem_singleton.mp new
  | contest search tests k =>
    simp only [Machine.execute]
    exact free.openJoin (j := .contest search (Race.start false tests.length) ⟨d, waits + 1, k⟩) kept.2 started
  | spawn description g k =>
    have spawned := free.enqueue (f := ⟨.task description, 0, rules .unit g⟩) (answers g _)
    have free : (m.spawn description (rules .unit g)).Free := ⟨spawned.queue, spawned.suspended, spawned.joins⟩
    exact free.proceed kept.2

theorem handle {e : Event β} (kept : ∀ f, e = .run f → f.code.KeepsFrom .free m.session.inferVars.length)
    (other : e.isUpdate = false) : (m.handle rules e).Free := by
  cases e with
  | run f => exact free.execute answers (kept f rfl) other
  | arrive s join index r => exact free.answerJoin
  | enlist join => exact free.enlistNext answers
  | expect join | notice join => exact free.enqueue_idle rfl
  | heed join => exact free.heedRace
  | offer join outcome => exact free.decideContest

end Free

/-- The fibers of waiters are suspended in the order in which they came, and every ticket is accounted
for: the log has the tickets of those that were resumed. -/
structure Orderly (log : List Nat) (m : Machine β) : Prop where
  silent : m.session.signals = []
  free : m.Free
  known : ∀ w ∈ m.session.waiters, w.infer < m.session.inferVars.length
  tickets : (log ++ m.suspended.map Prod.fst).Perm (List.range m.nextTicket)
  order : (m.suspended.map Prod.fst).Pairwise (· < ·)
  listed : (m.session.waiters.map Waiter.ticket).Sublist (m.suspended.map Prod.fst)
  waiting : ∀ entry ∈ m.suspended, ∃ i speculation enough k, entry.2.code = woken i speculation enough k ∧
    (⟨entry.1, i, speculation⟩ ∈ m.session.waiters ∨ ∃ n ∈ m.session.abandoned, speculation = some n)

/-- What settling does. Waiters of abandoned speculations are dropped. If nobody else waits, the machine
is stalled; otherwise the round counts, and unless there were too many the oldest waiter is settled. -/
def Settles (m : Machine β) : Prop :=
  match m.session.live with
  | [] => ∃ trace, m.settleOldest = (.error (.violated (.stalled m.running)),
    { m with session := { m.session with waiters := [], trace := trace } })
  | oldest :: others =>
    if m.session.config.maxSettleRounds.floor < (m.session.settleRounds + 1 : Nat) then
      ∃ trace, m.settleOldest = (.error (.violated (.gaveUp m.session.config.maxSettleRounds)), { m with
        session := { m.session with
          waiters := oldest :: others, settleRounds := m.session.settleRounds + 1, trace := trace } })
    else
      ∃ trace, ∃ fiber, (oldest.ticket, fiber) ∈ m.suspended ∧ m.settleOldest = (.ok (), { m with
        session := { m.session with
          waiters := others, settleRounds := m.session.settleRounds + 1, trace := trace }
        queue := m.queue ++ [.run (fiber.resume .settled)]
        suspended := m.suspended.filter fun entry => entry.1 ≠ oldest.ticket })

namespace Orderly

variable {log : List Nat} (orderly : m.Orderly log)
include orderly

theorem issued {ticket : Nat} (member : ticket ∈ m.suspended.map Prod.fst) : ticket < m.nextTicket :=
  List.mem_range.mp (orderly.tickets.subset (List.mem_append_right _ member))

theorem distinct : (m.session.waiters.map Waiter.ticket).Nodup :=
  (orderly.order.imp fun lt => Nat.ne_of_lt lt).sublist orderly.listed

theorem leave (stays : Nat → Bool) (silent : m'.session.signals = [])
    (free : m'.Free)
    (grows : m.session.inferVars.length ≤ m'.session.inferVars.length)
    (abandons : m.session.abandoned ⊆ m'.session.abandoned) (nextTicket : m'.nextTicket = m.nextTicket)
    (suspended : m'.suspended = m.suspended.filter fun entry => stays entry.1)
    (rest : m'.session.waiters.Sublist m.session.waiters) (gone : ∀ w ∈ m'.session.waiters, stays w.ticket = true)
    (others : ∀ w ∈ m.session.waiters, stays w.ticket = true →
      w ∈ m'.session.waiters ∨ ∃ n ∈ m'.session.abandoned, w.speculation = some n) :
    m'.Orderly (log ++ m.released m') where
  silent := silent
  free := free
  known w member := Nat.lt_of_lt_of_le (orderly.known w (rest.subset member)) grows
  tickets := by
    rw [List.append_assoc, nextTicket]
    exact ((released_perm suspended).append_left log).trans orderly.tickets
  order := by
    rw [suspended]
    exact orderly.order.sublist (List.filter_sublist.map _)
  listed := by
    have stay : (m'.session.waiters.map Waiter.ticket).filter stays = m'.session.waiters.map Waiter.ticket :=
      List.filter_eq_self.mpr (List.forall_mem_map.mpr gone)
    have fewer := ((rest.map Waiter.ticket).trans orderly.listed).filter stays
    rw [stay, List.filter_map] at fewer
    rwa [suspended]
  waiting entry member := by
    rw [suspended] at member
    obtain ⟨there, stay⟩ := List.mem_filter.mp member
    obtain ⟨i, speculation, enough, k, code, waiting⟩ := orderly.waiting entry there
    refine ⟨i, speculation, enough, k, code, ?_⟩
    rcases waiting with waiting | ⟨n, abandoned, same⟩
    · exact others _ waiting stay
    · exact .inr ⟨n, abandons abandoned, same⟩

theorem aside (free : m'.Free) (summons : m.session.Summons [] [] m'.session) (suspended : m'.suspended = m.suspended)
    (nextTicket : m'.nextTicket = m.nextTicket) : m'.Orderly (log ++ m.released m') := by
  have same : m'.session.waiters = m.session.waiters := by simpa using summons.waiters
  refine orderly.leave (fun _ => true) ?_ free summons.known summons.abandoned nextTicket ?_ ?_
    (fun _ _ => rfl) fun w member _ => .inl (same ▸ member)
  · simp [summons.signals, orderly.silent, Session.summoned]
  · simpa using suspended
  · rw [same]

theorem wait (rules : Rules) (kept : (Prog.park i speculation enough k).KeepsFrom .free m.session.inferVars.length) :
    (m.execute rules d waits (.park i speculation enough k)).Orderly
      (log ++ m.released (m.execute rules d waits (.park i speculation enough k))) := by
  have none : m.released (m.execute rules d waits (.park i speculation enough k)) = [] := by
    refine released_nil ?_
    simp [execute]
  rw [none, List.append_nil]
  refine ⟨orderly.silent, orderly.free.park kept, ?_, ?_, ?_, ?_, ?_⟩
  · exact List.forall_mem_append.mpr ⟨orderly.known, List.forall_mem_singleton.mpr kept.1⟩
  · simp only [execute, List.map_append, List.range_succ, ← List.append_assoc]
    exact orderly.tickets.append_right _
  · simp only [execute, List.map_append]
    refine List.pairwise_append.mpr ⟨orderly.order, List.pairwise_singleton _ _, fun ticket member other last => ?_⟩
    rw [List.mem_singleton.mp last]
    exact orderly.issued member
  · simp only [execute, List.map_append]
    exact orderly.listed.append (List.Sublist.refl _)
  · refine List.forall_mem_append.mpr ⟨fun entry member => ?_, List.forall_mem_singleton.mpr ?_⟩
    · obtain ⟨j, other, enough', k', code, waiting⟩ := orderly.waiting entry member
      exact ⟨j, other, enough', k', code, waiting.imp_left (List.mem_append_left _)⟩
    · exact ⟨i, speculation, enough, k, rfl, .inl (List.mem_append_right _ List.mem_cons_self)⟩

theorem alter (d : Deed) :
    (m.alter d).Orderly (log ++ m.released (m.alter d)) := by
  obtain ⟨vs, stirs, summons⟩ := d.summons m.session
  have distinct := m.session.nodup_summoned vs orderly.distinct
  obtain ⟨notices, _, effect⟩ := alter_eq orderly.silent distinct summons
  have session : (m.alter d).session = { d.apply m.session with signals := [] } := congrArg Machine.session effect
  refine orderly.leave (fun ticket => !((m.session.summoned vs).map Waiter.ticket).contains ticket)
    ?_ ?_ ?_ ?_ ?_ ?_ ?_ ?_ ?_
  · rw [session]
  · exact (orderly.free.session summons.known).deliverSignals
  · rw [session]
    exact summons.known
  · rw [session]
    exact summons.abandoned
  · rw [effect, summon]
  · rw [effect, summon]
  · rw [session, summons.waiters]
    exact List.filter_sublist
  · intro w member
    rw [session] at member
    rw [summons.waiters] at member
    obtain ⟨there, outside⟩ := List.mem_filter.mp member
    simp only [List.contains_eq_mem, Bool.not_eq_true', decide_eq_false_iff_not] at outside ⊢
    intro listed
    obtain ⟨other, called, same⟩ := List.mem_map.mp listed
    obtain ⟨waits, subject⟩ := Session.mem_summoned.mp called
    obtain rfl := List.inj_on_of_nodup_map orderly.distinct waits there same
    exact outside subject
  · intro w member stay
    refine .inl ?_
    rw [session]
    rw [summons.waiters]
    refine List.mem_filter.mpr ⟨member, ?_⟩
    simp only [List.contains_eq_mem, Bool.not_eq_true', decide_eq_false_iff_not] at stay ⊢
    exact fun subject => stay (List.mem_map_of_mem (Session.mem_summoned.mpr ⟨member, subject⟩))

theorem fiber {w : Waiter} (member : w ∈ m.session.waiters) :
    ∃ fiber, m.suspended.lookup w.ticket = some fiber ∧ (w.ticket, fiber) ∈ m.suspended := by
  obtain ⟨entry, there, same⟩ := List.mem_map.mp (orderly.listed.subset (List.mem_map_of_mem member))
  cases found : m.suspended.lookup w.ticket with
  | none => exact absurd same.symm (bne_iff_ne.mp (List.lookup_eq_none_iff.mp found entry there))
  | some fiber =>
    obtain ⟨_, _, split, _⟩ := List.lookup_eq_some_iff.mp found
    exact ⟨fiber, rfl, by simp [split]⟩

theorem settles : m.Settles := by
  unfold Settles
  split
  · rename_i nobody
    obtain ⟨trace, stalled⟩ := Action.exec_settleOldest_stalled m.running orderly.known orderly.distinct nobody
    refine ⟨trace, ?_⟩
    rw [settleOldest_eq, stalled]
  · rename_i oldest others first
    split
    · rename_i many
      obtain ⟨trace, gaveUp⟩ :=
        Action.exec_settleOldest_gaveUp m.running orderly.known orderly.distinct first many
      refine ⟨trace, ?_⟩
      rw [settleOldest_eq, gaveUp]
    · rename_i few
      obtain ⟨trace, settled⟩ :=
        Action.exec_settleOldest m.running orderly.known orderly.distinct first (Int.not_lt.mp few)
      have listed : oldest ∈ m.session.live := first ▸ List.mem_cons_self
      obtain ⟨fiber, found, there⟩ := orderly.fiber (List.mem_filter.mp listed).1
      refine ⟨trace, fiber, there, ?_⟩
      simp only [settleOldest_eq, settled, wake_eq, resumption, found]
      rfl

theorem drop (stays : Nat → Bool) (queue : List (Event β)) {s : Session} (silent : s.signals = m.session.signals)
    (inferVars : s.inferVars = m.session.inferVars) (abandoned : s.abandoned = m.session.abandoned)
    (listed : s.waiters = m.session.live.filter fun w => stays w.ticket) {m' : Machine β} (free : m'.Free)
    (after : m' = { m with session := s, queue, suspended := m.suspended.filter fun entry => stays entry.1 }) :
    m'.Orderly (log ++ m.released m') := by
  subst after
  refine orderly.leave stays (silent.trans orderly.silent) free (Nat.le_of_eq (congrArg List.length inferVars.symm))
    (abandoned ▸ List.Subset.refl _) rfl rfl ?_ ?_ ?_
  · dsimp only
    rw [listed]
    exact List.filter_sublist.trans List.filter_sublist
  · intro w member
    dsimp only at member
    rw [listed] at member
    exact (List.mem_filter.mp member).2
  · intro w member stay
    dsimp only
    rw [listed, abandoned]
    cases idle : Action.isAbandoned m.session w with
    | false => exact .inl (List.mem_filter.mpr ⟨List.mem_filter.mpr ⟨member, by rw [idle]; rfl⟩, stay⟩)
    | true =>
      refine .inr ?_
      unfold Action.isAbandoned at idle
      split at idle
      · rename_i n same
        exact ⟨n, List.contains_iff_mem.mp idle, same⟩
      · cases idle

theorem settle :
    m.settleOldest.2.Orderly (log ++ m.released m.settleOldest.2) := by
  have everyone (entries : List (Nat × Waiting β Wake)) : entries.filter (fun _ => true) = entries := by simp
  have settles := orderly.settles
  unfold Settles at settles
  split at settles
  · rename_i nobody
    obtain ⟨trace, stalled⟩ := settles
    refine orderly.drop (fun _ => true) m.queue (s := { m.session with waiters := [], trace := trace }) rfl rfl rfl ?_
      orderly.free.settle ?_
    · simp [nobody]
    · rw [stalled, everyone]
  · rename_i oldest others first
    split at settles
    · obtain ⟨trace, gaveUp⟩ := settles
      refine orderly.drop (fun _ => true) m.queue (s := { m.session with
        waiters := oldest :: others, settleRounds := m.session.settleRounds + 1, trace := trace }) rfl rfl rfl ?_
        orderly.free.settle ?_
      · simp [first]
      · rw [gaveUp, everyone]
    · obtain ⟨trace, fiber, there, settled⟩ := settles
      refine orderly.drop (fun ticket => ticket ≠ oldest.ticket) _ (s := { m.session with
        waiters := others, settleRounds := m.session.settleRounds + 1, trace := trace }) rfl rfl rfl ?_
        orderly.free.settle (congrArg Prod.snd settled)
      have distinct : ((oldest :: others).map Waiter.ticket).Nodup :=
        first ▸ orderly.distinct.sublist (List.filter_sublist.map _)
      rw [first, List.filter_cons_of_neg (by simp)]
      refine (List.filter_eq_self.mpr fun other member => ?_).symm
      have apart : other.ticket ≠ oldest.ticket := fun same =>
        (List.nodup_cons.mp distinct).1 (same ▸ List.mem_map_of_mem member)
      simpa using apart

theorem session {s : Session} (summons : m.session.Summons [] [] s) :
    Orderly log ({ m with session := s } : Machine β) := by
  have same : m.released { m with session := s } = [] := released_nil (List.Subset.refl _)
  have moved : Orderly (log ++ m.released { m with session := s }) ({ m with session := s } : Machine β) :=
    orderly.aside (orderly.free.session summons.known) summons rfl rfl
  rwa [same, List.append_nil] at moved

theorem spawn {description : String} {code : Prog Unit} (kept : code.KeepsFrom .free m.session.inferVars.length) :
    (m.spawn description code).Orderly log :=
  have spawned := orderly.free.enqueue (f := ⟨.task description, 0, code⟩) kept
  ⟨orderly.silent, ⟨spawned.queue, spawned.suspended, spawned.joins⟩, orderly.known, orderly.tickets, orderly.order, orderly.listed, orderly.waiting⟩

theorem applyFallback (answers : ∀ ⦃s⦄ (g : Goal s), (rules s g).Keeps .free) (vars : List (InferVar × InferIndex)) :
    (m.applyFallback rules vars).2.Orderly (log ++ m.released (m.applyFallback rules vars).2) := by
  have still {m' : Machine β} (orderly' : m'.Orderly log) (same : m'.suspended = m.suspended) :
      m'.Orderly (log ++ m.released m') := by
    rwa [released_nil (by rw [same]; exact List.Subset.refl _), List.append_nil]
  induction vars generalizing m with
  | nil => exact still orderly rfl
  | cons entry vars ih =>
    obtain ⟨v, i⟩ := entry
    simp only [Machine.applyFallback]
    split
    · exact ih orderly still
    · rename_i d _
      have cleared : Orderly log ({ m with session := ((Action.modifyInferVar i fun v =>
          { v with fallback := none }).exec m.session).2 } : Machine β) :=
        orderly.session (Action.summons_modifyInferVar i _)
      split
      · exact ih cleared still
      · have logged := cleared.session (Action.summons_log 0 "applying default for" [v.render i])
        cases d with
        | numeric env o =>
          refine still (Orderly.spawn (Orderly.session logged (Action.summons_log _ _ _)) ?_) rfl
          exact answers _ _
        | bound target b => exact logged.alter (.lower target b)

end Orderly

def desk (m : Machine β) : Session × List (Nat × Waiting β Wake) × Nat := (m.session, m.suspended, m.nextTicket)

theorem Joined.desk {m' : Machine β} (joined : m.Joined m') : m'.desk = m.desk := by
  obtain ⟨_, _, rfl⟩ := joined
  rfl

theorem desk_finish {d : Dest} {r : Except Failure (d.Answer β)} :
    m.session.Summons [] [] (m.finish d r).session ∧ (m.finish d r).desk.2 = m.desk.2 := by
  cases d with
  | root slot => exact ⟨.refl _, rfl⟩
  | task description =>
    simp only [finish]
    split
    · exact ⟨.refl _, rfl⟩
    · exact ⟨Action.summons_log 0 _ _, rfl⟩
    · exact ⟨.refl _, rfl⟩
  | child s join index =>
    have joined : m.Joined (m.finish (.child s join index) r) := joined_handIn
    exact ⟨joined.session ▸ .refl _, congrArg Prod.snd joined.desk⟩

theorem handle_desk (rules : Rules) {e : Event β} (other : e.isUpdate = false) :
    (∃ d waits i speculation enough k, e = .run ⟨d, waits, .park i speculation enough k⟩) ∨
      m.session.Summons [] [] (m.handle rules e).session ∧ (m.handle rules e).desk.2 = m.desk.2 := by
  have same {m' : Machine β} (desk : m'.desk = m.desk) :
      m.session.Summons [] [] m'.session ∧ m'.desk.2 = m.desk.2 := by
    have session : m'.session = m.session := congrArg Prod.fst desk
    exact ⟨session ▸ .refl _, congrArg Prod.snd desk⟩
  cases e with
  | arrive s join index answer => exact .inr (same joined_answerJoin.desk)
  | enlist join => exact .inr (same joined_enlistNext.desk)
  | expect join | notice join => exact .inr (same rfl)
  | heed join => exact .inr (same joined_heedRace.desk)
  | offer join outcome => exact .inr (same joined_decideContest.desk)
  | run f =>
    obtain ⟨d, waits, code⟩ := f
    cases code with
    | done r => exact .inr desk_finish
    | update f k => cases other
    | call g k | mark k | note g r k | gather groups k | contest search tests k | spawn description g k =>
      exact .inr (same rfl)
    | rest turns k => cases turns <;> exact .inr (same rfl)
    | park i speculation enough k => exact .inl ⟨d, waits, i, speculation, enough, k, rfl⟩
    | race decisive passed tests k =>
      refine .inr (same ?_)
      simp only [handle, execute]
      split <;> rfl

def Counts (s s' : Session) : Prop := s.settleRounds ≤ s'.settleRounds ∧ s'.config = s.config

theorem Counts.trans {s s' s'' : Session} (first : Counts s s') (second : Counts s' s'') : Counts s s'' :=
  ⟨Nat.le_trans first.1 second.1, second.2.trans first.2⟩

theorem counts_summons {s s' : Session} {vs : List InferIndex} {stirs : List Nat} (summons : s.Summons vs stirs s') :
    Counts s s' := ⟨Nat.le_of_eq summons.settleRounds.symm, summons.config⟩

theorem counts_alter (d : Deed) : Counts m.session (m.alter d).session := by
  obtain ⟨vs, stirs, summons⟩ := d.summons m.session
  rw [alter, deliverSignals_eq]
  exact ⟨Nat.le_of_eq summons.settleRounds.symm, summons.config⟩

theorem counts_applyFallback (vars : List (InferVar × InferIndex)) :
    Counts m.session (m.applyFallback rules vars).2.session := by
  induction vars generalizing m with
  | nil => exact counts_summons (.refl _)
  | cons entry vars ih =>
    obtain ⟨v, i⟩ := entry
    simp only [applyFallback]
    split
    · exact ih
    · rename_i d _
      let clear := Action.modifyInferVar i fun v => { v with fallback := none }
      let cleared : Machine β := { m with session := (clear.exec m.session).2 }
      let logged := cleared.log "applying default for" [v.render i]
      have first : Counts m.session cleared.session := counts_summons (Action.summons_modifyInferVar i _)
      have second : Counts m.session logged.session := first.trans (counts_summons (Action.summons_log 0 _ _))
      split
      · exact first.trans (ih (m := cleared))
      · cases d with
        | numeric env o => exact second.trans (counts_summons (Action.summons_log _ _ _))
        | bound target b => exact second.trans (counts_alter (m := logged) (.lower target b))

inductive Operates (rules : Rules) (m : Machine β) : Machine β → Prop
  | start {slot : Nat} {code : Prog β} (kept : code.KeepsFrom .free m.session.inferVars.length) :
    Operates rules m (m.start slot code)
  | spawn {description : String} {code : Prog Unit} (kept : code.KeepsFrom .free m.session.inferVars.length) :
    Operates rules m (m.spawn description code)
  | wait {d : Dest} {waits : Nat} {i : InferIndex} {speculation : Option Nat} {enough : InferVar → Bool}
    {k : Wake → Prog (d.Answer β)}
    (kept : (Prog.park i speculation enough k).KeepsFrom .free m.session.inferVars.length) :
    Operates rules m (m.execute rules d waits (.park i speculation enough k))
  | act (d : Deed) : Operates rules m (m.alter d)
  | turn {e : Event β} {rest : List (Event β)} (first : m.queue = e :: rest) (other : e.isUpdate = false) :
    Operates rules m ({ m with queue := rest }.handle rules e)
  | change {d : Dest} {waits : Nat} {f : Session → Session} {k : Session → Prog (d.Answer β)}
    {rest : List (Event β)} (first : m.queue = .run ⟨d, waits, .update f k⟩ :: rest) :
    Operates rules m { m with queue := .run ⟨d, waits, k m.session⟩ :: rest }
  | fallback : Operates rules m (m.applyFallback rules m.session.inferVars.zipIdx).2
  | reject {e : Failure} {m' : Machine β} (rejects : m.settleOldest = (.error e, m')) : Operates rules m m'

/-- The machine has come from a session in which nobody was waiting. The history has the tickets of
those that were resumed, and how often somebody was settled. -/
inductive History (rules : Rules) (s : Session) : List Nat → Nat → Machine β → Prop
  | idle : History rules s [] 0 { session := s }
  | operate {log : List Nat} {settles : Nat} {m m' : Machine β} (past : History rules s log settles m)
    (next : Operates rules m m') : History rules s (log ++ m.released m') settles m'
  | settle {log : List Nat} {settles : Nat} {m m' : Machine β} (past : History rules s log settles m)
    (next : m.settleOldest = (.ok (), m')) : History rules s (log ++ m.released m') (settles + 1) m'

section Invariants

variable {s : Session} {log : List Nat} {settles : Nat} (answers : ∀ ⦃s⦄ (g : Goal s), (rules s g).Keeps .free)
include answers

theorem Operates.orderly (next : m.Operates rules m') (orderly : m.Orderly log) :
    m'.Orderly (log ++ m.released m') := by
  have same {m' : Machine β} (orderly' : m'.Orderly log) (kept : m'.suspended = m.suspended) :
      m'.Orderly (log ++ m.released m') := by
    rwa [released_nil (by rw [kept]; exact List.Subset.refl _), List.append_nil]
  cases next with
  | start kept =>
    refine orderly.aside ?_ (.refl _) rfl rfl
    exact orderly.free.enqueue kept
  | spawn kept => exact same (orderly.spawn kept) rfl
  | wait kept => exact orderly.wait rules kept
  | act d => exact orderly.alter d
  | @turn e rest first other =>
    let next : Machine β := { m with queue := rest }
    have fewer : next.Free := orderly.free.line fun f queued => .inl (by rw [first]; exact List.mem_cons_of_mem _ queued)
    have taken : next.Orderly log :=
      ⟨orderly.silent, fewer, orderly.known, orderly.tickets, orderly.order, orderly.listed, orderly.waiting⟩
    have kept (f : Fiber β) (same : e = .run f) : f.code.KeepsFrom .free m.session.inferVars.length :=
      orderly.free.queue f (by rw [first, same]; exact List.mem_cons_self)
    rcases handle_desk (m := next) rules other with ⟨d, waits, i, speculation, enough, k, rfl⟩ | ⟨summons, desk⟩
    · exact taken.wait rules (kept _ rfl)
    · exact taken.aside (taken.free.handle answers kept other) summons (congrArg Prod.fst desk) (congrArg Prod.snd desk)
  | @change d waits f k rest first =>
    have kept : (Prog.update f k).KeepsFrom .free m.session.inferVars.length :=
      orderly.free.queue ⟨d, waits, .update f k⟩ (by rw [first]; exact List.mem_cons_self)
    refine orderly.aside (orderly.free.line fun f' queued => ?_) (.refl _) rfl rfl
    rcases List.mem_cons.mp queued with same | old
    · cases same
      exact .inr (kept m.session (Nat.le_refl _)).2
    · exact .inl (by rw [first]; exact List.mem_cons_of_mem _ old)
  | fallback => exact orderly.applyFallback answers _
  | reject rejects =>
    have settled := orderly.settle
    rwa [rejects] at settled

theorem History.orderly (history : m.History rules s log settles) (nobody : s.waiters = []) (silent : s.signals = []) :
    m.Orderly log := by
  induction history with
  | idle =>
    refine ⟨silent, ⟨fun _ queued => absurd queued List.not_mem_nil, fun _ kept => absurd kept List.not_mem_nil,
      fun _ listed => absurd listed List.not_mem_nil⟩, ?_, .refl _, .nil, ?_, nofun⟩
    · simp [nobody]
    · simp [nobody]
  | operate past next ih => exact next.orderly answers ih
  | settle past next ih =>
    have settled := ih.settle
    rwa [next] at settled

omit answers in
theorem Operates.counts (next : m.Operates rules m') (orderly : m.Orderly log) : Counts m.session m'.session := by
  cases next with
  | start kept | spawn kept | change first => exact counts_summons (.refl _)
  | wait kept => exact ⟨Nat.le_refl _, rfl⟩
  | act d => exact counts_alter d
  | @turn e rest first other =>
    rcases handle_desk (m := { m with queue := rest }) rules other with ⟨_, _, _, _, _, _, rfl⟩ | ⟨summons, _⟩
    · exact ⟨Nat.le_refl _, rfl⟩
    · exact counts_summons summons
  | fallback => exact counts_applyFallback _
  | reject rejects =>
    have settles := orderly.settles
    unfold Settles at settles
    split at settles
    · obtain ⟨trace, stalled⟩ := settles
      cases rejects.symm.trans stalled
      exact ⟨Nat.le_refl _, rfl⟩
    · split at settles
      · obtain ⟨trace, gaveUp⟩ := settles
        cases rejects.symm.trans gaveUp
        exact ⟨Nat.le_succ _, rfl⟩
      · obtain ⟨trace, fiber, _, settled⟩ := settles
        cases rejects.symm.trans settled

theorem History.rounds (history : m.History rules s log settles) (nobody : s.waiters = []) (silent : s.signals = []) :
    settles ≤ m.session.settleRounds ∧ m.session.config = s.config ∧
      (settles : Int) ≤ max 0 s.config.maxSettleRounds.floor := by
  induction history with
  | idle => exact ⟨Nat.zero_le _, rfl, Int.le_max_left _ _⟩
  | operate past next ih =>
    obtain ⟨counted, config, bound⟩ := ih
    obtain ⟨more, same⟩ := next.counts (past.orderly answers nobody silent)
    exact ⟨Nat.le_trans counted more, same.trans config, bound⟩
  | settle past next ih =>
    obtain ⟨counted, config, bound⟩ := ih
    have settles := (past.orderly answers nobody silent).settles
    unfold Settles at settles
    split at settles
    · obtain ⟨trace, stalled⟩ := settles
      cases next.symm.trans stalled
    · split at settles
      · obtain ⟨trace, gaveUp⟩ := settles
        cases next.symm.trans gaveUp
      · rename_i few
        obtain ⟨trace, fiber, _, settled⟩ := settles
        cases next.symm.trans settled
        rw [config] at few
        exact ⟨Nat.succ_le_succ counted, config, by omega⟩

def Continues (rules : Rules) (s : Session) (log : List Nat) (settles : Nat) (m : Machine β) : Prop :=
  ∃ more moreSettles, log <+: more ∧ settles ≤ moreSettles ∧ m.History rules s more moreSettles

omit answers in
theorem History.continues (history : m.History rules s log settles) : m.Continues rules s log settles :=
  ⟨log, settles, List.prefix_rfl, Nat.le_refl _, history⟩

omit answers in
theorem Continues.operate (past : m.Continues rules s log settles) (next : m.Operates rules m') :
    m'.Continues rules s log settles := by
  obtain ⟨more, moreSettles, front, le, history⟩ := past
  exact ⟨_, _, front.trans (List.prefix_append _ _), le, history.operate next⟩

omit answers in
theorem Continues.does {s₁ s₂ : Session} (does : Conduct.free.Does s₁ s₂)
    (past : (deliverSignals { m with session := s₁ }).Continues rules s log settles) :
    (deliverSignals { m with session := s₂ }).Continues rules s log settles := by
  induction does with
  | refl => exact past
  | tail _ step ih =>
    obtain ⟨d, _, rfl⟩ := step
    rw [deliverSignals_apply]
    exact ih.operate (.act d)

section Driving

variable (nobody : s.waiters = []) (silent : s.signals = [])
include nobody silent

theorem Continues.step (past : m.Continues rules s log settles) (next : m.step rules = some m') :
    m'.Continues rules s log settles := by
  unfold Machine.step at next
  split at next
  · cases next
  · rename_i e rest first
    cases next
    cases update : e.isUpdate with
    | false => exact past.operate (.turn first update)
    | true =>
      obtain ⟨more, moreSettles, front, le, history⟩ := past
      have orderly := history.orderly answers nobody silent
      unfold Event.isUpdate at update
      split at update
      · rename_i d waits f k
        have kept : (Prog.update f k).KeepsFrom .free m.session.inferVars.length :=
          orderly.free.queue ⟨d, waits, .update f k⟩ (by rw [first]; exact List.mem_cons_self)
        have does : Conduct.free.Does m.session (f m.session) := (kept m.session (Nat.le_refl _)).1
        let taken : Machine β := { m with queue := .run ⟨d, waits, k m.session⟩ :: rest }
        have begun : taken.Continues rules s log settles :=
          Continues.operate ⟨more, moreSettles, front, le, history⟩ (.change first)
        have told : deliverSignals { taken with session := m.session } = taken := by
          simp [taken, deliverSignals, orderly.silent]
        refine Continues.does (m := taken) does ?_
        rw [told]
        exact begun
      · cases update

omit answers nobody silent in
theorem Continues.settle (past : m.Continues rules s log settles) : m.settleOldest.2.Continues rules s log settles := by
  rcases outcome : m.settleOldest with ⟨_ | _, m'⟩
  · exact past.operate (.reject outcome)
  · obtain ⟨more, moreSettles, front, le, history⟩ := past
    exact ⟨_, _, front.trans (List.prefix_append _ _), Nat.le_succ_of_le le, history.settle outcome⟩

theorem Continues.drive (past : m.Continues rules s log settles) (fuel rounds : Nat) :
    (m.drive rules fuel rounds).2.Continues rules s log settles :=
  drive_keeps (fun _ _ past next => past.step answers nobody silent next) (fun _ past => past.operate .fallback)
    (fun _ past => past.settle) past fuel rounds

end Driving

end Invariants

def Heeds (m : Machine β) (c : Change) : Prop :=
  match (c.action.exec m.session).1 with
  | .ok true => ∃ resumed : List (Waiter × Waiting β Wake),
    (∀ r ∈ resumed, (r.1.ticket, r.2) ∈ m.suspended ∧ r.1.infer ∈ c.subjects) ∧
    (m.alter c.deed).queue = m.queue ++ resumed.map (fun r => .run (r.2.resume .changed)) ∧
    (m.alter c.deed).suspended = m.suspended.filter (fun entry =>
      !(resumed.map fun r => r.1.ticket).contains entry.1) ∧
    (∀ v, (m.alter c.deed).session.inferVars[v]? ≠ m.session.inferVars[v]? → v ∈ c.subjects) ∧
    ∀ v ∈ c.subjects, (resumed.map Prod.fst).filter (fun w => w.infer = v) =
      m.session.waiters.filter (fun w => w.infer = v) ∧ ∀ w ∈ (m.alter c.deed).session.waiters, w.infer ≠ v
  | .ok false => m.alter c.deed = m
  | .error _ => (m.alter c.deed).queue = m.queue ∧ (m.alter c.deed).suspended = m.suspended ∧
    (m.alter c.deed).session.waiters = m.session.waiters

namespace Orderly

variable {log : List Nat} (orderly : m.Orderly log)
include orderly

theorem resumptions (reason : Wake) {ws : List Waiter} (listed : ws ⊆ m.session.waiters) :
    ∃ resumed : List (Waiter × Waiting β Wake), resumed.map Prod.fst = ws ∧
      (∀ r ∈ resumed, (r.1.ticket, r.2) ∈ m.suspended) ∧
      (ws.map Waiter.ticket).filterMap (m.resumption reason) = resumed.map fun r => .run (r.2.resume reason) := by
  induction ws with
  | nil => exact ⟨[], rfl, by simp, rfl⟩
  | cons w ws ih =>
    obtain ⟨here, later⟩ := List.cons_subset.mp listed
    obtain ⟨resumed, same, there, events⟩ := ih later
    obtain ⟨fiber, found, suspended⟩ := orderly.fiber here
    refine ⟨(w, fiber) :: resumed, by rw [List.map_cons, same], List.forall_mem_cons.mpr ⟨suspended, there⟩, ?_⟩
    have first : m.resumption reason w.ticket = some (.run (fiber.resume reason)) := by
      simp [resumption, found]
    rw [List.map_cons, List.filterMap_cons_some first, events, List.map_cons]

theorem heeds (c : Change) : m.Heeds c := by
  have summoned {vs : List InferIndex} (summons : m.session.Summons vs [] (c.deed.apply m.session)) :
      m.alter c.deed = m.summon c.deed vs := by
    obtain ⟨notices, none, effect⟩ := alter_eq orderly.silent (m.session.nodup_summoned vs orderly.distinct) summons
    rw [effect, none rfl, List.append_nil]
  have effect := c.effect m.session
  rw [c.session_action] at effect
  unfold Heeds
  rcases effect with ⟨new, summons, subjects⟩ | old | ⟨⟨e, broken⟩, summons⟩
  · rw [new]
    have effect := summoned summons
    have listed : m.session.summoned c.subjects ⊆ m.session.waiters := fun w member => (Session.mem_summoned.mp member).1
    obtain ⟨resumed, same, there, events⟩ := orderly.resumptions .changed listed
    have tickets : resumed.map (fun r => r.1.ticket) = (m.session.summoned c.subjects).map Waiter.ticket := by
      rw [← same, List.map_map]
      rfl
    refine ⟨resumed, fun r member => ⟨there r member, ?_⟩, ?_, ?_, ?_, fun v member => ⟨?_, ?_⟩⟩
    · have called : r.1 ∈ m.session.summoned c.subjects := same ▸ List.mem_map_of_mem member
      exact (Session.mem_summoned.mp called).2
    · rw [effect, summon, events]
    · rw [effect, summon, tickets]
    · rw [effect]
      exact subjects
    · rw [same]
      exact Session.filter_summoned member
    · intro w waits here
      rw [effect] at waits
      change w ∈ (c.deed.apply m.session).waiters at waits
      rw [summons.waiters] at waits
      simpa [here, member] using (List.mem_filter.mp waits).2
  · rw [congrArg Prod.fst old]
    have same : c.deed.apply m.session = m.session := by
      rw [← c.session_action, old]
    rw [Machine.alter, same, deliverSignals, orderly.silent]
    rfl
  · rw [broken]
    have effect := summoned summons
    rw [effect, summon]
    refine ⟨by simp [Session.summoned], by simp [Session.summoned], ?_⟩
    simpa using summons.waiters

end Orderly

end Machine

theorem Conduct.checks_free : Conduct.free.keeping.Checks (fun _ => True) True :=
  ⟨fun _ _ _ => trivial, fun _ _ _ => trivial, fun _ _ _ => trivial, fun _ _ => trivial, fun _ _ _ => trivial, trivial,
    fun _ _ _ => trivial, fun _ _ _ => trivial, fun _ _ _ => trivial⟩

theorem Rules.keeps_answer_free ⦃s : Shape⦄ (g : Goal s) : (Rules.answer s g).Keeps .free := by
  refine Prog.Keeps.noted ?_ g
  cases g with
  | numeric env t o =>
    exact Rules.heeds_numeric env o Conduct.checks_free.looks t (fun _ _ => trivial) (fun _ _ => trivial)
      fun _ _ => trivial
  | _ => exact Rules.heeds_rule Conduct.checks_free _ trivial

namespace Machine

/-- Over every history of waits, changes, abandoned speculations and rounds of driving: nobody is resumed
twice and nobody is lost, since whoever was not resumed is still suspended and, unless the speculation was
abandoned, waits. Changes resume the waiters of their variables; settling resumes the oldest waiter whose
speculation is not abandoned, within the number of rounds. -/
theorem waiters_resumed_at_most_once {s : Session} (nobody : s.waiters = []) (silent : s.signals = [])
    {log : List Nat} {settles : Nat} {m : Machine β} (history : m.History Rules.answer s log settles) :
    log.Nodup ∧
      (∀ ticket < m.nextTicket, ticket ∉ log → ∃ fiber i speculation enough k, (ticket, fiber) ∈ m.suspended ∧
        fiber.code = woken i speculation enough k ∧
        (⟨ticket, i, speculation⟩ ∈ m.session.waiters ∨ ∃ n ∈ m.session.abandoned, speculation = some n)) ∧
      (m.session.waiters.map Waiter.ticket).Pairwise (· < ·) ∧
      (∀ w ∈ m.session.waiters, w.ticket ∉ log) ∧
      (∀ c, m.Heeds c) ∧
      m.Settles ∧
      (settles : Int) ≤ max 0 s.config.maxSettleRounds.floor ∧
      ∀ fuel rounds, (m.drive Rules.answer fuel rounds).2.Continues Rules.answer s log settles := by
  have orderly := history.orderly Rules.keeps_answer_free nobody silent
  have distinct : (log ++ m.suspended.map Prod.fst).Nodup := orderly.tickets.nodup_iff.mpr List.nodup_range
  refine ⟨(List.nodup_append.mp distinct).1, fun ticket issued missing => ?_, orderly.order.sublist orderly.listed,
    fun w member resumed => ?_, orderly.heeds, orderly.settles,
    (history.rounds Rules.keeps_answer_free nobody silent).2.2,
    history.continues.drive Rules.keeps_answer_free nobody silent⟩
  · have accounted := orderly.tickets.symm.subset (List.mem_range.mpr issued)
    obtain ⟨⟨_, fiber⟩, there, rfl⟩ := List.mem_map.mp ((List.mem_append.mp accounted).resolve_left missing)
    obtain ⟨i, speculation, enough, k, code, waiting⟩ := orderly.waiting _ there
    exact ⟨fiber, i, speculation, enough, k, there, code, waiting⟩
  · have suspended := orderly.listed.subset (List.mem_map_of_mem member)
    exact (List.nodup_append.mp distinct).2.2 _ resumed _ suspended rfl

section Restless

def restless : Session where
  config := {}
  program := .empty
  inferVars := List.replicate 2 { kind := .type, span := default, home := .root }
  nextSymbol := 0
  nextReport := 0

def sleeper (i : InferIndex) (speculation : Option Nat) : Prog Unit :=
  .park i speculation (fun _ => true) fun _ => .done (.ok ())

def asleep : Machine Unit :=
  let first : Machine Unit := ({ session := restless } : Machine Unit).execute Rules.answer (.root 0) 0 (sleeper 0 (some 7))
  let second := first.execute Rules.answer (.root 1) 0 (sleeper 1 none)
  let third := second.execute Rules.answer (.root 2) 0 (sleeper 0 none)
  third.alter (.abandon 7)

def settled : Machine Unit := asleep.settleOldest.2

def stirred : Machine Unit := settled.alter (.upper 0 ⟨.ty .bool, ⟨.subtype default (.ty (.infer 0)) (.ty .bool), []⟩⟩)

theorem history_stirred : stirred.History Rules.answer restless [1, 2] 1 := by
  have sleeps {m : Machine Unit} {log : List Nat} (history : m.History Rules.answer restless log 0) (slot : Nat)
      {i : InferIndex} (known : i < m.session.inferVars.length) (speculation : Option Nat) :
      (m.execute Rules.answer (.root slot) 0 (sleeper i speculation)).History Rules.answer restless
        (log ++ m.released (m.execute Rules.answer (.root slot) 0 (sleeper i speculation))) 0 :=
    history.operate (.wait ⟨known, fun _ => trivial⟩)
  have waits : asleep.History Rules.answer restless [] 0 :=
    (sleeps (sleeps (sleeps .idle 0 (i := 0) (by decide) (some 7)) 1 (i := 1) (by decide) none) 2 (i := 0) (by decide)
      none).operate (.act (.abandon 7))
  have settles : settled.History Rules.answer restless [1] 1 := waits.settle rfl
  have last : settled.Operates Rules.answer stirred := .act _
  exact settles.operate last

theorem waiters_resumed_at_most_once_stirred : restless.waiters = [] ∧ restless.signals = [] ∧
    stirred.History Rules.answer restless [1, 2] 1 ∧ stirred.nextTicket = 3 ∧
    (∃ fiber, (0, fiber) ∈ stirred.suspended) ∧ ((1 : Nat) : Int) ≤ max 0 restless.config.maxSettleRounds.floor := by
  obtain ⟨_, lost, _, _, _, _, bound, _⟩ := waiters_resumed_at_most_once rfl rfl history_stirred
  obtain ⟨fiber, _, _, _, _, there, _⟩ := lost 0 (by decide) (by decide)
  exact ⟨rfl, rfl, history_stirred, rfl, ⟨fiber, there⟩, bound⟩

end Restless

end Machine

end Ownership
