import Mathlib.Data.List.Nodup
import Ownership.Proofs.Crews

namespace Ownership

variable {β : Type}

def Session.live (s : Session) : List Waiter := s.waiters.filter fun w => !Action.isAbandoned s w

namespace Action

variable {s : Session}

theorem exec_dropWaiter (message : String) {w : Waiter} (known : w.infer < s.inferVars.length) :
    ∃ trace, (dropWaiter message w).exec s = (.ok (),
      { s with waiters := s.waiters.filter fun other => other.ticket ≠ w.ticket, trace := trace }) := by
  let s' : Session := { s with waiters := s.waiters.filter fun other => other.ticket ≠ w.ticket }
  obtain ⟨trace, logged⟩ := exec_log_trace 0 message [s.inferVars[w.infer].render w.infer] s'
  refine ⟨trace, ?_⟩
  simp only [dropWaiter, exec_bind, exec_modify, exec_inferVar, List.getElem?_eq_getElem known]
  exact logged

theorem exec_dropWaiters (message : String) (ws : List Waiter) (known : ∀ w ∈ ws, w.infer < s.inferVars.length) :
    ∃ trace, (ws.forM (dropWaiter message)).exec s = (.ok (), { s with
      waiters := s.waiters.filter fun other => !(ws.map Waiter.ticket).contains other.ticket, trace := trace }) := by
  induction ws generalizing s with
  | nil => exact ⟨s.trace, by simp⟩
  | cons w ws ih =>
    obtain ⟨here, others⟩ := List.forall_mem_cons.mp known
    obtain ⟨trace, dropped⟩ := exec_dropWaiter message here
    obtain ⟨trace', rest⟩ := ih (s := { s with waiters := _, trace := trace }) others
    refine ⟨trace', ?_⟩
    change (dropWaiter message w >>= fun _ => ws.forM (dropWaiter message)).exec s = _
    rw [exec_bind, dropped]
    refine rest.trans ?_
    congr 2
    simp only [List.filter_filter]
    refine List.filter_congr fun other _ => ?_
    by_cases same : other.ticket = w.ticket <;> simp [same]

section Settling

variable (running : Nat) (known : ∀ w ∈ s.waiters, w.infer < s.inferVars.length)
  (order : (s.waiters.map Waiter.ticket).Nodup)
include known order

theorem exec_dropAbandoned (message : String) :
    ∃ trace, ((s.waiters.filter (isAbandoned s)).forM (dropWaiter message)).exec s =
      (.ok (), { s with waiters := s.live, trace := trace }) := by
  obtain ⟨trace, dropped⟩ := exec_dropWaiters message (s.waiters.filter (isAbandoned s))
    fun w member => known w (List.mem_filter.mp member).1
  refine ⟨trace, dropped.trans ?_⟩
  have same : (s.waiters.filter fun other =>
      !((s.waiters.filter (isAbandoned s)).map Waiter.ticket).contains other.ticket) = s.live := by
    refine List.filter_congr fun w member => congrArg (!·) ?_
    rw [Bool.eq_iff_iff, List.contains_iff_mem, List.mem_map]
    constructor
    · rintro ⟨other, listed, same⟩
      obtain ⟨there, abandoned⟩ := List.mem_filter.mp listed
      obtain rfl := List.inj_on_of_nodup_map order there member same
      exact abandoned
    · intro abandoned
      exact ⟨w, List.mem_filter.mpr ⟨member, abandoned⟩, rfl⟩
  rw [same]

theorem exec_settleOldest_stalled (nobody : s.live = []) :
    ∃ trace, (settleOldest running).exec s =
      (.error (.violated (.stalled running)), { s with waiters := [], trace := trace }) := by
  obtain ⟨trace, dropped⟩ := exec_dropAbandoned known order "dropping abandoned waiter on"
  refine ⟨trace, ?_⟩
  simp only [settleOldest, exec_bind, exec_get, dropped, nobody]
  rfl

variable {oldest : Waiter} {others : List Waiter} (first : s.live = oldest :: others)
include first

theorem exec_settleOldest_gaveUp (many : s.config.maxSettleRounds.floor < (s.settleRounds + 1 : Nat)) :
    ∃ trace, (settleOldest running).exec s = (.error (.violated (.gaveUp s.config.maxSettleRounds)),
      { s with waiters := oldest :: others, settleRounds := s.settleRounds + 1, trace := trace }) := by
  obtain ⟨trace, dropped⟩ := exec_dropAbandoned known order "dropping abandoned waiter on"
  refine ⟨trace, ?_⟩
  simp only [settleOldest, exec_bind, exec_get, dropped, first, exec_modify, many, if_true]
  rfl

theorem exec_settleOldest (few : ((s.settleRounds + 1 : Nat) : Int) ≤ s.config.maxSettleRounds.floor) :
    ∃ trace, (settleOldest running).exec s = (.ok oldest.ticket,
      { s with waiters := others, settleRounds := s.settleRounds + 1, trace := trace }) := by
  obtain ⟨trace, dropped⟩ := exec_dropAbandoned known order "dropping abandoned waiter on"
  let s' : Session :=
    { s with waiters := oldest :: others, settleRounds := s.settleRounds + 1, trace := trace }
  have listed : oldest ∈ s.live := first ▸ List.mem_cons_self
  obtain ⟨trace', last⟩ := exec_dropWaiter (s := s') "settling" (known oldest (List.mem_filter.mp listed).1)
  have rest : (oldest :: others).filter (fun other => other.ticket ≠ oldest.ticket) = others := by
    have distinct : ((oldest :: others).map Waiter.ticket).Nodup :=
      first ▸ order.sublist (List.filter_sublist.map _)
    rw [List.filter_cons_of_neg (by simp)]
    refine List.filter_eq_self.mpr fun other member => decide_eq_true fun same => ?_
    exact (List.nodup_cons.mp distinct).1 (same ▸ List.mem_map_of_mem member)
  refine ⟨trace', ?_⟩
  simp only [settleOldest, exec_bind, exec_get, dropped, first, exec_modify, Int.not_lt.mpr few, if_false]
  rw [last, ← rest]
  rfl

end Settling

end Action

def Session.after (s : Session) (signals : List Signal) : Session := { s with signals := signals ++ s.signals }

def Action.Forwards {α : Type} (a : Action α) : Prop :=
  ∀ s signals, a.exec (s.after signals) = ((a.exec s).1, (a.exec s).2.after signals)

namespace Action

variable {α β : Type}

theorem Forwards.bind {a : Action α} {f : α → Action β} (first : a.Forwards) (next : ∀ x, (f x).Forwards) :
    (a >>= f).Forwards := by
  intro s signals
  rw [exec_bind, exec_bind, first s signals]
  cases a.exec s with
  | mk r s' => cases r with
    | ok x => exact next x s' signals
    | error e => rfl

theorem forwards_pure (a : α) : (pure a : Action α).Forwards := fun _ _ => rfl

theorem forwards_log (depth : Nat) (message : String) (values : List String) : (log depth message values).Forwards := by
  intro s signals
  simp only [log, exec_modify, Session.after]
  split <;> rfl

theorem forwards_inferVar (i : InferIndex) : (inferVar i).Forwards := by
  intro s signals
  rw [exec_inferVar, exec_inferVar]
  rfl

theorem forwards_modifyInferVar (i : InferIndex) (f : InferVar → InferVar) : (modifyInferVar i f).Forwards :=
  fun _ _ => rfl

theorem forwards_notify (i : InferIndex) : (notify i).Forwards := by
  intro s signals
  simp [notify, Session.after]

theorem Forwards.ite {c : Prop} [Decidable c] {a b : Action α} (yes : a.Forwards) (no : b.Forwards) :
    (if c then a else b).Forwards := by
  split
  · exact yes
  · exact no

theorem forwards_record (i : InferIndex) (f : InferVar → InferVar) :
    (do modifyInferVar i f; notify i; return true : Action Bool).Forwards :=
  (forwards_modifyInferVar i f).bind fun _ => (forwards_notify i).bind fun _ => forwards_pure _

theorem forwards_stir (i : Nat) (search : Search) : (stir i search).Forwards := by
  intro s signals
  simp [stir, Session.after]

end Action

theorem Change.forwards_record (c : Change) (v : InferVar) : (c.record v).Forwards := by
  cases c with
  | lower i b =>
    exact (Action.forwards_modifyInferVar i _).bind fun _ => (Action.forwards_log _ _ _).bind fun _ =>
      (Action.forwards_notify i).bind fun _ => Action.forwards_pure _
  | edge i j =>
    exact (Action.forwards_modifyInferVar i _).bind fun _ => (Action.forwards_inferVar j).bind fun _ =>
      (Action.forwards_modifyInferVar j _).bind fun _ => (Action.forwards_notify i).bind fun _ =>
        (Action.forwards_notify j).bind fun _ => Action.forwards_pure _
  | _ => exact Action.forwards_record _ _

theorem Change.forwards_action (c : Change) : c.action.Forwards := by
  intro s signals
  rw [c.exec_action, c.exec_action]
  have same : (s.after signals).inferVars = s.inferVars := rfl
  rw [same]
  cases s.inferVars[c.subject]? with
  | none => rfl
  | some v =>
    dsimp only
    split
    · rfl
    · exact c.forwards_record v s signals

theorem Deed.apply_after (d : Deed) (s : Session) (signals : List Signal) :
    d.apply (s.after signals) = (d.apply s).after signals := by
  have change (c : Change) : c.deed.apply (s.after signals) = (c.deed.apply s).after signals := by
    rw [← c.session_action, ← c.session_action, c.forwards_action]
  cases d with
  | log depth message values => exact congrArg Prod.snd (Action.forwards_log depth message values s signals)
  | report d | assign v t | name kind text span | speculate | abandon n | keep e => rfl
  | fresh env kind span =>
    let v : InferVar := { kind, span, home := env.home }
    exact congrArg Prod.snd (Action.forwards_log 0 s!"fresh {kind.name} inference variable"
      [toString s.inferVars.length, env.home.render] { s with inferVars := s.inferVars ++ [v] } signals)
  | lower i b => exact change (.lower i b)
  | upper i b => exact change (.upper i b)
  | edge i j => exact change (.edge i j)
  | fact i p o => exact change (.fact i p o)
  | exclude i p => exact change (.exclusion i p)
  | fallback i d =>
    refine congrArg Prod.snd ((Action.forwards_inferVar i).bind (fun v => ?_) s signals)
    exact Action.Forwards.ite (Action.forwards_modifyInferVar i _) (Action.forwards_pure _)
  | search branches =>
    simp only [apply, Action.startSearch]
    cases Search.start.spawn 0 branches <;> rfl
  | conclude i => exact congrArg Prod.snd (Action.forwards_stir i _ s signals)
  | release i node =>
    rw [apply, apply, Action.session_releaseBranch, Action.session_releaseBranch]
    change Option.elim ((s.searches[i]?.getD .start).release node) _ _ = _
    cases (s.searches[i]?.getD .start).release node with
    | none => rfl
    | some released => exact congrArg Prod.snd (Action.forwards_stir i released s signals)

namespace Machine

variable {m : Machine β}

def resumption (m : Machine β) (reason : Wake) (ticket : Nat) : Option (Event β) :=
  (m.suspended.lookup ticket).map fun fiber => .run (fiber.resume reason)

theorem lookup_filter_ne {κ : Type} {entries : List (Nat × κ)} {key other : Nat} (apart : key ≠ other) :
    (entries.filter fun entry => entry.1 ≠ other).lookup key = entries.lookup key := by
  induction entries with
  | nil => rfl
  | cons entry entries ih =>
    obtain ⟨k, value⟩ := entry
    by_cases same : k = other
    · subst same
      rw [List.filter_cons_of_neg (by simp), ih, List.lookup_cons, beq_false_of_ne apart]
    · rw [List.filter_cons_of_pos (by simp [same]), List.lookup_cons, List.lookup_cons, ih]

theorem wake_eq (ticket : Nat) (reason : Wake) : m.wake ticket reason = { m with
    queue := m.queue ++ (m.resumption reason ticket).toList
    suspended := m.suspended.filter fun entry => entry.1 ≠ ticket } := by
  unfold wake resumption
  split
  · rename_i found
    rw [found]
    rfl
  · rename_i none
    have all : m.suspended.filter (fun entry => entry.1 ≠ ticket) = m.suspended := by
      refine List.filter_eq_self.mpr fun entry member => decide_eq_true fun same => ?_
      exact bne_iff_ne.mp (List.lookup_eq_none_iff.mp none entry member) same.symm
    rw [none, all]
    simp

theorem settleOldest_eq : m.settleOldest = match (Action.settleOldest m.running).exec m.session with
    | (.ok ticket, session) => (.ok (), { m with session }.wake ticket .settled)
    | (.error e, session) => (.error e, { m with session }) := rfl

theorem deliver_wakes {tickets : List Nat} (distinct : tickets.Nodup) :
    (tickets.map (Signal.wake · .changed)).foldl deliver m = { m with
      queue := m.queue ++ tickets.filterMap (m.resumption .changed)
      suspended := m.suspended.filter fun entry => !tickets.contains entry.1 } := by
  induction tickets generalizing m with
  | nil => simp
  | cons ticket tickets ih =>
    obtain ⟨fresh, distinct⟩ := List.nodup_cons.mp distinct
    rw [List.map_cons, List.foldl_cons, ih distinct]
    simp only [deliver, wake_eq]
    congr 1
    · have same : tickets.filterMap (resumption { m with
          queue := m.queue ++ (m.resumption .changed ticket).toList
          suspended := m.suspended.filter fun entry => entry.1 ≠ ticket } .changed) =
          tickets.filterMap (m.resumption .changed) := by
        refine List.filterMap_congr fun other member => ?_
        have apart : other ≠ ticket := ne_of_mem_of_not_mem member fresh
        simp only [resumption, lookup_filter_ne apart]
      rw [same, List.append_assoc, List.filterMap_cons]
      cases m.resumption .changed ticket <;> rfl
    · rw [List.filter_filter]
      refine List.filter_congr fun entry _ => ?_
      by_cases same : entry.1 = ticket <;> simp [same]

theorem deliver_stirs (stirs : List Nat) :
    ∃ notices, (stirs.map .stirred).foldl deliver m = { m with queue := m.queue ++ notices } := by
  induction stirs generalizing m with
  | nil => exact ⟨[], by simp⟩
  | cons search stirs ih =>
    obtain ⟨notices, told⟩ := ih (m := m.stir search)
    refine ⟨(m.joins.reverse.filterMap fun entry => entry.2.notice? entry.1 search) ++ notices, ?_⟩
    rw [← List.append_assoc]
    exact told

theorem deliver_withSession (s : Session) (signals : List Signal) :
    signals.foldl deliver { m with session := s } = { signals.foldl deliver m with session := s } := by
  induction signals generalizing m with
  | nil => rfl
  | cons signal signals ih =>
    rw [List.foldl_cons, List.foldl_cons, ← ih]
    congr 1
    cases signal with
    | wake ticket reason =>
      simp only [deliver, wake]
      split <;> rfl
    | stirred search => rfl

theorem deliverSignals_eq : m.deliverSignals =
    { m.session.signals.foldl deliver m with session := { m.session with signals := [] } } := by
  rw [← deliver_withSession, deliverSignals]
  split
  · rename_i none
    have empty : m.session.signals = [] := List.isEmpty_iff.mp none
    obtain ⟨session, _⟩ := m
    obtain ⟨⟩ := session
    dsimp only at empty
    subst empty
    rfl
  · rfl

def alter (d : Deed) (m : Machine β) : Machine β := deliverSignals { m with session := d.apply m.session }

theorem deliverSignals_apply (d : Deed) (s : Session) :
    deliverSignals { m with session := d.apply s } = (deliverSignals { m with session := s }).alter d := by
  let silent : Session := { s with signals := [] }
  have pending : s = silent.after s.signals := by
    simp [silent, Session.after]
  have applied : d.apply s = (d.apply silent).after s.signals := by
    rw [← d.apply_after, ← pending]
  rw [alter, deliverSignals_eq, deliverSignals_eq, deliverSignals_eq, applied]
  simp only [Session.after, List.foldl_append, deliver_withSession]
  rfl

/-- A deed is done and the fibers it summons go on. -/
def summon (m : Machine β) (d : Deed) (vs : List InferIndex) : Machine β := { m with
  session := { d.apply m.session with signals := [] }
  queue := m.queue ++ ((m.session.summoned vs).map Waiter.ticket).filterMap (m.resumption .changed)
  suspended := m.suspended.filter fun entry => !((m.session.summoned vs).map Waiter.ticket).contains entry.1 }

/-- What a deed does to a machine without signals: the summoned fibers go on, then contests hear of
changed searches. -/
theorem alter_eq {d : Deed} {vs : List InferIndex} {stirs : List Nat} (silent : m.session.signals = [])
    (distinct : ((m.session.summoned vs).map Waiter.ticket).Nodup)
    (summons : m.session.Summons vs stirs (d.apply m.session)) :
    ∃ notices, (stirs = [] → notices = []) ∧
      m.alter d = { m.summon d vs with queue := (m.summon d vs).queue ++ notices } := by
  have sent : (d.apply m.session).signals =
      ((m.session.summoned vs).map Waiter.ticket).map (Signal.wake · .changed) ++ stirs.map .stirred := by
    simp [summons.signals, silent]
  have told : m.alter d = (stirs.map .stirred).foldl deliver (m.summon d vs) := by
    rw [alter, deliverSignals_eq, ← deliver_withSession]
    simp only [sent, List.foldl_append, deliver_wakes distinct]
    rfl
  cases stirs with
  | nil => exact ⟨[], fun _ => rfl, told.trans (by simp)⟩
  | cons search stirs =>
    obtain ⟨notices, stirred⟩ := deliver_stirs (m := m.summon d vs) (search :: stirs)
    exact ⟨notices, (fun none => absurd none (List.cons_ne_nil _ _)), told.trans stirred⟩

end Machine

end Ownership
