import Mathlib.Algebra.Order.Group.Multiset
import Mathlib.Tactic.Abel
import Ownership.Proofs.Contract

namespace Ownership

variable {β : Type}

inductive Live (β : Type) (d : Dest) where
  | running (code : Prog (d.Answer β))
  | parked (code : Wake → Prog (d.Answer β))
  | racing (join : Nat) (decisive : Bool) (code : Except Failure Bool → Prog (d.Answer β))
  | gathering (join : Nat) (s : Shape) (groups : List (Session → List (Goal s)))
    (code : Except Failure (List s.Value) → Prog (d.Answer β))
  | contesting (join : Nat) (code : Except Failure (Option Bool) → Prog (d.Answer β))

def Live.join? {d : Dest} : Live β d → Option Nat
  | running _ => none
  | parked _ => none
  | racing join _ _ => some join
  | gathering join _ _ _ => some join
  | contesting join _ => some join

def Dest.join? : Dest → Option Nat
  | .child _ join _ => some join
  | _ => none

/-- What ends here may leave debts: requirements, tasks and what the caller started. -/
def Dest.Owing : Dest → Prop
  | .child s _ _ => s = .unit
  | _ => True

def Fiber.live (f : Fiber β) : Sigma (Live β) := ⟨f.dest, .running f.code⟩

def Waiting.live (f : Waiting β Wake) : Sigma (Live β) := ⟨f.dest, .parked f.code⟩

def Join.live (join : Nat) : Join β → Sigma (Live β)
  | .race state _ f => ⟨f.dest, .racing join state.decisive f.code⟩
  | .enlist s groups _ _ f => ⟨f.dest, .gathering join s groups f.code⟩
  | .gather s _ f => ⟨f.dest, .gathering join s [] f.code⟩
  | .contest _ _ f => ⟨f.dest, .contesting join f.code⟩

def Join.sent (join : Nat) : Join β → List Dest
  | .enlist s _ _ early _ => early.map fun answer => .child s join answer.1
  | _ => []

theorem Join.sent_goes {join : Nat} {j : Join β} {d : Dest} (member : d ∈ (j.sent join : Multiset Dest)) :
    d.join? = some join := by
  cases j with
  | enlist s groups count early fiber =>
    obtain ⟨answer, _, rfl⟩ := List.mem_map.mp (Multiset.mem_coe.mp member)
    rfl
  | race | gather | contest => exact absurd member (Multiset.notMem_zero _)

theorem Gathering.complete?_eq_some {α : Type} {answers : List (Option α)} {vs : List α}
    (complete : complete? answers = some vs) : answers = vs.map some := by
  induction answers generalizing vs with
  | nil =>
    cases complete
    rfl
  | cons answer rest ih =>
    cases answer with
    | none => cases complete
    | some a =>
      simp only [complete?, Option.map_eq_some_iff] at complete
      obtain ⟨tail, complete, rfl⟩ := complete
      rw [ih complete, List.map_cons]

namespace Event

def lives : Event β → List (Sigma (Live β))
  | .run f => [f.live]
  | _ => []

def sent : Event β → List Dest
  | .arrive s join index _ => [.child s join index]
  | _ => []

end Event

def Event.livesOf (events : List (Event β)) : Multiset (Sigma (Live β)) :=
  (events.flatMap Event.lives : List _)

def Event.sentOf (events : List (Event β)) : Multiset Dest := (events.flatMap Event.sent : List _)

@[simp] theorem Event.livesOf_nil : livesOf ([] : List (Event β)) = 0 := rfl

@[simp] theorem Event.sentOf_nil : sentOf ([] : List (Event β)) = 0 := rfl

theorem Event.livesOf_cons (e : Event β) (q : List (Event β)) : livesOf (e :: q) = (e.lives : List _) + livesOf q := by
  simp only [livesOf, List.flatMap_cons, ← Multiset.coe_add]

theorem Event.sentOf_cons (e : Event β) (q : List (Event β)) : sentOf (e :: q) = (e.sent : List _) + sentOf q := by
  simp only [sentOf, List.flatMap_cons, ← Multiset.coe_add]

theorem Event.livesOf_append (events queue : List (Event β)) :
    livesOf (events ++ queue) = livesOf events + livesOf queue := by
  simp only [livesOf, List.flatMap_append, ← Multiset.coe_add]

theorem Event.sentOf_append (events queue : List (Event β)) :
    sentOf (events ++ queue) = sentOf events + sentOf queue := by
  simp only [sentOf, List.flatMap_append, ← Multiset.coe_add]

def Event.destsOf (events : List (Event β)) : Multiset Dest :=
  (livesOf events).map Sigma.fst + sentOf events

section Notices

variable {events : List (Event β)} (notices : ∀ e ∈ events, ∃ join, e = .notice join)

include notices

theorem Event.livesOf_notices : livesOf events = 0 := by
  refine Multiset.eq_zero_of_forall_notMem fun t member => ?_
  obtain ⟨e, sent, member⟩ := List.mem_flatMap.mp (Multiset.mem_coe.mp member)
  obtain ⟨join, rfl⟩ := notices e sent
  exact List.not_mem_nil member

end Notices

theorem Event.destsOf_append (events queue : List (Event β)) :
    destsOf (events ++ queue) = destsOf events + destsOf queue := by
  simp only [destsOf, livesOf_append, sentOf_append, Multiset.map_add]
  abel

def Event.dests : Event β → Multiset Dest
  | .run f => {f.dest}
  | .arrive s join index _ => {.child s join index}
  | _ => 0

theorem Event.destsOf_cons (e : Event β) (q : List (Event β)) : destsOf (e :: q) = e.dests + destsOf q := by
  simp only [destsOf, livesOf_cons, sentOf_cons, Multiset.map_add]
  cases e <;> simp [lives, sent, dests, Fiber.live]

@[simp] theorem Event.destsOf_nil : destsOf ([] : List (Event β)) = 0 := rfl

namespace Machine

def lives (m : Machine β) : Multiset (Sigma (Live β)) :=
  Event.livesOf m.queue + (m.suspended.map fun entry => entry.2.live : List _)
    + (m.joins.map fun entry => entry.2.live entry.1 : List _)

def sent (m : Machine β) : Multiset Dest :=
  Event.sentOf m.queue + (m.joins.flatMap fun entry => entry.2.sent entry.1 : List _)

def dests (m : Machine β) : Multiset Dest := m.lives.map Sigma.fst + m.sent

def holding (m : Machine β) (e : Event β) : Machine β := { m with queue := e :: m.queue }

section Queue

variable (m : Machine β) (e : Event β) (q : List (Event β))

theorem lives_append : { m with queue := q ++ m.queue }.lives = Event.livesOf q + m.lives := by
  simp only [lives, Event.livesOf_append]
  abel

theorem sent_append : { m with queue := q ++ m.queue }.sent = Event.sentOf q + m.sent := by
  simp only [sent, Event.sentOf_append]
  abel

theorem dests_append : { m with queue := q ++ m.queue }.dests = Event.destsOf q + m.dests := by
  simp only [dests, Event.destsOf, lives_append m q, sent_append m q, Multiset.map_add]
  abel

theorem lives_reorder {q q' : List (Event β)} (perm : q.Perm q') :
    { m with queue := q }.lives = { m with queue := q' }.lives := by
  simp only [lives, Event.livesOf, Multiset.coe_eq_coe.mpr (perm.flatMap_right _)]

theorem dests_reorder {q q' : List (Event β)} (perm : q.Perm q') :
    { m with queue := q }.dests = { m with queue := q' }.dests := by
  simp only [dests, lives_reorder m perm, sent, Event.sentOf,
    Multiset.coe_eq_coe.mpr (perm.flatMap_right _)]

@[simp] theorem lives_holding : (m.holding e).lives = (e.lives : List _) + m.lives := by
  have h := lives_append m [e]
  rwa [Event.livesOf_cons, Event.livesOf_nil, add_zero] at h

@[simp] theorem dests_holding : (m.holding e).dests = e.dests + m.dests := by
  have h := dests_append m [e]
  rwa [Event.destsOf_cons, Event.destsOf_nil, add_zero] at h

@[simp] theorem lives_enqueue : (m.enqueue e).lives = (e.lives : List _) + m.lives := by
  rw [← lives_holding]
  exact lives_reorder m List.perm_append_comm

@[simp] theorem dests_enqueue : (m.enqueue e).dests = e.dests + m.dests := by
  rw [← dests_holding]
  exact dests_reorder m List.perm_append_comm

variable {m e}

theorem mem_dests_of_queued (queued : e ∈ m.queue) {d : Dest} (brings : d ∈ e.dests) : d ∈ m.dests := by
  obtain ⟨before, after, split⟩ := List.append_of_mem queued
  have perm : m.queue.Perm (e :: (before ++ after)) := split ▸ List.perm_middle
  have dests : m.dests = e.dests + { m with queue := before ++ after }.dests := by
    rw [← dests_holding]
    exact dests_reorder m perm
  rw [dests]
  exact Multiset.mem_add.mpr (.inl brings)

end Queue

theorem lives_openJoin (m : Machine β) (j : Join β) (events : List (Event β)) :
    (m.openJoin j fun _ => events).lives = j.live m.nextJoin ::ₘ (Event.livesOf events + m.lives) := by
  simp only [openJoin, lives, Event.livesOf_append, List.map_cons, ← Multiset.cons_coe,
    Multiset.add_cons, add_assoc]

theorem dests_openJoin (m : Machine β) {j : Join β} (events : List (Event β)) (sent : j.sent m.nextJoin = []) :
    (m.openJoin j fun _ => events).dests = (j.live m.nextJoin).1 ::ₘ (Event.destsOf events + m.dests) := by
  have brought : (m.openJoin j fun _ => events).sent = Event.sentOf events + m.sent := by
    simp only [openJoin, Machine.sent, Event.sentOf_append, List.flatMap_cons, sent,
      List.nil_append, add_assoc]
  rw [dests, lives_openJoin, brought, Multiset.map_cons, Multiset.cons_add, Event.destsOf, dests,
    Multiset.map_add]
  congr 1
  abel

theorem notice_of_stir {m : Machine β} {search : Nat} {e : Event β}
    (sent : e ∈ m.joins.reverse.filterMap fun (join, j) => j.notice? join search) : ∃ join, e = .notice join := by
  obtain ⟨⟨join, j⟩, _, notice⟩ := List.mem_filterMap.mp sent
  cases j with
  | contest s state fiber =>
    simp only [Join.notice?] at notice
    split at notice
    · exact ⟨join, (Option.some.inj notice).symm⟩
    · cases notice
  | race | enlist | gather => cases notice

section Joins

variable {m : Machine β} {join : Nat} {j : Join β}

theorem lookup_split {κ : Type} {entries : List (Nat × κ)} {key : Nat} {value : κ}
    (found : entries.lookup key = some value) (distinct : (entries.map Prod.fst).Nodup) :
    ∃ before after, entries = before ++ (key, value) :: after ∧ ∀ entry ∈ before ++ after, entry.1 ≠ key := by
  obtain ⟨before, after, rfl, _⟩ := List.lookup_eq_some_iff.mp found
  refine ⟨before, after, rfl, fun entry member same => ?_⟩
  have inside : entry.1 ∈ (before ++ after).map Prod.fst := List.mem_map_of_mem member
  rw [List.map_append, List.map_cons, List.nodup_middle, List.nodup_cons, ← List.map_append]
    at distinct
  exact distinct.1 (same ▸ inside)

theorem lookup_of_mem {κ : Type} {entries : List (Nat × κ)} {entry : Nat × κ} (distinct : (entries.map Prod.fst).Nodup)
    (member : entry ∈ entries) : entries.lookup entry.1 = some entry.2 := by
  obtain ⟨before, after, rfl⟩ := List.append_of_mem member
  rw [List.map_append, List.map_cons, List.nodup_middle, List.nodup_cons] at distinct
  refine List.lookup_eq_some_iff.mpr ⟨before, after, rfl, fun other earlier => ?_⟩
  refine bne_iff_ne.mpr fun same => distinct.1 ?_
  rw [same]
  exact List.mem_append_left _ (List.mem_map_of_mem earlier)

theorem joins_split (found : m.joins.lookup join = some j) (keys : (m.joins.map Prod.fst).Nodup) :
    ∃ before after, m.joins = before ++ (join, j) :: after ∧
      (m.dropJoin join).joins = before ++ after ∧
      (∀ j', (m.putJoin join j').joins = before ++ (join, j') :: after) ∧
      ∀ entry ∈ before ++ after, entry.1 ≠ join := by
  obtain ⟨before, after, split, others⟩ := lookup_split found keys
  have filtered {entries : List (Nat × Join β)} (h : ∀ entry ∈ entries, entry.1 ≠ join) :
      entries.filter (fun entry => entry.1 ≠ join) = entries :=
    List.filter_eq_self.mpr fun entry member => decide_eq_true (h entry member)
  have mapped {j' : Join β} {entries : List (Nat × Join β)}
      (h : ∀ entry ∈ entries, entry.1 ≠ join) :
      entries.map (fun entry => if entry.1 = join then (join, j') else entry) = entries :=
    (List.map_congr_left fun entry member => if_neg (h entry member)).trans (List.map_id' entries)
  have first : ∀ entry ∈ before, entry.1 ≠ join :=
    fun entry member => others entry (List.mem_append_left _ member)
  have last : ∀ entry ∈ after, entry.1 ≠ join :=
    fun entry member => others entry (List.mem_append_right _ member)
  refine ⟨before, after, split, ?_, fun j' => ?_, others⟩
  · simp only [dropJoin, split, List.filter_append, List.filter_cons]
    rw [filtered first, filtered last]
    simp
  · simp only [putJoin, split, List.map_append, List.map_cons]
    rw [mapped first, mapped last]
    simp

variable (found : m.joins.lookup join = some j) (keys : (m.joins.map Prod.fst).Nodup)
include found keys

theorem putJoin_self : m.putJoin join j = m := by
  obtain ⟨before, after, split, _, put, _⟩ := joins_split found keys
  have joins : (m.putJoin join j).joins = m.joins := (put j).trans split.symm
  exact congrArg (fun joins => { m with joins := joins }) joins

theorem lives_put (j' : Join β) : (m.putJoin join j').lives = j'.live join ::ₘ (m.dropJoin join).lives := by
  obtain ⟨before, after, _, dropped, put, _⟩ := joins_split found keys
  simp only [lives, put j', dropped, List.map_append, List.map_cons, ← Multiset.coe_add,
    ← Multiset.cons_coe, Multiset.add_cons]
  rfl

theorem lives_split : m.lives = j.live join ::ₘ (m.dropJoin join).lives := by
  rw [← lives_put found keys, putJoin_self found keys]

theorem dests_put (j' : Join β) : (m.putJoin join j').dests =
    (j'.live join).1 ::ₘ ((j'.sent join : List _) + (m.dropJoin join).dests) := by
  obtain ⟨before, after, _, dropped, put, _⟩ := joins_split found keys
  have sent : (m.putJoin join j').sent = (j'.sent join : List _) + (m.dropJoin join).sent := by
    simp only [sent, put j', dropped, List.flatMap_append, List.flatMap_cons, ← Multiset.coe_add]
    change Event.sentOf m.queue + _ = _ + (Event.sentOf m.queue + _)
    abel
  rw [dests, lives_put found keys, sent, dests, Multiset.map_cons, Multiset.cons_add]
  congr 1
  abel

theorem dests_split : m.dests = (j.live join).1 ::ₘ ((j.sent join : List _) + (m.dropJoin join).dests) := by
  rw [← dests_put found keys, putJoin_self found keys]

end Joins

end Machine

end Ownership
