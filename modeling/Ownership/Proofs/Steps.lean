import Ownership.Proofs.Requests
import Ownership.Proofs.Scene

namespace Ownership

variable {β : Type}

def Event.notes : Event β → List Answer
  | .run ⟨_, _, .note g r _⟩ => [⟨g, r⟩]
  | _ => []

def Prog.Announces {α : Type} (heard : Wake → Prop) (s : Session) : Prog α → Prop
  | .update f _ => ∀ ticket reason, .wake ticket reason ∈ (f s).signals → heard reason
  | _ => True

def Event.Announces (heard : Wake → Prop) (s : Session) : Event β → Prop
  | .run f => f.code.Announces heard s
  | _ => True

theorem Event.announces_any (e : Event β) (s : Session) : e.Announces (fun _ => True) s := by
  cases e with
  | run f =>
    obtain ⟨d, waits, code⟩ := f
    cases code with
    | update f k => exact fun _ _ _ => trivial
    | _ => trivial
  | _ => trivial

def Event.weight : Event β → Nat
  | .run _ => 0
  | .arrive .. => 2
  | .enlist _ => 1
  | .expect _ => 2
  | .heed _ => 1
  | .notice _ => 2
  | .offer .. => 1

def Join.weight : Join β → Nat
  | .enlist _ _ _ early _ => 2 * early.length
  | _ => 0

namespace Machine

open Relation (ReflGen ReflTransGen TransGen)

def weight (m : Machine β) : Nat :=
  (m.queue.map Event.weight).sum + (m.joins.map fun entry => entry.2.weight).sum

variable {rules : Rules} {heard : Wake → Prop} {slots : Nat → Nat} {roll roll' : Roll}
variable {m m' : Machine β} {w w' : Moment} {f f' : Fiber β} {join : Nat}

/-- Fibers have gone on, or the turn only brought an event closer to its end. -/
def Handled (rules : Rules) (heard : Wake → Prop) (slots : Nat → Nat) (roll : Roll) (m : Machine β)
    (w : Moment) (m' : Machine β) (w' : Moment) : Prop :=
  ∃ roll', m'.Books slots roll' ∧
    (TransGen (Scene.Shift rules heard) ⟨roll, m.lives, w⟩ ⟨roll', m'.lives, w'⟩ ∨
      Scene.mk roll' m'.lives w' = ⟨roll, m.lives, w⟩ ∧ m'.weight < m.weight)

theorem lives_run : (m.holding (.run f)).lives = f.live ::ₘ m.lives := lives_holding m _

theorem dests_run : (m.holding (.run f)).dests = f.dest ::ₘ m.dests := dests_holding m _

theorem joinsOf_lives (m : Machine β) : joinsOf m.lives = (m.joins.map Prod.fst : List Nat) := by
  have queued : (m.queue.flatMap Event.lives).filterMap (fun t => t.2.join?) = [] := by
    refine List.filterMap_eq_nil_iff.mpr fun t member => ?_
    obtain ⟨e, _, member⟩ := List.mem_flatMap.mp member
    cases e with
    | run f => rw [List.mem_singleton.mp member]; rfl
    | _ => cases member
  have parked : (m.suspended.map fun entry => entry.2.live).filterMap (fun t => t.2.join?) = [] := by
    refine List.filterMap_eq_nil_iff.mpr fun t member => ?_
    obtain ⟨_, _, rfl⟩ := List.mem_map.mp member
    rfl
  have joined : (m.joins.map fun entry => entry.2.live entry.1).filterMap (fun t => t.2.join?) = m.joins.map Prod.fst := by
    rw [List.filterMap_map, ← List.filterMap_eq_map]
    refine List.filterMap_congr fun entry _ => ?_
    obtain ⟨join, j⟩ := entry
    cases j <;> rfl
  rw [joinsOf, lives, Event.livesOf, Multiset.coe_add, Multiset.coe_add, Multiset.filterMap_coe, List.filterMap_append,
    List.filterMap_append, queued, parked, joined]
  rfl

theorem joined_of_live {t : Sigma (Live β)} (alive : t ∈ m.lives) (waits : t.2.join? = some join) :
    ∃ entry ∈ m.joins, entry.1 = join := by
  have member : join ∈ joinsOf m.lives := (Multiset.mem_filterMap _ _).mpr ⟨t, alive, waits⟩
  rw [joinsOf_lives] at member
  exact List.mem_map.mp member

section Shifting

variable {t : Sigma (Live β)} {new : List (Sigma (Live β))} {rest : Multiset (Sigma (Live β))}

theorem shift_of_next {w'' : Moment} (keys : (m.joins.map Prod.fst).Nodup)
    (next : Live.Next rules heard roll w t new roll' w') (alike : w'.Alike w'') (before : m.lives = t ::ₘ rest)
    (after : m'.lives = new + rest) (grows : ∀ join, roll.Extends join roll') :
    Scene.Shift rules heard ⟨roll, m.lives, w⟩ ⟨roll', m'.lives, w''⟩ := by
  have apart : (joinsOf m.lives).Nodup := joinsOf_lives m ▸ keys
  rw [before, after]
  exact .mk next alike (fun _ _ => .of_eq fun _ _ => (grows _).asked) (fun _ _ join _ => grows join) (before ▸ apart)

theorem handled_of_next {w'' : Moment} (keys : (m.joins.map Prod.fst).Nodup) (books : m'.Books slots roll')
    (next : Live.Next rules heard roll w t new roll' w') (alike : w'.Alike w'') (before : m.lives = t ::ₘ rest)
    (after : m'.lives = new + rest) (grows : ∀ join, roll.Extends join roll') : Handled rules heard slots roll m w m' w'' :=
  ⟨roll', books, .inl (.single (shift_of_next keys next alike before after grows))⟩

end Shifting

section Continuing

variable (books : (m.holding (.run f)).Books slots roll) (dest : f'.dest = f.dest)
include books dest

theorem Books.proceed : (m.proceed f').Books slots roll := by
  refine books.transfer rfl rfl ?_ rfl rfl books.tickets fun e plain => ?_
  · have new : (m.proceed f').dests = f'.dest ::ₘ m.dests := dests_run
    rw [dests_run, new, dest]
  · have skip (f : Fiber β) : e ≠ .run f := fun same => plain (same ▸ trivial)
    exact ⟨fun h => List.mem_cons_of_mem _ ((List.mem_cons.mp h).resolve_left (skip _)),
      fun h => List.mem_cons_of_mem _ ((List.mem_cons.mp h).resolve_left (skip _))⟩

theorem handled_proceed (next : Live.Next rules heard roll w f.live [f'.live] roll w') :
    Handled rules heard slots roll (m.holding (.run f)) w (m.proceed f') w' :=
  handled_of_next books.keys (books.proceed dest) next (.refl w') lives_run lives_run fun _ => .refl

theorem handled_requeue (next : Live.Next rules heard roll w f.live [f'.live] roll w') :
    Handled rules heard slots roll (m.holding (.run f)) w (m.enqueue (.run f')) w' :=
  handled_of_next books.keys ((books.proceed dest).reorder List.perm_append_comm.symm) next (.refl w') lives_run
    (lives_enqueue m _) fun _ => .refl

end Continuing

section Signals

theorem suspended_split {ticket : Nat} {fiber : Waiting β Wake}
    (found : m.suspended.lookup ticket = some fiber) (tickets : (m.suspended.map Prod.fst).Nodup) :
    ∃ before after, m.suspended = before ++ (ticket, fiber) :: after ∧
      m.suspended.filter (fun entry => entry.1 ≠ ticket) = before ++ after := by
  obtain ⟨before, after, split, others⟩ := lookup_split found tickets
  refine ⟨before, after, split, ?_⟩
  rw [split, List.filter_append, List.filter_cons_of_neg (by simp), ← List.filter_append]
  exact List.filter_eq_self.mpr fun entry member => decide_eq_true (others entry member)

theorem wake_cases (m : Machine β) (ticket : Nat) (reason : Wake) (tickets : (m.suspended.map Prod.fst).Nodup) :
    m.wake ticket reason = m ∨ ∃ fiber rest, rest.Sublist m.suspended ∧
      m.lives = Waiting.live fiber ::ₘ { m with suspended := rest }.lives ∧
      m.wake ticket reason = { m with suspended := rest }.enqueue (.run (fiber.resume reason)) := by
  unfold Machine.wake
  split
  · rename_i fiber found
    obtain ⟨before, after, split, filtered⟩ := suspended_split found tickets
    refine .inr ⟨fiber, before ++ after, ?_, ?_, ?_⟩
    · rw [split]
      exact (List.sublist_cons_self _ _).append_left _
    · simp only [Machine.lives, split, List.map_append, List.map_cons, ← Multiset.coe_add,
        ← Multiset.cons_coe, Multiset.add_cons, Multiset.cons_add]
    · rw [filtered]
      rfl
  · exact .inl rfl

theorem Books.wake (books : m.Books slots roll) (w : Moment) (ticket : Nat) {reason : Wake} (told : heard reason) :
    (m.wake ticket reason).Books slots roll ∧
      ReflGen (Scene.Shift rules heard) ⟨roll, m.lives, w⟩ ⟨roll, (m.wake ticket reason).lives, w⟩ := by
  rcases wake_cases m ticket reason books.tickets.1 with same | ⟨fiber, rest, fewer, old, woken⟩
  · rw [same]
    exact ⟨books, .refl⟩
  · rw [woken]
    refine ⟨?_, .single (shift_of_next books.keys (.wake told) (.refl w) old (lives_enqueue { m with suspended := rest } _)
      fun _ => .refl)⟩
    refine books.transfer rfl rfl ?_ rfl rfl ⟨books.tickets.1.sublist (fewer.map _),
      fun entry member => books.tickets.2 entry (fewer.subset member)⟩ fun e plain => ?_
    · have oldDests : m.dests = fiber.dest ::ₘ { m with suspended := rest }.dests := by
        rw [Machine.dests, old, Multiset.map_cons, Multiset.cons_add]
        rfl
      rw [oldDests]
      exact dests_enqueue { m with suspended := rest } (.run (fiber.resume reason))
    · have skip : e ≠ .run (fiber.resume reason) := fun same => plain (same ▸ trivial)
      exact ⟨fun h => (List.mem_append.mp h).resolve_right (skip ∘ List.mem_singleton.mp),
        List.mem_append_left _⟩

theorem Books.stir (search : Nat) (books : m.Books slots roll) :
    (m.stir search).Books slots roll ∧ (m.stir search).lives = m.lives := by
  have lives : (m.stir search).lives = m.lives := by
    rw [Machine.stir, lives_reorder m List.perm_append_comm, lives_append,
      Event.livesOf_notices fun _ => notice_of_stir, zero_add]
  refine ⟨books.frame rfl books.tickets rfl rfl fun _ => sameAt_enqueue fun e sent => ?_, lives⟩
  obtain ⟨join, rfl⟩ := notice_of_stir sent
  trivial

theorem Books.deliver {signals : List Signal} (books : m.Books slots roll) (w : Moment)
    (told : ∀ ticket reason, .wake ticket reason ∈ signals → heard reason) :
    (signals.foldl Machine.deliver m).Books slots roll ∧
      ReflTransGen (Scene.Shift rules heard) ⟨roll, m.lives, w⟩
        ⟨roll, (signals.foldl Machine.deliver m).lives, w⟩ := by
  induction signals generalizing m with
  | nil => exact ⟨books, .refl⟩
  | cons signal signals ih =>
    rw [List.foldl_cons]
    have others : ∀ ticket reason, .wake ticket reason ∈ signals → heard reason :=
      fun ticket reason member => told ticket reason (List.mem_cons_of_mem _ member)
    cases signal with
    | wake ticket reason =>
      obtain ⟨books, first⟩ := books.wake w ticket (told ticket reason List.mem_cons_self)
      exact ⟨(ih books others).1, first.to_reflTransGen.trans (ih books others).2⟩
    | stirred search =>
      obtain ⟨books, same⟩ := books.stir search
      refine ⟨(ih books others).1, ?_⟩
      rw [← same]
      exact (ih books others).2

theorem session_deliver {signals : List Signal} : (signals.foldl Machine.deliver m).session = m.session := by
  induction signals generalizing m with
  | nil => rfl
  | cons signal signals ih =>
    rw [List.foldl_cons, ih]
    cases signal with
    | wake ticket reason =>
      simp only [Machine.deliver, Machine.wake]
      split <;> rfl
    | stirred search => rfl

variable {d : Dest} {waits : Nat} {answers : List Answer}

theorem handled_update {change : Session → Session} {k : Session → Prog (d.Answer β)}
    (books : (m.holding (.run ⟨d, waits, .update change k⟩)).Books slots roll)
    (told : ∀ ticket reason, .wake ticket reason ∈ (change m.session).signals → heard reason) :
    Handled rules heard slots roll (m.holding (.run ⟨d, waits, .update change k⟩)) ⟨m.session, answers⟩
      (m.execute rules d waits (.update change k))
      ⟨(m.execute rules d waits (.update change k)).session, answers⟩ := by
  let next : Machine β := { m with session := change m.session }.proceed ⟨d, waits, k m.session⟩
  have executed : m.execute rules d waits (.update change k) = next.deliverSignals := rfl
  have step : Live.Next rules heard roll ⟨m.session, answers⟩ (Fiber.live ⟨d, waits, .update change k⟩)
      [Fiber.live ⟨d, waits, k m.session⟩] roll ⟨change m.session, answers⟩ := .update
  have proceeds : (m.proceed ⟨d, waits, k m.session⟩).Books slots roll := books.proceed rfl
  have after (s : Session) : { next with session := s }.Books slots roll :=
    proceeds.transfer rfl rfl rfl rfl rfl proceeds.tickets fun _ _ => Iff.rfl
  rw [executed]
  unfold Machine.deliverSignals
  dsimp only
  split
  · exact handled_of_next books.keys (after _) step (.refl _) lives_run lives_run fun _ => .refl
  · let cleared : Session := { change m.session with signals := [] }
    obtain ⟨delivered, wakes⟩ := (after cleared).deliver ⟨cleared, answers⟩ told
    rw [session_deliver]
    refine ⟨roll, delivered, .inl (.head' ?_ wakes)⟩
    exact shift_of_next books.keys step ⟨⟨_, _, _, _, rfl⟩, rfl⟩ lives_run lives_run fun _ => .refl

theorem handled_park {i : InferIndex} {speculation : Option Nat} {enough : InferVar → Bool} {k : Wake → Prog (d.Answer β)}
    (books : (m.holding (.run ⟨d, waits, .park i speculation enough k⟩)).Books slots roll) :
    Handled rules heard slots roll (m.holding (.run ⟨d, waits, .park i speculation enough k⟩))
      ⟨m.session, answers⟩ (m.execute rules d waits (.park i speculation enough k))
      ⟨(m.execute rules d waits (.park i speculation enough k)).session, answers⟩ := by
  have lives : (m.execute rules d waits (.park i speculation enough k)).lives =
      Sigma.mk d (Live.parked (Machine.woken i speculation enough k)) ::ₘ m.lives := by
    simp only [Machine.execute, Machine.lives, List.map_append, List.map_cons, List.map_nil,
      ← Multiset.coe_add, Multiset.coe_singleton, ← Multiset.singleton_add, Waiting.live]
    abel
  refine handled_of_next books.keys ?_ .park ⟨⟨_, _, _, _, rfl⟩, rfl⟩ lives_run lives fun _ => .refl
  refine books.transfer rfl rfl ?_ rfl rfl ⟨?_, ?_⟩ fun e plain => ?_
  · rw [Machine.dests, lives, Multiset.map_cons, Multiset.cons_add, dests_run]
    rfl
  · have fresh : m.nextTicket ∉ m.suspended.map Prod.fst := fun member => by
      obtain ⟨entry, member, same⟩ := List.mem_map.mp member
      exact Nat.ne_of_lt (books.tickets.2 entry member) same
    have tickets : (m.suspended.map Prod.fst).Nodup := books.tickets.1
    simp only [Machine.execute, List.map_append, List.map_cons, List.map_nil]
    exact List.nodup_append_comm.mp (List.nodup_cons.mpr ⟨fresh, tickets⟩)
  · intro entry member
    rcases List.mem_append.mp member with member | member
    · exact Nat.lt_succ_of_lt (books.tickets.2 entry member)
    · rw [List.mem_singleton.mp member]
      exact Nat.lt_succ_self _
  · have skip : e ≠ .run ⟨d, waits, .park i speculation enough k⟩ :=
      fun same => plain (same ▸ trivial)
    exact ⟨List.mem_cons_of_mem _, fun h => (List.mem_cons.mp h).resolve_left skip⟩

end Signals

section Ending

variable {waits : Nat} {answers : List Answer}

theorem Books.drop {running : Nat} {results : List (Nat × Except Failure β)}
    (books : (m.holding (.run f)).Books slots roll) (alone : f.dest.join? = none)
    (tally : { m with running := running, results := results }.Tallied slots) :
    { m with running := running, results := results }.Books slots roll where
  keys := books.keys
  tickets := books.tickets
  tally := tally
  booked join := by
    have same : SameAt (some join) (m.holding (.run f)) m :=
      sameAt_apart fun goes => nomatch alone.symm.trans goes
    exact (books.booked join).frame ⟨same.dests, same.nextJoin, same.entry, same.keeps, same.brings⟩ .refl

theorem handled_drop {d : Dest} {r : Except Failure (d.Answer β)} {w'' : Moment}
    (books : (m.holding (.run ⟨d, waits, .done r⟩)).Books slots roll) (dropped : m'.Books slots roll)
    (alone : roll.hearing d r = roll) (alike : w.Alike w'') (lives : m'.lives = m.lives) :
    Handled rules heard slots roll (m.holding (.run ⟨d, waits, .done r⟩)) w m' w'' := by
  refine handled_of_next books.keys dropped (t := ⟨d, .running (.done r)⟩) ?_ alike lives_run
    (lives.trans (zero_add _).symm) fun _ => .refl
  have ends : Live.Next rules heard roll w ⟨d, .running (.done r)⟩ [] (roll.hearing d r) w := .finish
  rwa [alone] at ends

theorem goingTo_run (alone : f.dest.join? = none) :
    goingTo none (m.holding (.run f)).dests = f.dest ::ₘ goingTo none m.dests := by
  rw [dests_holding, goingTo_add, goingTo_eq_self fun d member => Multiset.mem_singleton.mp member ▸ alone]
  rfl

theorem handled_root {slot : Nat} {r : Except Failure β}
    (books : (m.holding (.run ⟨.root slot, waits, .done r⟩)).Books slots roll) :
    Handled rules heard slots roll (m.holding (.run ⟨.root slot, waits, .done r⟩)) w
      { m with results := (slot, r) :: m.results } w := by
  refine handled_drop books (books.drop rfl ⟨?_, fun other => ?_⟩) rfl (.refl w) rfl
  · have tasks : m.running = _ := books.tally.tasks
    rw [goingTo_run rfl, Multiset.countP_cons] at tasks
    exact tasks
  · have roots := books.tally.roots other
    rw [goingTo_run rfl, Multiset.count_cons] at roots
    rw [← roots, List.map_cons, List.count_cons]
    simp only [beq_iff_eq, Dest.root.injEq, @eq_comm _ other]
    change _ = _ + (m.results.map Prod.fst).count other
    change (goingTo none m.dests).count _ + _ = _
    omega

theorem handled_task {description : String} {r : Except Failure Unit}
    (books : (m.holding (.run ⟨.task description, waits, .done r⟩)).Books slots roll) :
    Handled rules heard slots roll (m.holding (.run ⟨.task description, waits, .done r⟩))
      ⟨m.session, answers⟩ (m.finish (.task description) r)
      ⟨(m.finish (.task description) r).session, answers⟩ := by
  have dropped : { m with running := m.running - 1, results := m.results }.Books slots roll := by
    refine books.drop rfl ⟨?_, fun slot => ?_⟩
    · have tasks : m.running = _ := books.tally.tasks
      rw [goingTo_run rfl] at tasks
      have one : m.running = (goingTo none m.dests).countP (fun d => d.isTask) + 1 :=
        tasks.trans (Multiset.countP_cons_of_pos _ rfl)
      change m.running - 1 = (goingTo none m.dests).countP _
      rw [one, Nat.add_sub_cancel]
    · have roots := books.tally.roots slot
      have apart : Dest.root slot ≠ .task description := nofun
      rw [goingTo_run rfl, Multiset.count_cons_of_ne apart] at roots
      exact roots
  have after (s : Session) (failures : List Failure) :
      { m with running := m.running - 1, session := s, failures := failures }.Books slots roll :=
    dropped.transfer rfl rfl rfl rfl rfl dropped.tickets fun _ _ => Iff.rfl
  match r with
  | .ok () => exact handled_drop books dropped rfl (.refl _) rfl
  | .error (.reported report) =>
    refine handled_drop books (after _ _) rfl ⟨?_, rfl⟩ rfl
    exact (Action.exec_log 0 (description ++ " failed:") [report.message] m.session).2
  | .error (.violated v) => exact handled_drop books (after _ _) rfl (.refl _) rfl

theorem handled_child {s : Shape} {index : Nat} {r : Except Failure s.Value}
    (books : (m.holding (.run ⟨.child s join index, waits, .done r⟩)).Books slots roll) :
    Handled rules heard slots roll (m.holding (.run ⟨.child s join index, waits, .done r⟩)) w
      (m.handIn s join index r) w := by
  have booked := books.booked join
  have grows {other : Nat} : roll.Extends other (roll.telling join index r) := Roll.extends_telling r
  have released (o : Option Nat) (other : o ≠ some join) :
      SameAt o (m.holding (.run ⟨.child s join index, waits, .done r⟩)) m := sameAt_apart fun same => other same.symm
  have told : (roll.telling join index r).Told join s index r := by
    rw [Roll.Told, Roll.told_telling]
    exact List.mem_cons_self
  unfold Machine.handIn
  split
  · rename_i s' groups count early fiber found
    have child : Dest.child s join index ∈ (m.holding (.run ⟨.child s join index, waits, .done r⟩)).dests := by
      rw [dests_run]
      exact Multiset.mem_cons_self _ _
    obtain ⟨opened, shape⟩ := booked.children s index child
    obtain ⟨known, length, answers, waiting⟩ := booked.entry _ found
    cases shape.symm.trans known
    rw [dif_pos rfl]
    let j' : Join β := .enlist s groups count (early ++ [(index, r)]) fiber
    have dests : (m.putJoin join j').dests = (m.holding (.run ⟨.child s join index, waits, .done r⟩)).dests := by
      rw [dests_put found books.keys, dests_run, dests_split found books.keys]
      simp only [j', Join.sent, Join.live, List.map_append, List.map_cons, List.map_nil,
        ← Multiset.coe_add, Multiset.coe_singleton, ← Multiset.singleton_add]
      abel
    refine handled_of_next books.keys (books.change join ((keys_put j').symm ▸ books.keys) books.tickets rfl rfl
      (fun o other => (released o other).trans (sameAt_put found books.keys other rfl)) (fun _ _ => grows) ?_) .finish
      (.refl w) lives_run ?_ fun _ => grows
    · have due : ∃ e ∈ m.queue, e = .enlist join := booked.needed found trivial nofun
      have older := booked.older _ found
      refine booked_of_lookup (lookup_put found books.keys j') opened older ?_ ?_ (fun _ => due) ?_ nofun
      · rw [dests]
        exact fun s index member => (booked.children s index member).2
      · rw [dests]
        refine ⟨known, length, fun answer member => ?_, waiting⟩
        rcases List.mem_append.mp member with member | member
        · exact grows.told (answers answer member)
        · rw [List.mem_singleton.mp member]
          exact told
      · exact fun s index r queued => absurd (List.mem_cons_of_mem _ queued) (books.quiet found id)
    · rw [lives_put found books.keys, Multiset.coe_nil, zero_add, lives_split found books.keys]
      rfl
  · rename_i complete
    refine handled_of_next books.keys (books.change join books.keys books.tickets rfl rfl
      (fun o other => (released o other).trans (sameAt_enqueue fun e member => ?_)) (fun _ _ => grows) ?_) .finish
      (.refl w) lives_run (lives_enqueue m _) fun _ => grows
    · rw [List.mem_singleton.mp member]
      exact fun same => other same.symm
    · refine booked.gain grows ?_ (Nat.le_refl _) rfl ?_ (fun s index r queued => ?_) fun r queued => ?_
      · rw [dests_run, dests_enqueue]
        rfl
      · exact fun j _ ⟨e, queued, needs⟩ =>
          ⟨e, List.mem_append_left _ ((List.mem_cons.mp queued).resolve_left fun same => (same ▸ needs).not_plain trivial), needs⟩
      · rcases List.mem_append.mp queued with queued | queued
        · exact .inl (List.mem_cons_of_mem _ queued)
        · cases List.mem_singleton.mp queued
          refine .inr ⟨told, fun j found => ?_⟩
          cases j with
          | enlist => exact complete _ _ _ _ _ found
          | race | gather | contest => trivial
      · refine .inl (List.mem_cons_of_mem _ ((List.mem_append.mp queued).resolve_right fun new => ?_))
        cases List.mem_singleton.mp new

end Ending

section Asking

variable {s : Shape} {first : Nat} {goals : List (Goal s)}

theorem livesOf_children : Event.livesOf (children rules join first goals : List (Event β)) =
    ((Live.asked rules join first goals : List (Sigma (Live β))) : Multiset _) := by
  rw [Event.livesOf, children, List.flatMap_map]
  exact congrArg _ List.map_eq_flatMap.symm

theorem destsOf_children : Event.destsOf (children rules join first goals : List (Event β)) =
    ((goals.zipIdx first).map fun p => Dest.child s join p.2 : List Dest) := by
  have sent : Event.sentOf (children rules join first goals : List (Event β)) = 0 := by
    refine Multiset.eq_zero_of_forall_notMem fun d member => ?_
    obtain ⟨e, started, member⟩ := List.mem_flatMap.mp (Multiset.mem_coe.mp member)
    obtain ⟨_, _, rfl⟩ := List.mem_map.mp started
    exact List.not_mem_nil member
  rw [Event.destsOf, livesOf_children, sent, add_zero, Live.asked, Multiset.map_coe, List.map_map]
  rfl

theorem child_mem_destsOf {index : Nat} (inside : index < goals.length) :
    Dest.child s join (first + index) ∈ Event.destsOf (children rules join first goals : List (Event β)) := by
  rw [destsOf_children, Multiset.mem_coe]
  refine List.mem_map.mpr ⟨(goals[index], first + index), ?_, rfl⟩
  exact List.mk_add_mem_zipIdx_iff_getElem?.mpr (List.getElem?_eq_getElem inside)

theorem destsOf_children_goes {d : Dest}
    (started : d ∈ Event.destsOf (children rules join first goals : List (Event β))) : ∃ index, d = .child s join index := by
  rw [destsOf_children, Multiset.mem_coe] at started
  obtain ⟨p, _, rfl⟩ := List.mem_map.mp started
  exact ⟨p.2, rfl⟩

theorem children_apart {o : Option Nat} (other : o ≠ some join) {e : Event β}
    (started : e ∈ (children rules join first goals : List (Event β))) : e.Apart o := by
  obtain ⟨_, _, rfl⟩ := List.mem_map.mp started
  exact fun same => other same.symm

theorem children_plain {e : Event β} (started : e ∈ (children rules join first goals : List (Event β))) : e.Plain := by
  obtain ⟨_, _, rfl⟩ := List.mem_map.mp started
  trivial

theorem raceBooked_start (rules : Rules) (roll : Roll) (join : Nat) {tests : List (Goal .truth)} (decisive : Bool)
    (w : Moment) : (roll.opening join ⟨.truth, tests.map (·, w)⟩).RaceBooked join
      (Event.destsOf (children rules join 0 tests : List (Event β))) (Race.start decisive tests.length) := by
  have count : (roll.opening join ⟨.truth, tests.map (·, w)⟩).count join = tests.length := by
    rw [Roll.count, Roll.asked_opening, List.length_map]
  by_cases none : tests.length = 0
  · simp only [Roll.RaceBooked, Race.start, if_pos none]
    refine .inr ⟨rfl, fun index below => ?_⟩
    rw [count, none] at below
    exact absurd below (Nat.not_lt_zero index)
  · simp only [Roll.RaceBooked, Race.start, if_neg none]
    refine ⟨Nat.pos_of_ne_zero none, ?_, fun index below => .inl ?_⟩
    · rw [destsOf_children, Multiset.coe_card, List.length_map, List.length_zipIdx]
    · rw [← Nat.zero_add index]
      exact child_mem_destsOf (count ▸ below)

end Asking

section Opening

theorem Books.known (books : m.Books slots roll) {d : Dest} (member : d ∈ m.dests) (goes : d.join? = some join) :
    join < m.nextJoin := by
  cases d with
  | root slot | task description => cases goes
  | child s other index =>
    cases goes
    exact ((books.booked join).children s index member).1

theorem Books.opened (books : m.Books slots roll) {entry : Nat × Join β} (listed : entry ∈ m.joins) :
    entry.1 < m.nextJoin := (books.booked entry.1).opened entry.2 (lookup_of_mem books.keys listed)

variable {j : Join β} {events : List (Event β)} {asked : (s : Shape) × List (Goal s × Moment)}
variable (books : (m.holding (.run f)).Books slots roll)
include books

theorem Books.openJoin (dest : (j.live m.nextJoin).1 = f.dest) (sent : j.sent m.nextJoin = [])
    (children : ∀ d ∈ Event.destsOf events, ∃ index, d = .child asked.1 m.nextJoin index)
    (apart : ∀ o, o ≠ some m.nextJoin → ∀ e ∈ events, e.Apart o) (quiet : ∀ e ∈ events, ¬ e.Tells m.nextJoin)
    (booked : (roll.opening m.nextJoin asked).JoinBooked m.nextJoin (Event.destsOf events) j)
    (due : j.Due → ∃ e ∈ events, j.Needs m.nextJoin e) :
    (m.openJoin j fun _ => events).Books slots (roll.opening m.nextJoin asked) := by
  have fresh {d : Dest} (member : d ∈ f.dest ::ₘ m.dests) : d.join? ≠ some m.nextJoin := fun goes =>
    Nat.lt_irrefl _ (books.known (dests_run ▸ member) goes)
  have new := dests_openJoin m events sent
  rw [dest, ← Multiset.add_cons] at new
  have goes {d : Dest} (member : d ∈ Event.destsOf events) : d.join? = some m.nextJoin := by
    obtain ⟨_, rfl⟩ := children d member
    rfl
  have queued {e : Event β} (member : e ∈ events ++ m.queue) (tells : e.Tells m.nextJoin) : e ∈ m.queue :=
    (List.mem_append.mp member).resolve_left fun new => quiet e new tells
  refine books.change m.nextJoin ?_ books.tickets rfl rfl (fun o other => ?_) (fun _ => Roll.extends_opening _) ?_
  · refine List.nodup_cons.mpr ⟨fun member => ?_, books.keys⟩
    obtain ⟨entry, listed, same⟩ := List.mem_map.mp member
    exact Nat.ne_of_lt (books.opened listed) same
  · refine ⟨?_, Nat.le_succ _, fun join here => ?_, fun join _ j _ ⟨e, held, needs⟩ => ?_, fun join here e member tells => ?_⟩
    · rw [new, dests_run, goingTo_add, goingTo_eq_zero fun d member same => other (same.symm.trans (goes member)), zero_add]
    · have apart : join ≠ m.nextJoin := fun same => other (same ▸ here)
      exact (List.lookup_cons ..).trans (by rw [beq_false_of_ne apart]; rfl)
    · refine ⟨e, List.mem_append_right _ ((List.mem_cons.mp held).resolve_left fun same => ?_), needs⟩
      exact (same ▸ needs).not_plain trivial
    · refine .inl (List.mem_cons_of_mem _ ((List.mem_append.mp member).resolve_left fun new => tells.not_apart ?_))
      exact Option.mem_def.mp here ▸ apart o other e new
  · have found : (m.openJoin j fun _ => events).joins.lookup m.nextJoin = some j := by
      rw [Machine.openJoin, List.lookup_cons, BEq.rfl]
    refine booked_of_lookup found (Nat.lt_succ_self _) (fun join goes => ?_) (fun s index member => ?_) ?_ (fun waits => ?_)
      (fun s index r member => ?_) fun _ r member => ?_
    · rw [dest] at goes
      exact books.known (dests_run ▸ Multiset.mem_cons_self _ _) goes
    · rw [new] at member
      rcases Multiset.mem_add.mp member with started | old
      · obtain ⟨_, same⟩ := children _ started
        cases same
        rw [Roll.asked_opening]
      · exact absurd rfl (fresh old)
    · rw [new, goingTo_add, goingTo_eq_self fun _ => goes, goingTo_eq_zero fun _ => fresh, add_zero]
      exact booked
    · obtain ⟨e, member, needs⟩ := due waits
      exact ⟨e, List.mem_append_left _ member, needs⟩
    · have arrives := mem_dests_of_queued (queued member rfl) (Multiset.mem_singleton_self _)
      exact absurd rfl (fresh (Multiset.mem_cons_of_mem arrives))
    · rcases (books.booked m.nextJoin).offers r (List.mem_cons_of_mem _ (queued member rfl)) with rfl | ⟨opened, _⟩
      · trivial
      · exact absurd opened (Nat.lt_irrefl _)

variable (events) in
theorem handled_of_open {started : List (Sigma (Live β))}
    (opened : (m.openJoin j fun _ => events).Books slots (roll.opening m.nextJoin asked))
    (next : Live.Next rules heard roll w f.live (j.live m.nextJoin :: started) (roll.opening m.nextJoin asked) w)
    (lives : Event.livesOf events = started) :
    Handled rules heard slots roll (m.holding (.run f)) w (m.openJoin j fun _ => events) w := by
  have grows {join : Nat} (below : join < m.nextJoin) : roll.Extends join (roll.opening m.nextJoin asked) :=
    Roll.extends_opening asked (Nat.ne_of_lt below)
  have apart : (joinsOf (m.holding (.run f)).lives).Nodup := joinsOf_lives (m.holding (.run f)) ▸ books.keys
  refine ⟨_, opened, .inl (.single ?_)⟩
  rw [lives_run] at apart ⊢
  rw [lives_openJoin, lives, ← Multiset.cons_add, Multiset.cons_coe]
  refine .mk next (.refl w) (fun t alive => .of_eq fun join goes => (grows ?_).asked) (fun t alive join waits => ?_) apart
  · refine books.known ?_ goes
    rw [← lives_run] at alive
    exact Multiset.mem_add.mpr (.inl (Multiset.mem_map_of_mem _ alive))
  · obtain ⟨entry, member, rfl⟩ := joined_of_live alive waits
    exact grows (books.opened member)

end Opening

section Forking

variable {d : Dest} {waits : Nat} {tests : List (Goal .truth)}

theorem handled_race {decisive passed : Bool} {k : Except Failure Bool → Prog (d.Answer β)}
    (books : (m.holding (.run ⟨d, waits, .race decisive passed tests k⟩)).Books slots roll) :
    Handled rules heard slots roll (m.holding (.run ⟨d, waits, .race decisive passed tests k⟩)) w
      (m.execute rules d waits (.race decisive passed tests k)) w := by
  by_cases none : tests = []
  · subst none
    exact handled_requeue books rfl .untested
  have undecided : (Race.start (ε := Failure) decisive tests.length).outcome = .none :=
    if_neg fun h => none (List.length_eq_zero_iff.mp h)
  simp only [Machine.execute, undecided]
  let expects : List (Event β) := if passed then [.expect m.nextJoin] else []
  have binding : ∀ e ∈ expects, e = .expect m.nextJoin := by
    intro e member
    dsimp only [expects] at member
    split at member
    · exact List.mem_singleton.mp member
    · cases member
  have idle : Event.destsOf (children rules m.nextJoin 0 tests ++ expects) =
      Event.destsOf (children rules m.nextJoin 0 tests : List (Event β)) := by
    rw [Event.destsOf_append]
    refine (congrArg _ ?_).trans (add_zero _)
    dsimp only [expects]
    split <;> rfl
  have quiet : Event.livesOf expects = 0 := by
    dsimp only [expects]
    split <;> rfl
  refine handled_of_open (children rules m.nextJoin 0 tests ++ expects) books
    (books.openJoin rfl rfl ?_ ?_ ?_ ?_ ?_) (.race m.nextJoin) ?_
  · rw [idle]
    exact fun d => destsOf_children_goes
  · intro o other e member
    rcases List.mem_append.mp member with member | member
    · exact children_apart other member
    · rw [binding e member]
      exact fun same => other same.symm
  · intro e member tells
    rcases List.mem_append.mp member with member | member
    · exact tells.not_plain (children_plain member)
    · rw [binding e member] at tells
      exact tells
  · refine ⟨by rw [Roll.asked_opening], ?_, fun _ => undecided⟩
    rw [idle]
    exact raceBooked_start rules roll m.nextJoin decisive w
  · intro passing
    refine ⟨.expect m.nextJoin, List.mem_append_right _ ?_, .inl rfl⟩
    dsimp only [expects]
    rw [if_pos (by simpa [Join.Due] using passing)]
    exact List.mem_singleton_self _
  · rw [Event.livesOf_append, quiet, add_zero, livesOf_children]

theorem handled_contest {search : Nat} {k : Except Failure (Option Bool) → Prog (d.Answer β)}
    (books : (m.holding (.run ⟨d, waits, .contest search tests k⟩)).Books slots roll) :
    Handled rules heard slots roll (m.holding (.run ⟨d, waits, .contest search tests k⟩)) w
      (m.execute rules d waits (.contest search tests k)) w := by
  refine handled_of_open _ books (books.openJoin rfl rfl (fun d => destsOf_children_goes)
    (fun o other e => children_apart other) (fun e member tells => tells.not_plain (children_plain member)) ?_ nofun)
    (.contest m.nextJoin) livesOf_children
  exact ⟨by rw [Roll.asked_opening], rfl, raceBooked_start rules roll m.nextJoin false w⟩

theorem handled_gather {s : Shape} {groups : List (Session → List (Goal s))}
    {k : Except Failure (List s.Value) → Prog (d.Answer β)}
    (books : (m.holding (.run ⟨d, waits, .gather groups k⟩)).Books slots roll) :
    Handled rules heard slots roll (m.holding (.run ⟨d, waits, .gather groups k⟩)) w
      (m.execute rules d waits (.gather groups k)) w := by
  refine handled_of_open _ books (books.openJoin rfl rfl ?_ ?_ ?_ ?_ ?_) (.gather m.nextJoin) rfl
  · exact fun d member => absurd member (Multiset.notMem_zero d)
  · intro o other e member
    rw [List.mem_singleton.mp member]
    exact fun same => other same.symm
  · intro e member
    rw [List.mem_singleton.mp member]
    exact id
  · refine ⟨by rw [Roll.asked_opening], ?_, nofun, fun i below => absurd below (Nat.not_lt_zero i)⟩
    rw [Roll.count, Roll.asked_opening]
    rfl
  · exact fun _ => ⟨_, List.mem_singleton_self _, rfl⟩

theorem handled_spawn {description : String} {g : Goal .unit} {k : Prog (d.Answer β)}
    (books : (m.holding (.run ⟨d, waits, .spawn description g k⟩)).Books slots roll) :
    Handled rules heard slots roll (m.holding (.run ⟨d, waits, .spawn description g k⟩)) w
      (m.execute rules d waits (.spawn description g k)) w := by
  have proceeds : (m.proceed ⟨d, waits, k⟩).Books slots roll := books.proceed rfl
  have executed : m.execute rules d waits (.spawn description g k) =
      (m.proceed ⟨d, waits, k⟩).spawn description (rules .unit g) := rfl
  rw [executed]
  refine handled_of_next books.keys proceeds.spawn .spawn (.refl w) lives_run ?_ fun _ => .refl
  have proceeding : (m.proceed ⟨d, waits, k⟩).lives = Fiber.live ⟨d, waits, k⟩ ::ₘ m.lives :=
    lives_run
  have spawned : ((m.proceed ⟨d, waits, k⟩).spawn description (rules .unit g)).lives =
      Fiber.live ⟨.task description, 0, rules .unit g⟩ ::ₘ (m.proceed ⟨d, waits, k⟩).lives :=
    lives_enqueue _ _
  rw [spawned, proceeding, Multiset.cons_swap]
  rfl

end Forking

end Machine

end Ownership
