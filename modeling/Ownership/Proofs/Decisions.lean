import Ownership.Proofs.Steps

namespace Ownership

variable {β : Type} {roll : Roll} {pending : Multiset Dest} {join index : Nat}

theorem Race.complete_decisive {ε : Type} (state : Race ε) (r : Except ε Bool) :
    (state.complete r).decisive = state.decisive := by
  unfold Race.complete
  split
  · rfl
  · split
    · rfl
    · split <;> rfl

theorem Roll.RaceBooked.complete {state : Race Failure} {r : Except Failure Bool}
    (booked : roll.RaceBooked join (.child .truth join index ::ₘ pending) state) (told : roll.Told join .truth index r) :
    roll.RaceBooked join pending (state.complete r) := by
  unfold RaceBooked at booked
  cases decided : state.outcome with
  | some outcome =>
    rw [decided] at booked
    have same : state.complete r = state := by simp only [Race.complete, decided]
    rw [same, RaceBooked, decided]
    exact booked
  | none =>
    rw [decided] at booked
    obtain ⟨_, counted, answers⟩ := booked
    rw [Multiset.card_cons] at counted
    simp only [Race.complete, decided]
    cases r with
    | error e => exact ⟨index, told⟩
    | ok b =>
      by_cases decisive : b = state.decisive
      · simp only [decisive, if_true]
        exact .inl ⟨rfl, index, decisive ▸ told⟩
      · simp only [decisive, if_false]
        have other : b = !state.decisive := by
          revert decisive
          cases b <;> cases state.decisive <;> simp
        have answered : ∀ i < roll.count join,
            .child .truth join i ∈ pending ∨ roll.Told join .truth i (.ok !state.decisive) := by
          intro i below
          rcases answers i below with waiting | told'
          · rcases Multiset.mem_cons.mp waiting with same | waiting
            · cases same
              exact .inr (other ▸ told)
            · exact .inl waiting
          · exact .inr told'
        by_cases last : state.remaining - 1 = 0
        · simp only [RaceBooked, last, if_true]
          refine .inr ⟨rfl, fun i below => (answered i below).resolve_left fun waiting => ?_⟩
          have none : pending.card = 0 := by omega
          rw [Multiset.card_eq_zero.mp none] at waiting
          exact absurd waiting (Multiset.notMem_zero _)
        · simp only [RaceBooked, last, if_false]
          exact ⟨Nat.pos_of_ne_zero last, by omega, answered⟩

theorem Gathering.none_mem_of_complete? {α : Type} {answers : List (Option α)}
    (incomplete : complete? answers = none) : none ∈ answers := by
  induction answers with
  | nil => cases incomplete
  | cons answer rest ih =>
    cases answer with
    | none => exact List.mem_cons_self
    | some a =>
      simp only [complete?, Option.map_eq_none_iff] at incomplete
      exact List.mem_cons_of_mem _ (ih incomplete)

theorem Roll.GatherBooked.complete {s : Shape} {state : Gathering Failure s.Value} {r : Except Failure s.Value}
    (booked : roll.GatherBooked join (.child s join index ::ₘ pending) state) (told : roll.Told join s index r) :
    match (state.complete index r).outcome with
    | some outcome => roll.GatherEnds join s outcome
    | none => roll.GatherBooked join pending (state.complete index r) := by
  obtain ⟨undecided, length, _, answers⟩ := booked
  simp only [Gathering.complete, undecided]
  cases r with
  | error e => exact ⟨index, told⟩
  | ok v =>
    have answered : ∀ i < roll.count join,
        ((state.answers.set index (some v))[i]? = some none ∧ .child s join i ∈ pending) ∨
        ∃ v', (state.answers.set index (some v))[i]? = some (some v') ∧ roll.Told join s i (.ok v') := by
      intro i below
      by_cases same : index = i
      · subst same
        exact .inr ⟨v, List.getElem?_set_self (length ▸ below), told⟩
      · rw [List.getElem?_set_ne same]
        refine (answers i below).imp_left (.imp_right fun waiting => ?_)
        refine (Multiset.mem_cons.mp waiting).resolve_left fun h => ?_
        cases h
        exact same rfl
    dsimp only
    split
    · rename_i outcome complete
      rw [Option.map_eq_some_iff] at complete
      obtain ⟨vs, complete, rfl⟩ := complete
      have values := Gathering.complete?_eq_some complete
      have total : vs.length = roll.count join := by
        rw [← length, ← @List.length_set _ state.answers index (some v), values, List.length_map]
      refine ⟨total, fun i v' position => ?_⟩
      have slot : (state.answers.set index (some v))[i]? = some (some v') := by
        rw [values, List.getElem?_map, position]
        rfl
      rcases answered i (total ▸ (List.getElem?_eq_some_iff.mp position).1) with ⟨gap, _⟩ | ⟨v'', filled, told'⟩
      · cases gap.symm.trans slot
      · cases filled.symm.trans slot
        exact told'
    · rename_i incomplete
      rw [Option.map_eq_none_iff] at incomplete
      refine ⟨?_, by rw [List.length_set, length], Gathering.none_mem_of_complete? incomplete, answered⟩
      rw [incomplete]
      rfl

namespace Machine

variable {rules : Rules} {heard : Wake → Prop} {slots : Nat → Nat} {m m' : Machine β} {w : Moment} {e : Event β}

theorem weight_holding (e : Event β) : (m.holding e).weight = e.weight + m.weight := by
  simp only [weight, holding, List.map_cons, List.sum_cons]
  omega

theorem weight_append (events : List (Event β)) :
    { m with queue := m.queue ++ events }.weight = (events.map Event.weight).sum + m.weight := by
  simp only [weight, List.map_append, List.sum_append]
  omega

theorem weight_put {j j' : Join β} (found : m.joins.lookup join = some j) (keys : (m.joins.map Prod.fst).Nodup) :
    (m.putJoin join j').weight + j.weight = m.weight + j'.weight := by
  obtain ⟨before, after, split, _, put, _⟩ := joins_split found keys
  have queue : (m.putJoin join j').queue = m.queue := rfl
  simp only [weight, split, put j', queue, List.map_append, List.map_cons, List.sum_append,
    List.sum_cons]
  omega

theorem lives_queue {events : List (Event β)} (idle : Event.livesOf events = 0) :
    { m with queue := m.queue ++ events }.lives = m.lives := by
  rw [lives_reorder m List.perm_append_comm, lives_append m, idle, zero_add]

theorem lives_idle (idle : e.lives = []) : (m.holding e).lives = m.lives := by
  rw [lives_holding, idle, Multiset.coe_nil, zero_add]

theorem handled_queue (events : List (Event β)) (books : (m.holding e).Books slots roll) (idle : e.lives = [])
    (quiet : Event.livesOf events = 0) (lighter : (events.map Event.weight).sum < e.weight)
    (same : ∀ o, SameAt o (m.holding e) { m with queue := m.queue ++ events }) :
    Handled rules heard slots roll (m.holding e) w { m with queue := m.queue ++ events } w := by
  refine ⟨roll, books.frame rfl books.tickets rfl rfl same, .inr ⟨congrArg (Scene.mk roll · w) ?_, ?_⟩⟩
  · rw [lives_queue quiet, lives_idle idle]
  · rw [weight_append, weight_holding]
    exact Nat.add_lt_add_right lighter _

theorem handled_ignore (books : (m.holding e).Books slots roll) (idle : e.lives = []) (dests : e.dests = 0)
    (weight : 0 < e.weight) (useless : ∀ i j, m.joins.lookup i = some j → ¬ j.Needs i e) :
    Handled rules heard slots roll (m.holding e) w m w := by
  have handled : Handled rules heard slots roll (m.holding e) w { m with queue := m.queue ++ [] } w :=
    handled_queue [] books idle rfl weight fun o => by
      rw [List.append_nil]
      exact sameAt_release (by rw [dests]; rfl) fun i _ => useless i
  rwa [List.append_nil] at handled

theorem handled_expect (books : (m.holding (.expect join)).Books slots roll) :
    Handled rules heard slots roll (m.holding (.expect join)) w (m.enqueue (.heed join)) w := by
  refine handled_queue [.heed join] books rfl rfl Nat.one_lt_two fun o => ?_
  refine ⟨?_, Nat.le_refl _, fun _ _ => rfl, fun i _ j _ ⟨e, queued, needs⟩ => ?_, fun i _ e queued tells => ?_⟩
  · exact congrArg _ ((dests_enqueue m _).trans (dests_holding m _).symm)
  · rcases List.mem_cons.mp queued with rfl | queued
    · cases j with
      | race =>
        have same : Event.expect join = Event.expect (β := β) i := needs.resolve_right nofun
        cases same
        exact ⟨_, List.mem_append_right _ (List.mem_singleton_self _), .inr rfl⟩
      | enlist => cases needs
      | gather | contest => exact needs.elim
    · exact ⟨e, List.mem_append_left _ queued, needs⟩
  · refine .inl (List.mem_cons_of_mem _ ((List.mem_append.mp queued).resolve_right fun new => ?_))
    rw [List.mem_singleton.mp new] at tells
    exact tells

theorem handled_notice (books : (m.holding (.notice join)).Books slots roll) :
    Handled rules heard slots roll (m.holding (.notice join)) w (m.enqueue (.offer join (.ok none))) w := by
  refine handled_queue [.offer join (.ok none)] books rfl rfl Nat.one_lt_two fun o => ?_
  refine ⟨?_, Nat.le_refl _, fun _ _ => rfl, fun i _ j _ ⟨e, queued, needs⟩ => ?_, fun i _ e queued tells => ?_⟩
  · exact congrArg _ ((dests_enqueue m _).trans (dests_holding m _).symm)
  · refine ⟨e, List.mem_append_left _ ((List.mem_cons.mp queued).resolve_left fun same => ?_), needs⟩
    exact (same ▸ needs).not_plain trivial
  · rcases List.mem_append.mp queued with queued | new
    · exact .inl (List.mem_cons_of_mem _ queued)
    · rw [List.mem_singleton.mp new] at tells ⊢
      cases tells
      exact .inr rfl

theorem booked_of_none (booked : m.Booked roll join) (none : m'.joins.lookup join = none)
    (dests : ∀ d ∈ m'.dests, d ∈ m.dests) (nextJoin : m'.nextJoin = m.nextJoin)
    (queue : ∀ e ∈ m'.queue, e.Tells join → e ∈ m.queue) : m'.Booked roll join where
  children s index member := nextJoin ▸ booked.children s index (dests _ member)
  opened _ found := nomatch none.symm.trans found
  older _ found := nomatch none.symm.trans found
  entry _ found := nomatch none.symm.trans found
  due _ found := nomatch none.symm.trans found
  arrivals s index r queued :=
    ⟨(booked.arrivals s index r (queue _ queued rfl)).1, fun _ found => nomatch none.symm.trans found⟩
  offers r queued := by
    refine (booked.offers r (queue _ queued rfl)).imp_right fun ⟨opened, _⟩ => ⟨nextJoin ▸ opened, fun _ found => ?_⟩
    exact nomatch none.symm.trans found

section Joins

variable {j : Join β} (books : (m.holding e).Books slots roll) (mine : ∀ o, o ≠ some join → e.Apart o) (idle : e.lives = [])
include books mine idle

theorem handled_decide {f : Fiber β} (found : m.joins.lookup join = some j)
    (next : Live.Next rules heard roll w (j.live join) [f.live] roll w) (dest : f.dest = (j.live join).1) :
    Handled rules heard slots roll (m.holding e) w (m.decide join f) w := by
  have keys : (m.joins.map Prod.fst).Nodup := books.keys
  have lives : (m.decide join f).lives = f.live ::ₘ (m.dropJoin join).lives := lives_enqueue _ _
  refine handled_of_next books.keys (books.change join (keys.sublist (List.filter_sublist.map _)) books.tickets rfl rfl
    (fun o other => (sameAt_apart (mine o other)).trans (sameAt_decide found keys other dest)) (fun _ _ => .refl) ?_) next
    (.refl w) ((lives_idle idle).trans (lives_split found keys)) lives fun _ => .refl
  refine booked_of_none (books.booked join) ?_ (fun d member => ?_) rfl fun e queued tells => ?_
  · refine List.lookup_eq_none_iff.mpr fun entry member => bne_iff_ne.mpr (Ne.symm ?_)
    exact of_decide_eq_true (List.mem_filter.mp member).2
  · have new : (m.decide join f).dests = f.dest ::ₘ (m.dropJoin join).dests := dests_enqueue _ _
    rw [dests_holding, dests_split found keys]
    rw [new, dest] at member
    refine Multiset.mem_add.mpr (.inr ((Multiset.mem_cons.mp member).elim (· ▸ Multiset.mem_cons_self _ _) fun old => ?_))
    exact Multiset.mem_cons_of_mem (Multiset.mem_add.mpr (.inr old))
  · refine List.mem_cons_of_mem _ ((List.mem_append.mp queued).resolve_right fun new => ?_)
    cases List.mem_singleton.mp new
    exact tells

theorem handled_put {j' : Join β} (events : List (Event β)) (found : m.joins.lookup join = some j) (complete : j'.Complete)
    (contests : j'.Contests → j.Contests) (others : ∀ o, o ≠ some join → ∀ e ∈ events, e.Apart o)
    (live : j'.live join = j.live join) (quiet : Event.livesOf events = 0)
    (sent : Event.destsOf events + (j'.sent join : List _) = (j.sent join : List _))
    (lighter : (events.map Event.weight).sum + j'.weight < e.weight + j.weight)
    (entry : roll.JoinBooked join (goingTo (some join) m.dests) j') (due : j'.Due → ∃ e ∈ m.queue, j'.Needs join e)
    (arrivals : ∀ s index r, .arrive s join index r ∈ events → roll.Told join s index r)
    (offers : ∀ r, .offer join r ∈ events → roll.ContestEnds join r) :
    Handled rules heard slots roll (m.holding e) w { m.putJoin join j' with queue := m.queue ++ events } w := by
  have keys : (m.joins.map Prod.fst).Nodup := books.keys
  have booked := books.booked join
  let m' : Machine β := { m.putJoin join j' with queue := m.queue ++ events }
  have dests : m'.dests = m.dests := by
    have appended : m'.dests = Event.destsOf events + (m.putJoin join j').dests :=
      (dests_reorder (m.putJoin join j') List.perm_append_comm).trans (dests_append (m.putJoin join j') events)
    rw [appended, dests_put found keys, dests_split found keys, live, ← sent, ← Multiset.singleton_add,
      ← Multiset.singleton_add]
    abel
  have lives : m'.lives = (m.holding e).lives := by
    have appended : m'.lives = (m.putJoin join j').lives := lives_queue quiet
    rw [appended, lives_put found keys, live, ← lives_split found keys, lives_idle idle]
  refine ⟨roll, books.change join ((keys_put j').symm ▸ keys) books.tickets rfl rfl (fun o other => ?_) (fun _ _ => .refl)
    (booked_of_lookup (lookup_put found keys j') (booked.opened j found) (live ▸ booked.older j found)
      (fun s index member => (booked.children s index ?_).2) (dests ▸ entry) (fun waits => ?_) (fun s index r queued => ?_)
      fun contest r queued => ?_), .inr ⟨congrArg (Scene.mk roll · w) lives, ?_⟩⟩
  · exact ((sameAt_apart (mine o other)).trans (sameAt_put found keys other (congrArg _ live))).trans
      (sameAt_enqueue (others o other))
  · rw [dests] at member
    rw [dests_holding]
    exact Multiset.mem_add.mpr (.inr member)
  · obtain ⟨e, queued, needs⟩ := due waits
    exact ⟨e, List.mem_append_left _ queued, needs⟩
  · refine ⟨(List.mem_append.mp queued).elim (fun old => ?_) (arrivals s index r), complete⟩
    exact (booked.arrivals s index r (List.mem_cons_of_mem _ old)).1
  · refine (List.mem_append.mp queued).elim (fun old => ?_) (offers r)
    rcases booked.offers r (List.mem_cons_of_mem _ old) with rfl | ⟨_, ends⟩
    · trivial
    · exact ends j found (contests contest)
  · have put : (m.putJoin join j').weight + j.weight = m.weight + j'.weight := weight_put found keys
    have appended : m'.weight = (events.map Event.weight).sum + (m.putJoin join j').weight :=
      weight_append (m := m.putJoin join j') events
    change m'.weight < _
    rw [weight_holding]
    omega

theorem handled_keep {j' : Join β} (found : m.joins.lookup join = some j) (complete : j'.Complete)
    (contests : j'.Contests → j.Contests) (live : j'.live join = j.live join) (sent : j'.sent join = j.sent join)
    (weight : 0 < e.weight) (weight' : j'.weight = j.weight)
    (entry : roll.JoinBooked join (goingTo (some join) m.dests) j') (due : j'.Due → ∃ e ∈ m.queue, j'.Needs join e) :
    Handled rules heard slots roll (m.holding e) w (m.putJoin join j') w := by
  have handled : Handled rules heard slots roll (m.holding e) w { m.putJoin join j' with queue := m.queue ++ [] } w := by
    have none {e : Event β} : e ∉ [] := List.not_mem_nil
    refine handled_put books mine idle [] found complete contests (fun _ _ _ new => absurd new none) live rfl ?_ ?_ entry due
      (fun _ _ _ new => absurd new none) fun _ new => absurd new none
    · rw [sent]
      exact zero_add _
    · simp only [List.map_nil, List.sum_nil]
      omega
  rw [List.append_nil] at handled
  exact handled

end Joins

theorem handled_arrive {s : Shape} {r : Except Failure s.Value}
    (books : (m.holding (.arrive s join index r)).Books slots roll) :
    Handled rules heard slots roll (m.holding (.arrive s join index r)) w (m.answerJoin s join index r) w := by
  have mine (o : Option Nat) (other : o ≠ some join) : (Event.arrive s join index r : Event β).Apart o :=
    fun same => other same.symm
  have booked := books.booked join
  obtain ⟨told, complete⟩ := booked.arrivals s index r List.mem_cons_self
  have dests : (m.holding (.arrive s join index r)).dests = .child s join index ::ₘ m.dests := dests_holding m _
  have pending : goingTo (some join) (m.holding (.arrive s join index r)).dests =
      .child s join index ::ₘ goingTo (some join) m.dests := by
    rw [dests]
    exact Multiset.filter_cons_of_pos _ rfl
  have shape : (roll.asked join).1 = s := (booked.children s index (dests ▸ Multiset.mem_cons_self _ _)).2
  unfold Machine.answerJoin
  split
  · rename_i lookup
    refine ⟨roll, books.change join books.keys books.tickets rfl rfl (fun o other => sameAt_apart (mine o other))
      (fun _ _ => .refl) ?_, .inr ⟨congrArg (Scene.mk roll · w) (lives_idle rfl).symm, ?_⟩⟩
    · refine booked_of_none booked lookup (fun d member => ?_) rfl fun e queued _ => List.mem_cons_of_mem _ queued
      rw [dests]
      exact Multiset.mem_cons_of_mem member
    · rw [weight_holding]
      exact Nat.lt_add_of_pos_left Nat.two_pos
  · rename_i state noticed fiber found
    obtain ⟨known, race, heard⟩ := booked.entry _ found
    cases shape.symm.trans known
    rw [pending] at race
    have counted := race.complete told
    dsimp only
    split
    · rename_i outcome decided
      refine handled_decide books mine rfl found (.raceEnds ?_) rfl
      rw [Roll.RaceBooked, decided, Race.complete_decisive] at counted
      exact counted
    · rename_i undecided
      refine handled_keep books mine rfl found trivial id ?_ rfl Nat.two_pos rfl ⟨known, counted, fun heeded => ?_⟩ fun due => ?_
      · simp only [Join.live, Race.complete_decisive]
      · cases decided : (state.complete r).outcome with
        | none => rfl
        | some outcome => exact absurd heeded (undecided outcome decided)
      · obtain ⟨e, queued, needs⟩ := booked.needed found due fun needs => by
          rcases needs with needs | needs <;> cases needs
        exact ⟨e, queued, needs⟩
  · rename_i found
    exact (complete _ found).elim
  · rename_i s' state fiber found
    obtain ⟨known, gather⟩ := booked.entry _ found
    cases shape.symm.trans known
    rw [dif_pos rfl]
    rw [pending] at gather
    have counted := gather.complete told
    dsimp only
    split
    · rename_i outcome decided
      rw [decided] at counted
      exact handled_decide books mine rfl found (.gatherEnds counted) rfl
    · rename_i undecided
      rw [undecided] at counted
      exact handled_keep books mine rfl found trivial id rfl rfl Nat.two_pos rfl ⟨known, counted⟩ False.elim
  · rename_i search state fiber found
    obtain ⟨known, decisive, race⟩ := booked.entry _ found
    cases shape.symm.trans known
    rw [pending] at race
    have counted := race.complete told
    have same : (state.complete r).decisive = false := by rw [Race.complete_decisive, decisive]
    have kept : Handled rules heard slots roll (m.holding (.arrive .truth join index r)) w
        (m.putJoin join (.contest search (state.complete r) fiber)) w :=
      handled_keep books mine rfl found trivial id rfl rfl Nat.two_pos rfl ⟨known, same, counted⟩ False.elim
    dsimp only
    split
    · rename_i outcome decided
      split
      · exact kept
      · refine handled_put books mine rfl [.offer join (outcome.map some)] found trivial id (fun o other e member => ?_) rfl rfl
          (zero_add _) Nat.one_lt_two ⟨known, same, counted⟩ False.elim (fun _ _ _ member => ?_) fun offer member => ?_
        · rw [List.mem_singleton.mp member]
          exact fun same => other same.symm
        · cases List.mem_singleton.mp member
        · cases List.mem_singleton.mp member
          rw [Roll.RaceBooked, decided, same] at counted
          cases outcome <;> exact counted
    · exact kept

theorem handled_heed (books : (m.holding (.heed join)).Books slots roll) :
    Handled rules heard slots roll (m.holding (.heed join)) w (m.heedRace join) w := by
  have mine (o : Option Nat) (other : o ≠ some join) : (Event.heed join : Event β).Apart o := fun same => other same.symm
  have dests : (m.holding (.heed join)).dests = m.dests := (dests_holding m _).trans (zero_add _)
  unfold Machine.heedRace
  split
  · rename_i state noticed fiber found
    obtain ⟨known, race, _⟩ := (books.booked join).entry _ found
    rw [dests] at race
    split
    · rename_i outcome decided
      rw [Roll.RaceBooked, decided] at race
      exact handled_decide books mine rfl found (.raceEnds race) rfl
    · rename_i undecided
      exact handled_keep books mine rfl found trivial id rfl rfl Nat.one_pos rfl ⟨known, race, fun _ => undecided⟩
        (fun heeded => by cases heeded)
  · rename_i other
    refine handled_ignore books rfl rfl Nat.one_pos fun i j found needs => ?_
    cases j with
    | race state noticed fiber =>
      cases needs.resolve_left (fun heeded => by cases heeded)
      exact other _ _ _ found
    | enlist => cases needs
    | gather | contest => exact needs

theorem handled_offer {outcome : Except Failure (Option Bool)}
    (books : (m.holding (.offer join outcome)).Books slots roll) :
    Handled rules heard slots roll (m.holding (.offer join outcome)) w (m.decideContest join outcome) w := by
  unfold Machine.decideContest
  split
  · rename_i search state fiber found
    refine handled_decide books (fun o other same => other same.symm) rfl found (.contestEnds ?_) rfl
    rcases (books.booked join).offers outcome List.mem_cons_self with rfl | ⟨_, ends⟩
    · trivial
    · exact ends _ found trivial
  · refine handled_ignore books rfl rfl Nat.one_pos fun i j _ needs => ?_
    cases j with
    | race => rcases needs with needs | needs <;> cases needs
    | enlist => cases needs
    | gather | contest => exact needs

section Enlisting

variable {s : Shape} {early : List (Nat × Except Failure s.Value)}

theorem livesOf_arrives : Event.livesOf
    (early.map fun answer => Event.arrive (β := β) s join answer.1 answer.2) = 0 := by
  induction early with
  | nil => rfl
  | cons answer early ih =>
    rw [List.map_cons, Event.livesOf_cons, ih]
    rfl

theorem destsOf_arrives : Event.destsOf
    (early.map fun answer => Event.arrive (β := β) s join answer.1 answer.2) =
      (early.map fun answer => Dest.child s join answer.1 : List Dest) := by
  induction early with
  | nil => rfl
  | cons answer early ih =>
    rw [List.map_cons, Event.destsOf_cons, ih]
    rfl

theorem weight_arrives : ((early.map fun answer =>
    Event.arrive (β := β) s join answer.1 answer.2).map Event.weight).sum = 2 * early.length := by
  induction early with
  | nil => rfl
  | cons answer early ih =>
    rw [List.map_cons, List.map_cons, List.sum_cons, ih, List.length_cons]
    have arrives : (Event.arrive (β := β) s join answer.1 answer.2).weight = 2 := rfl
    omega

variable (books : (m.holding (.enlist join)).Books slots roll)
include books

variable {groups : List (Session → List (Goal s))} {group : Session → List (Goal s)} {count : Nat}
variable {fiber : Waiting β (Except Failure (List s.Value))}

theorem handled_complete (found : m.joins.lookup join = some (.enlist s [] count early fiber))
    (some : count ≠ 0) : Handled rules heard slots roll (m.holding (.enlist join)) w
      { m.putJoin join (.gather s (Gathering.start count) fiber) with
        queue := m.queue ++ early.map fun answer => .arrive s join answer.1 answer.2 } w := by
  obtain ⟨known, length, kept, waiting⟩ := (books.booked join).entry _ found
  have dests : (m.holding (.enlist join)).dests = m.dests := (dests_holding m _).trans (zero_add _)
  refine handled_put books (fun o other same => other same.symm) rfl _ found trivial nofun ?_ rfl livesOf_arrives ?_ ?_ ?_
    nofun ?_ ?_
  · intro o other e member
    obtain ⟨answer, _, rfl⟩ := List.mem_map.mp member
    exact fun same => other same.symm
  · rw [destsOf_arrives]
    exact add_zero _
  · rw [weight_arrives]
    change 2 * early.length + 0 < 1 + 2 * early.length
    omega
  · refine ⟨known, if_neg some, ?_, List.mem_replicate.mpr ⟨some, rfl⟩, fun i below => .inl ⟨?_, ?_⟩⟩
    · rw [length]
      exact List.length_replicate
    · refine List.getElem?_eq_some_iff.mpr ⟨?_, List.getElem_replicate ..⟩
      rw [Gathering.start, List.length_replicate, ← length]
      exact below
    · rw [← dests]
      exact waiting i (length ▸ below)
  · intro s' i r member
    obtain ⟨answer, listed, same⟩ := List.mem_map.mp member
    cases same
    exact kept answer listed
  · intro r member
    obtain ⟨_, _, same⟩ := List.mem_map.mp member
    cases same

variable {asked : List (Goal s × Moment)}

/-- A join may ask for more as long as nothing has come in. -/
theorem Books.askMore (rules : Rules) (w : Moment) (goals : List (Goal s))
    (found : m.joins.lookup join = some (.enlist s (group :: groups) count early fiber))
    (known : roll.asked join = ⟨s, asked⟩) :
    { m.putJoin join (.enlist s groups (count + goals.length) early fiber) with
      queue := (children rules join count goals ++ [Event.enlist join]) ++ m.queue }.Books slots
      (roll.asking join ⟨s, asked ++ goals.map (·, w)⟩) := by
  have booked := books.booked join
  have keys : (m.joins.map Prod.fst).Nodup := books.keys
  obtain ⟨_, length, kept, waiting⟩ := booked.entry _ found
  rw [Roll.count, known] at length
  let j' : Join β := .enlist s groups (count + goals.length) early fiber
  let events : List (Event β) := children rules join count goals ++ [.enlist join]
  let m' : Machine β := { m.putJoin join j' with queue := events ++ m.queue }
  have same (o : Option Nat) (other : o ≠ some join) : SameAt o (m.holding (.enlist join)) m' := by
    have released : SameAt o (m.holding (.enlist join)) m := sameAt_apart fun same => other same.symm
    have put : SameAt o m (m.putJoin join j') := sameAt_put found keys other rfl
    refine (released.trans put).trans (sameAt_append fun e member => ?_)
    rcases List.mem_append.mp member with new | new
    · exact children_apart other new
    · rw [List.mem_singleton.mp new]
      exact fun same => other same.symm
  have dests : m'.dests = Event.destsOf (children rules join count goals : List (Event β)) + m.dests := by
    have put : (m.putJoin join j').dests = m.dests := by
      rw [dests_put found keys, dests_split found keys]
      rfl
    rw [← put]
    refine (dests_append (m.putJoin join j') events).trans (congrArg (· + _) ?_)
    rw [Event.destsOf_append]
    exact add_zero _
  have held : (m.holding (.enlist join)).dests = m.dests := (dests_holding m _).trans (zero_add _)
  rw [held] at waiting
  refine books.change join ((keys_put j').symm ▸ keys) books.tickets rfl rfl same
    (fun _ other => Roll.extends_asking _ other) ?_
  have older := booked.older _ found
  refine booked_of_lookup (lookup_put found keys j') (booked.opened _ found) older (fun s' index member => ?_)
    ⟨?_, ?_, kept, fun i below => child_mem_goingTo.mpr ?_⟩ (fun _ => ?_) (fun _ _ _ queued => ?_) False.elim
  · have member : Dest.child s' join index ∈ m'.dests := member
    rw [dests] at member
    rw [Roll.asked_asking]
    rcases Multiset.mem_add.mp member with new | old
    · obtain ⟨_, same⟩ := destsOf_children_goes new
      cases same
      rfl
    · have shape := (booked.children s' index (held ▸ old)).2
      rw [known] at shape
      exact shape
  · rw [Roll.asked_asking]
  · rw [Roll.count, Roll.asked_asking, List.length_append, List.length_map, length]
  · change _ ∈ m'.dests
    rw [dests]
    by_cases old : i < count
    · exact Multiset.mem_add.mpr (.inr (child_mem_goingTo.mp (waiting i old)))
    · have position : i = count + (i - count) := by omega
      rw [position]
      exact Multiset.mem_add.mpr (.inl (child_mem_destsOf (by omega)))
  · exact ⟨_, List.mem_append_left _ (List.mem_append_right _ (List.mem_singleton_self _)), rfl⟩
  · rcases List.mem_append.mp queued with new | old
    · rcases List.mem_append.mp new with new | new
      · exact (children_plain new).elim
      · cases List.mem_singleton.mp new
    · exact absurd (List.mem_cons_of_mem _ old) (books.quiet found id)

theorem handled_group {answers : List Answer} (now : w = ⟨m.session, answers⟩)
    (found : m.joins.lookup join = some (.enlist s (group :: groups) count early fiber)) :
    Handled rules heard slots roll (m.holding (.enlist join)) w
      { m.putJoin join (.enlist s groups (count + (group m.session).length) early fiber) with
        queue := children rules join count (group m.session) ++ .enlist join :: m.queue } w := by
  have keys : (m.joins.map Prod.fst).Nodup := books.keys
  obtain ⟨shape, length, _⟩ := (books.booked join).entry _ found
  obtain ⟨asked, known⟩ : ∃ asked, roll.asked join = ⟨s, asked⟩ := by
    subst shape
    exact ⟨_, rfl⟩
  rw [Roll.count, known] at length
  have session : m.session = w.session := by rw [now]
  let goals := group w.session
  let j' : Join β := .enlist s groups (count + goals.length) early fiber
  let events : List (Event β) := children rules join count goals ++ [.enlist join]
  let m' : Machine β := { m.putJoin join j' with queue := events ++ m.queue }
  have queue : children rules join count goals ++ .enlist join :: m.queue = events ++ m.queue := by
    rw [List.append_assoc]
    rfl
  rw [session, queue]
  refine ⟨_, books.askMore rules w goals found known, .inl (.single ?_)⟩
  have apart : (joinsOf (m.holding (.enlist join)).lives).Nodup := joinsOf_lives (m.holding (.enlist join)) ▸ keys
  have before : (m.holding (.enlist join)).lives =
      Join.live join (.enlist s (group :: groups) count early fiber) ::ₘ (m.dropJoin join).lives :=
    (lives_idle rfl).trans (lives_split found keys)
  have after : m'.lives = ((j'.live join :: Live.asked rules join asked.length goals : List (Sigma (Live β))) : Multiset _) +
      (m.dropJoin join).lives := by
    have appended : m'.lives = Event.livesOf events + (m.putJoin join j').lives := lives_append (m.putJoin join j') events
    rw [appended, lives_put found keys, Event.livesOf_append, livesOf_children, length, ← Multiset.cons_coe,
      Multiset.cons_add, ← Multiset.add_cons]
    exact congrArg (· + _) (add_zero _)
  rw [before] at apart ⊢
  change Scene.Shift rules heard _ ⟨_, m'.lives, _⟩
  rw [after]
  refine .mk (.enlist known) (.refl w) (fun t _ => Roll.keeps_asking known _ _) (fun t alive i waits => ?_) apart
  obtain ⟨entry, member, rfl⟩ := joined_of_live alive waits
  exact Roll.extends_asking _ (of_decide_eq_true (List.mem_filter.mp member).2)

theorem handled_enlist {answers : List Answer} (now : w = ⟨m.session, answers⟩) :
    Handled rules heard slots roll (m.holding (.enlist join)) w (m.enlistNext rules join) w := by
  unfold Machine.enlistNext
  split
  · rename_i s count early fiber found
    obtain ⟨_, length, _⟩ := (books.booked join).entry _ found
    by_cases none : count = 0
    · have start : (Gathering.start (ε := Failure) (α := s.Value) count).outcome = some (.ok []) :=
        if_pos none
      simp only [start]
      refine handled_decide books (fun o other same => other same.symm) rfl found (.gatherEnds ⟨?_, nofun⟩) rfl
      rw [length, none]
      rfl
    · have start : (Gathering.start (ε := Failure) (α := s.Value) count).outcome = .none :=
        if_neg none
      simp only [start]
      exact handled_complete books found none
  · rename_i s group groups count early fiber found
    exact handled_group books now found
  · rename_i other others
    refine handled_ignore books rfl rfl Nat.one_pos fun i j found needs => ?_
    cases j with
    | race => rcases needs with needs | needs <;> cases needs
    | enlist s groups count early fiber =>
      cases needs
      cases groups with
      | nil => exact other _ _ _ _ found
      | cons group groups => exact others _ _ _ _ _ _ found
    | gather | contest => exact needs

end Enlisting

end Machine

end Ownership
