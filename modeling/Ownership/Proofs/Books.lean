import Ownership.Proofs.Lives

namespace Ownership

variable {β : Type}

structure Reply where
  {shape : Shape}
  index : Nat
  answer : Except Failure shape.Value

/-- The goals that each join has asked, with the moments at which it asked them, and the answers that
they were given. -/
structure Roll where
  asked : Nat → (s : Shape) × List (Goal s × Moment)
  told : Nat → List Reply

namespace Roll

variable (roll : Roll) (join : Nat)

def idle : Roll := ⟨fun _ => ⟨.unit, []⟩, fun _ => []⟩

def opening (asked : (s : Shape) × List (Goal s × Moment)) : Roll :=
  ⟨Function.update roll.asked join asked, Function.update roll.told join []⟩

def asking (asked : (s : Shape) × List (Goal s × Moment)) : Roll :=
  { roll with asked := Function.update roll.asked join asked }

def telling {s : Shape} (index : Nat) (r : Except Failure s.Value) : Roll :=
  { roll with told := Function.update roll.told join (⟨index, r⟩ :: roll.told join) }

def hearing : (d : Dest) → Except Failure (d.Answer β) → Roll
  | .child _ join index, r => roll.telling join index r
  | _, _ => roll

def count : Nat := (roll.asked join).2.length

def Told (s : Shape) (index : Nat) (r : Except Failure s.Value) : Prop := ⟨index, r⟩ ∈ roll.told join

def RaceEnds (decisive : Bool) : Except Failure Bool → Prop
  | .ok b => (b = decisive ∧ ∃ index, roll.Told join .truth index (.ok decisive)) ∨
    b = !decisive ∧ ∀ index < roll.count join, roll.Told join .truth index (.ok !decisive)
  | .error e => ∃ index, roll.Told join .truth index (.error e)

def ContestEnds : Except Failure (Option Bool) → Prop
  | .ok none => True
  | .ok (some b) => roll.RaceEnds join false (.ok b)
  | .error e => roll.RaceEnds join false (.error e)

def GatherEnds (s : Shape) : Except Failure (List s.Value) → Prop
  | .ok vs => vs.length = roll.count join ∧ ∀ index v, vs[index]? = some v → roll.Told join s index (.ok v)
  | .error e => ∃ index, roll.Told join s index (.error e)

/-- A race without an outcome has counted the answers that have not come in. -/
def RaceBooked (pending : Multiset Dest) (state : Race Failure) : Prop :=
  match state.outcome with
  | some r => roll.RaceEnds join state.decisive r
  | none => 0 < state.remaining ∧ state.remaining = pending.card ∧
    ∀ index < roll.count join, .child .truth join index ∈ pending ∨ roll.Told join .truth index (.ok !state.decisive)

/-- A gathering lacks only answers that have not come in. -/
def GatherBooked (pending : Multiset Dest) {s : Shape} (state : Gathering Failure s.Value) : Prop :=
  state.outcome = none ∧ state.answers.length = roll.count join ∧ none ∈ state.answers ∧
    ∀ index < roll.count join, (state.answers[index]? = some none ∧ .child s join index ∈ pending) ∨
      ∃ v, state.answers[index]? = some (some v) ∧ roll.Told join s index (.ok v)

def JoinBooked (pending : Multiset Dest) : Join β → Prop
  | .race state noticed _ => (roll.asked join).1 = .truth ∧ roll.RaceBooked join pending state ∧
    (noticed = true → state.outcome = none)
  | .enlist s _ count early _ => (roll.asked join).1 = s ∧ roll.count join = count ∧
    (∀ answer ∈ early, roll.Told join s answer.1 answer.2) ∧ ∀ index < count, .child s join index ∈ pending
  | .gather s state _ => (roll.asked join).1 = s ∧ roll.GatherBooked join pending state
  | .contest _ state _ => (roll.asked join).1 = .truth ∧ state.decisive = false ∧ roll.RaceBooked join pending state

/-- Nothing changed at the join, but for answers that came in. -/
structure Extends (roll' : Roll) : Prop where
  asked : roll'.asked join = roll.asked join
  told : roll.told join ⊆ roll'.told join

variable {roll join} {roll' : Roll}

theorem Extends.refl : roll.Extends join roll := ⟨rfl, List.Subset.refl _⟩

theorem Extends.count (grows : roll.Extends join roll') : roll'.count join = roll.count join := by
  rw [Roll.count, grows.asked]
  rfl

theorem asked_hearing (d : Dest) (r : Except Failure (d.Answer β)) : (roll.hearing d r).asked = roll.asked := by
  cases d <;> rfl

section Telling

variable {s : Shape} {index : Nat} (r : Except Failure s.Value)

theorem told_telling : (roll.telling join index r).told join = ⟨index, r⟩ :: roll.told join := Function.update_self ..

theorem told_telling_of_ne {other : Nat} (apart : other ≠ join) : (roll.telling join index r).told other = roll.told other :=
  Function.update_of_ne apart ..

theorem extends_telling {other : Nat} : roll.Extends other (roll.telling join index r) := by
  refine ⟨rfl, ?_⟩
  by_cases same : other = join
  · subst same
    rw [told_telling]
    exact List.subset_cons_self _ _
  · rw [told_telling_of_ne r same]
    exact List.Subset.refl _

end Telling

section Asking

variable (asked : (s : Shape) × List (Goal s × Moment))

theorem asked_asking : (roll.asking join asked).asked join = asked := Function.update_self ..

theorem asked_opening : (roll.opening join asked).asked join = asked := Function.update_self ..

theorem told_opening : (roll.opening join asked).told join = [] := Function.update_self ..

variable {other : Nat} (apart : other ≠ join)
include apart

theorem told_opening_of_ne : (roll.opening join asked).told other = roll.told other := Function.update_of_ne apart ..

theorem extends_asking : roll.Extends other (roll.asking join asked) :=
  ⟨Function.update_of_ne apart _ _, List.Subset.refl _⟩

theorem extends_opening : roll.Extends other (roll.opening join asked) :=
  ⟨Function.update_of_ne apart _ _, by rw [told_opening_of_ne asked apart]; exact List.Subset.refl _⟩

end Asking

section Extending

variable (grows : roll.Extends join roll')
include grows

theorem RaceEnds.extend {decisive : Bool} {r : Except Failure Bool} (ends : roll.RaceEnds join decisive r) :
    roll'.RaceEnds join decisive r := by
  cases r with
  | error e => exact ends.imp fun _ told => grows.told told
  | ok b =>
    refine ends.imp (.imp_right (.imp fun _ told => grows.told told)) (.imp_right fun all index below => ?_)
    exact grows.told (all index (grows.count ▸ below))

theorem ContestEnds.extend {r : Except Failure (Option Bool)} (ends : roll.ContestEnds join r) :
    roll'.ContestEnds join r := by
  match r, ends with
  | .ok none, _ => exact trivial
  | .ok (some b), ends => exact (show roll.RaceEnds join false (.ok b) from ends).extend grows
  | .error e, ends => exact (show roll.RaceEnds join false (.error e) from ends).extend grows

theorem RaceBooked.extend {pending : Multiset Dest} {state : Race Failure}
    (booked : roll.RaceBooked join pending state) : roll'.RaceBooked join pending state := by
  unfold RaceBooked at booked ⊢
  split at booked
  · exact booked.extend grows
  · obtain ⟨some, counted, answers⟩ := booked
    exact ⟨some, counted, fun index below => (answers index (grows.count ▸ below)).imp_right fun told => grows.told told⟩

theorem JoinBooked.extend {pending : Multiset Dest} {j : Join β} (booked : roll.JoinBooked join pending j) :
    roll'.JoinBooked join pending j := by
  have shape : (roll'.asked join).1 = (roll.asked join).1 := congrArg Sigma.fst grows.asked
  cases j with
  | race state noticed fiber => exact ⟨shape.trans booked.1, booked.2.1.extend grows, booked.2.2⟩
  | enlist s groups count early fiber =>
    obtain ⟨known, length, answers, waiting⟩ := booked
    exact ⟨shape.trans known, grows.count.trans length, fun answer member => grows.told (answers answer member), waiting⟩
  | gather s state fiber =>
    obtain ⟨known, undecided, length, lacking, answers⟩ := booked
    refine ⟨shape.trans known, undecided, length.trans grows.count.symm, lacking, fun index below => ?_⟩
    exact (answers index (grows.count ▸ below)).imp_right (.imp fun _ => .imp_right fun told => grows.told told)
  | contest search state fiber => exact ⟨shape.trans booked.1, booked.2.1, booked.2.2.extend grows⟩

end Extending

end Roll

def goingTo (o : Option Nat) (dests : Multiset Dest) : Multiset Dest := dests.filter fun d => d.join? = o

section GoingTo

variable {o : Option Nat} {join : Nat} {dests : Multiset Dest}

@[simp] theorem goingTo_add (o : Option Nat) (dests dests' : Multiset Dest) :
    goingTo o (dests + dests') = goingTo o dests + goingTo o dests' := Multiset.filter_add _ _ _

theorem goingTo_eq_zero (other : ∀ d ∈ dests, d.join? ≠ o) : goingTo o dests = 0 := Multiset.filter_eq_nil.mpr other

theorem goingTo_eq_self (all : ∀ d ∈ dests, d.join? = o) : goingTo o dests = dests := Multiset.filter_eq_self.mpr all

theorem goingTo_cons (o : Option Nat) (d : Dest) (dests : Multiset Dest) :
    goingTo o (d ::ₘ dests) = goingTo o {d} + goingTo o dests := by
  rw [← Multiset.singleton_add, goingTo_add]

theorem mem_goingTo {d : Dest} : d ∈ goingTo o dests ↔ d ∈ dests ∧ d.join? = o := Multiset.mem_filter

theorem child_mem_goingTo {s : Shape} {index : Nat} :
    Dest.child s join index ∈ goingTo (some join) dests ↔ Dest.child s join index ∈ dests :=
  mem_goingTo.trans (and_iff_left rfl)

end GoingTo

def Dest.isTask : Dest → Bool
  | .task _ => true
  | _ => false

def Join.Complete : Join β → Prop
  | .enlist .. => False
  | _ => True

/-- A join that is not told of its answers as they come in. -/
def Join.Due : Join β → Prop
  | .race _ noticed _ => noticed = false
  | .enlist .. => True
  | _ => False

def Join.Contests : Join β → Prop
  | .contest .. => True
  | _ => False

def Join.Needs (join : Nat) : Join β → Event β → Prop
  | .race .., e => e = .expect join ∨ e = .heed join
  | .enlist .., e => e = .enlist join
  | _, _ => False

def Event.Plain : Event β → Prop
  | .run _ => True
  | .notice _ => True
  | _ => False

def Event.Tells (join : Nat) : Event β → Prop
  | .arrive _ other _ _ => other = join
  | .offer other _ => other = join
  | _ => False

/-- The event does not concern what goes there. -/
def Event.Apart (o : Option Nat) : Event β → Prop
  | .run f => f.dest.join? ≠ o
  | .arrive _ join _ _ => some join ≠ o
  | .enlist join => some join ≠ o
  | .expect join => some join ≠ o
  | .heed join => some join ≠ o
  | .offer join _ => some join ≠ o
  | .notice _ => True

section Apart

variable {o : Option Nat} {join : Nat} {e : Event β}

theorem Join.Needs.not_plain {j : Join β} (needs : j.Needs join e) : ¬ e.Plain := by
  cases j with
  | race => rcases needs with rfl | rfl <;> exact id
  | enlist => cases needs; exact id
  | gather | contest => exact needs.elim

theorem Join.Needs.not_apart {j : Join β} (needs : j.Needs join e) : ¬ e.Apart (some join) := by
  cases j with
  | race => rcases needs with rfl | rfl <;> exact fun apart => apart rfl
  | enlist => cases needs; exact fun apart => apart rfl
  | gather | contest => exact needs.elim

theorem Event.Tells.not_plain (tells : e.Tells join) : ¬ e.Plain := by
  cases e <;> first | exact tells.elim | exact id

theorem Event.Tells.not_apart (tells : e.Tells join) : ¬ e.Apart (some join) := by
  cases e <;> first | exact tells.elim | (cases tells; exact fun apart => apart rfl)

theorem Event.Apart.goingTo (apart : e.Apart o) : goingTo o e.dests = 0 := by
  refine goingTo_eq_zero fun d member => ?_
  cases e with
  | run f | arrive => cases Multiset.mem_singleton.mp member; exact apart
  | _ => exact absurd member (Multiset.notMem_zero _)

end Apart

namespace Machine

structure Booked (roll : Roll) (m : Machine β) (join : Nat) : Prop where
  children : ∀ s index, .child s join index ∈ m.dests → join < m.nextJoin ∧ (roll.asked join).1 = s
  opened : ∀ j, m.joins.lookup join = some j → join < m.nextJoin
  older : ∀ j, m.joins.lookup join = some j → ∀ other ∈ (j.live join).1.join?, other < join
  entry : ∀ j, m.joins.lookup join = some j → roll.JoinBooked join (goingTo (some join) m.dests) j
  due : ∀ j, m.joins.lookup join = some j → j.Due → ∃ e ∈ m.queue, j.Needs join e
  arrivals : ∀ s index r, .arrive s join index r ∈ m.queue →
    roll.Told join s index r ∧ ∀ j, m.joins.lookup join = some j → j.Complete
  offers : ∀ r, .offer join r ∈ m.queue → r = .ok none ∨ join < m.nextJoin ∧
    ∀ j, m.joins.lookup join = some j → j.Contests → roll.ContestEnds join r

/-- Nothing changed in what goes there. -/
structure SameAt (o : Option Nat) (m m' : Machine β) : Prop where
  dests : goingTo o m'.dests = goingTo o m.dests
  nextJoin : m.nextJoin ≤ m'.nextJoin
  entry : ∀ join ∈ o, m'.joins.lookup join = m.joins.lookup join
  keeps : ∀ join ∈ o, ∀ j, m.joins.lookup join = some j → (∃ e ∈ m.queue, j.Needs join e) →
    ∃ e ∈ m'.queue, j.Needs join e
  brings : ∀ join ∈ o, ∀ e ∈ m'.queue, e.Tells join → e ∈ m.queue ∨ e = .offer join (.ok none)

variable {m m' : Machine β} {o : Option Nat} {join : Nat} {roll roll' : Roll}

theorem SameAt.trans {m'' : Machine β} (first : SameAt o m m') (second : SameAt o m' m'') : SameAt o m m'' where
  dests := second.dests.trans first.dests
  nextJoin := first.nextJoin.trans second.nextJoin
  entry join here := (second.entry join here).trans (first.entry join here)
  keeps join here j found needs :=
    second.keeps join here j ((first.entry join here).trans found) (first.keeps join here j found needs)
  brings join here e queued tells :=
    (second.brings join here e queued tells).elim (fun queued => first.brings join here e queued tells) .inr

/-- Only answers came in. -/
theorem Booked.gain (booked : m.Booked roll join) (grows : roll.Extends join roll')
    (dests : goingTo (some join) m'.dests = goingTo (some join) m.dests) (nextJoin : m.nextJoin ≤ m'.nextJoin)
    (entry : m'.joins.lookup join = m.joins.lookup join)
    (keeps : ∀ j, m.joins.lookup join = some j → (∃ e ∈ m.queue, j.Needs join e) → ∃ e ∈ m'.queue, j.Needs join e)
    (arrivals : ∀ s index r, .arrive s join index r ∈ m'.queue → .arrive s join index r ∈ m.queue ∨
      roll'.Told join s index r ∧ ∀ j, m.joins.lookup join = some j → j.Complete)
    (offers : ∀ r, .offer join r ∈ m'.queue → .offer join r ∈ m.queue ∨ r = .ok none) : m'.Booked roll' join := by
  refine ⟨fun s index member => ?_, fun j found => ?_, fun j found => ?_, fun j found => ?_, fun j found due => ?_,
    fun s index r queued => ?_, fun r queued => ?_⟩
  · rw [← child_mem_goingTo, dests, child_mem_goingTo] at member
    obtain ⟨opened, shape⟩ := booked.children s index member
    exact ⟨opened.trans_le nextJoin, (congrArg Sigma.fst grows.asked).trans shape⟩
  · exact (booked.opened j (entry ▸ found)).trans_le nextJoin
  · exact booked.older j (entry ▸ found)
  · rw [dests]
    exact (booked.entry j (entry ▸ found)).extend grows
  · rw [entry] at found
    exact keeps j found (booked.due j found due)
  · rw [entry]
    exact (arrivals s index r queued).elim (fun old => (booked.arrivals s index r old).imp_left fun told => grows.told told)
      id
  · rw [entry]
    refine (offers r queued).elim (fun old => (booked.offers r old).imp_right fun ⟨opened, ends⟩ => ?_) .inl
    exact ⟨opened.trans_le nextJoin, fun j found contests => (ends j found contests).extend grows⟩

theorem Booked.frame (booked : m.Booked roll join) (same : SameAt (some join) m m') (grows : roll.Extends join roll') :
    m'.Booked roll' join := by
  refine booked.gain grows same.dests same.nextJoin (same.entry join rfl) (same.keeps join rfl) (fun s index r queued => ?_)
    fun r queued => ?_
  · exact .inl ((same.brings join rfl _ queued rfl).resolve_right nofun)
  · exact (same.brings join rfl _ queued rfl).imp_right fun idle => by cases idle; rfl

theorem booked_of_lookup {j : Join β} (found : m.joins.lookup join = some j) (opened : join < m.nextJoin)
    (older : ∀ other ∈ (j.live join).1.join?, other < join)
    (children : ∀ s index, .child s join index ∈ m.dests → (roll.asked join).1 = s)
    (entry : roll.JoinBooked join (goingTo (some join) m.dests) j) (due : j.Due → ∃ e ∈ m.queue, j.Needs join e)
    (arrivals : ∀ s index r, .arrive s join index r ∈ m.queue → roll.Told join s index r ∧ j.Complete)
    (offers : j.Contests → ∀ r, .offer join r ∈ m.queue → roll.ContestEnds join r) : m.Booked roll join where
  children s index member := ⟨opened, children s index member⟩
  opened _ _ := opened
  older _ found' := Option.some.inj (found.symm.trans found') ▸ older
  entry _ found' := Option.some.inj (found.symm.trans found') ▸ entry
  due _ found' := Option.some.inj (found.symm.trans found') ▸ due
  arrivals s index r queued := by
    refine (arrivals s index r queued).imp_right fun complete _ found' => ?_
    exact Option.some.inj (found.symm.trans found') ▸ complete
  offers r queued := by
    refine .inr ⟨opened, fun _ found' contests => ?_⟩
    cases found.symm.trans found'
    exact offers contests r queued

theorem Booked.needed {e : Event β} (booked : (m.holding e).Booked roll join) {j : Join β}
    (found : m.joins.lookup join = some j) (due : j.Due) (other : ¬ j.Needs join e) : ∃ e ∈ m.queue, j.Needs join e := by
  obtain ⟨e', queued, needs⟩ := booked.due j found due
  exact ⟨e', (List.mem_cons.mp queued).resolve_left fun same => other (same ▸ needs), needs⟩

theorem sameAt_queue (joins : m'.joins = m.joins) (nextJoin : m'.nextJoin = m.nextJoin) (dests : m'.dests = m.dests)
    (queue : ∀ e, ¬ e.Plain → (e ∈ m'.queue ↔ e ∈ m.queue)) : SameAt o m m' where
  dests := by rw [dests]
  nextJoin := nextJoin.ge
  entry _ _ := by rw [joins]
  keeps _ _ _ _ := fun ⟨e, queued, needs⟩ => ⟨e, (queue e needs.not_plain).mpr queued, needs⟩
  brings _ _ e queued tells := .inl ((queue e tells.not_plain).mp queued)

theorem sameAt_release {e : Event β} (dests : goingTo o e.dests = 0)
    (useless : ∀ join ∈ o, ∀ j, m.joins.lookup join = some j → ¬ j.Needs join e) : SameAt o (m.holding e) m where
  dests := by rw [dests_holding, goingTo_add, dests, zero_add]
  nextJoin := Nat.le_refl _
  entry _ _ := rfl
  keeps join here j found := fun ⟨e', queued, needs⟩ =>
    ⟨e', (List.mem_cons.mp queued).resolve_left fun same => useless join here j found (same ▸ needs), needs⟩
  brings _ _ _ queued _ := .inl (List.mem_cons_of_mem _ queued)

theorem sameAt_apart {e : Event β} (apart : e.Apart o) : SameAt o (m.holding e) m :=
  sameAt_release apart.goingTo fun _ here _ _ needs => needs.not_apart (Option.mem_def.mp here ▸ apart)

theorem sameAt_append {events : List (Event β)} (apart : ∀ e ∈ events, e.Apart o) :
    SameAt o m { m with queue := events ++ m.queue } where
  dests := by
    rw [dests_append, goingTo_add]
    refine Eq.trans (congrArg (· + _) ?_) (zero_add _)
    induction events with
    | nil => rfl
    | cons e events ih =>
      rw [Event.destsOf_cons, goingTo_add, (apart e List.mem_cons_self).goingTo, zero_add]
      exact ih fun e member => apart e (List.mem_cons_of_mem _ member)
  nextJoin := Nat.le_refl _
  entry _ _ := rfl
  keeps _ _ _ _ := fun ⟨e, queued, needs⟩ => ⟨e, List.mem_append_right _ queued, needs⟩
  brings join here e queued tells := by
    refine .inl ((List.mem_append.mp queued).resolve_left fun new => tells.not_apart ?_)
    exact Option.mem_def.mp here ▸ apart e new

theorem sameAt_reorder {q q' : List (Event β)} (perm : q.Perm q') :
    SameAt o { m with queue := q } { m with queue := q' } :=
  sameAt_queue rfl rfl (dests_reorder m perm).symm fun _ _ => perm.mem_iff.symm

theorem sameAt_enqueue {events : List (Event β)} (apart : ∀ e ∈ events, e.Apart o) :
    SameAt o m { m with queue := m.queue ++ events } :=
  (sameAt_append apart).trans (sameAt_reorder List.perm_append_comm)

section Joins

variable {j : Join β}

theorem keys_put (j' : Join β) : (m.putJoin join j').joins.map Prod.fst = m.joins.map Prod.fst := by
  simp only [putJoin, List.map_map]
  refine List.map_congr_left fun entry _ => ?_
  by_cases same : entry.1 = join <;> simp [same]

variable (found : m.joins.lookup join = some j) (keys : (m.joins.map Prod.fst).Nodup)
include found keys

theorem lookup_put (j' : Join β) : (m.putJoin join j').joins.lookup join = some j' := by
  obtain ⟨before, after, _, _, put, others⟩ := joins_split found keys
  refine List.lookup_eq_some_iff.mpr ⟨before, after, put j', fun entry member => ?_⟩
  exact bne_iff_ne.mpr (others entry (List.mem_append_left _ member)).symm

theorem sameAt_put (other : o ≠ some join) {j' : Join β} (dest : (j'.live join).1 = (j.live join).1) :
    SameAt o m (m.putJoin join j') where
  dests := by
    have outside {j : Join β} : goingTo o (j.sent join : Multiset Dest) = 0 :=
      goingTo_eq_zero fun d member same => other (same.symm.trans (Join.sent_goes member))
    rw [dests_put found keys, dests_split found keys, dest, goingTo_cons, goingTo_cons, goingTo_add, goingTo_add, outside,
      outside]
  nextJoin := Nat.le_refl _
  entry n here := by
    have apart : n ≠ join := fun same => other (same ▸ here)
    obtain ⟨before, after, split, _, put, others⟩ := joins_split found keys
    rw [put j', split, List.lookup_append, List.lookup_append, List.lookup_cons, List.lookup_cons,
      beq_false_of_ne apart]
  keeps _ _ _ _ := id
  brings _ _ _ queued _ := .inl queued

theorem sameAt_decide (other : o ≠ some join) {f : Fiber β} (dest : f.dest = (j.live join).1) :
    SameAt o m (m.decide join f) where
  dests := by
    have outside : goingTo o (j.sent join : Multiset Dest) = 0 :=
      goingTo_eq_zero fun d member same => other (same.symm.trans (Join.sent_goes member))
    have new : (m.decide join f).dests = f.dest ::ₘ (m.dropJoin join).dests := dests_enqueue _ _
    rw [new, dests_split found keys, dest, goingTo_cons, goingTo_cons, goingTo_add, outside, zero_add]
  nextJoin := Nat.le_refl _
  entry n here := by
    have apart : n ≠ join := fun same => other (same ▸ here)
    obtain ⟨before, after, split, dropped, _, _⟩ := joins_split found keys
    have joins : (m.decide join f).joins = before ++ after := dropped
    rw [joins, split, List.lookup_append, List.lookup_append, List.lookup_cons, beq_false_of_ne apart]
  keeps _ _ _ _ := fun ⟨e, queued, needs⟩ => ⟨e, List.mem_append_left _ queued, needs⟩
  brings _ _ e queued tells := by
    refine .inl ((List.mem_append.mp queued).resolve_right fun new => ?_)
    cases List.mem_singleton.mp new
    exact tells

end Joins

def Ticketed (m : Machine β) : Prop :=
  (m.suspended.map Prod.fst).Nodup ∧ ∀ entry ∈ m.suspended, entry.1 < m.nextTicket

structure Tallied (slots : Nat → Nat) (m : Machine β) : Prop where
  tasks : m.running = (goingTo none m.dests).countP fun d => d.isTask
  roots : ∀ slot, (goingTo none m.dests).count (.root slot) + (m.results.map Prod.fst).count slot = slots slot

/-- The books of a machine agree with what is alive in it. -/
structure Books (slots : Nat → Nat) (roll : Roll) (m : Machine β) : Prop where
  keys : (m.joins.map Prod.fst).Nodup
  tickets : m.Ticketed
  tally : m.Tallied slots
  booked : ∀ join, m.Booked roll join

variable {slots : Nat → Nat}

theorem books_idle (s : Session) : ({ session := s } : Machine β).Books (fun _ => 0) .idle where
  keys := List.nodup_nil
  tickets := ⟨List.nodup_nil, nofun⟩
  tally := ⟨rfl, fun _ => rfl⟩
  booked join := by
    have none : ({ session := s } : Machine β).joins.lookup join = none := rfl
    exact {
      children := fun _ _ member => absurd member (Multiset.notMem_zero _)
      opened := fun _ found => nomatch none.symm.trans found
      older := fun _ found => nomatch none.symm.trans found
      entry := fun _ found => nomatch none.symm.trans found
      due := fun _ found => nomatch none.symm.trans found
      arrivals := fun _ _ _ queued => absurd queued List.not_mem_nil
      offers := fun _ queued => absurd queued List.not_mem_nil }

namespace Books

theorem change (mine : Nat) (books : m.Books slots roll) (keys : (m'.joins.map Prod.fst).Nodup) (tickets : m'.Ticketed)
    (running : m'.running = m.running) (results : m'.results = m.results)
    (same : ∀ o, o ≠ some mine → SameAt o m m') (grows : ∀ join ≠ mine, roll.Extends join roll')
    (own : m'.Booked roll' mine) : m'.Books slots roll' where
  keys := keys
  tickets := tickets
  tally := by
    have alone := (same none nofun).dests
    exact ⟨by rw [running, alone]; exact books.tally.tasks, by rw [results, alone]; exact books.tally.roots⟩
  booked join := by
    by_cases mine : join = mine
    · exact mine ▸ own
    · exact (books.booked join).frame (same _ fun h => mine (Option.some.inj h)) (grows join mine)

theorem frame (books : m.Books slots roll) (joins : m'.joins = m.joins) (tickets : m'.Ticketed)
    (running : m'.running = m.running) (results : m'.results = m.results) (same : ∀ o, SameAt o m m') :
    m'.Books slots roll :=
  books.change 0 (joins ▸ books.keys) tickets running results (fun o _ => same o) (fun _ _ => .refl)
    ((books.booked 0).frame (same _) .refl)

theorem transfer (books : m.Books slots roll) (joins : m'.joins = m.joins) (nextJoin : m'.nextJoin = m.nextJoin)
    (dests : m'.dests = m.dests) (running : m'.running = m.running) (results : m'.results = m.results)
    (tickets : m'.Ticketed) (queue : ∀ e, ¬ e.Plain → (e ∈ m'.queue ↔ e ∈ m.queue)) : m'.Books slots roll :=
  books.frame joins tickets running results fun _ => sameAt_queue joins nextJoin dests queue

theorem reorder {q q' : List (Event β)} (perm : q.Perm q') (books : { m with queue := q }.Books slots roll) :
    { m with queue := q' }.Books slots roll :=
  books.frame rfl books.tickets rfl rfl fun _ => sameAt_reorder perm

theorem launch {f : Fiber β} (books : m.Books slots roll) (alone : f.dest.join? = none) :
    { m.enqueue (.run f) with running := m.running + if f.dest.isTask then 1 else 0 }.Books
      (fun slot => slots slot + if Dest.root slot = f.dest then 1 else 0) roll where
  keys := books.keys
  tickets := books.tickets
  tally := by
    have dests : goingTo none (m.enqueue (.run f)).dests = f.dest ::ₘ goingTo none m.dests := by
      rw [dests_enqueue, goingTo_add]
      exact congrArg (· + _) (goingTo_eq_self fun d member => Multiset.mem_singleton.mp member ▸ alone)
    refine ⟨?_, fun slot => ?_⟩
    · refine Eq.trans ?_ (congrArg _ dests).symm
      rw [Multiset.countP_cons, ← books.tally.tasks]
    · refine Eq.trans (congrArg (fun ds : Multiset Dest => ds.count _ + _) dests) ?_
      rw [Multiset.count_cons, Nat.add_right_comm]
      exact congrArg (· + _) (books.tally.roots slot)
  booked join := by
    have queued : SameAt (some join) m (m.enqueue (.run f)) := sameAt_enqueue fun e member => by
      rw [List.mem_singleton.mp member]
      exact fun same => nomatch alone.symm.trans same
    exact (books.booked join).frame ⟨queued.dests, queued.nextJoin, queued.entry, queued.keeps, queued.brings⟩ .refl

theorem spawn {description : String} {code : Prog Unit} (books : m.Books slots roll) :
    (m.spawn description code).Books slots roll :=
  books.launch (f := ⟨.task description, 0, code⟩) rfl

theorem quiet {j : Join β} (books : m.Books slots roll) (found : m.joins.lookup join = some j) (asking : ¬ j.Complete)
    {s : Shape} {index : Nat} {r : Except Failure s.Value} : .arrive s join index r ∉ m.queue :=
  fun queued => asking (((books.booked join).arrivals s index r queued).2 j found)

end Books

end Machine

end Ownership
