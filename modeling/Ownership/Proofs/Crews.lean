import Ownership.Proofs.Runs
import Ownership.Proofs.Waiters

namespace Ownership

open Relation (ReflGen ReflTransGen)

variable {β : Type}

structure Crew (β : Type) where
  lives : Multiset (Sigma (Live β))
  session : Session

inductive Crew.Turns (rules : Rules) (heard : Wake → Prop) : Crew β → Crew β → Prop
  | mk {roll roll' : Roll} {w w' : Moment} {t : Sigma (Live β)} {new : List (Sigma (Live β))}
    {rest : Multiset (Sigma (Live β))} {s : Session} (next : Live.Next rules heard roll w t new roll' w')
    (alike : w'.session.Alike s) : Turns rules heard ⟨t ::ₘ rest, w.session⟩ ⟨new + rest, s⟩

section Scenes

variable {rules : Rules} {heard : Wake → Prop} {x y : Scene β}

def Scene.crew (x : Scene β) : Crew β := ⟨x.lives, x.moment.session⟩

theorem Scene.Shift.turns (shift : x.Shift rules heard y) : x.crew.Turns rules heard y.crew := by
  obtain ⟨next, alike, _, _, _⟩ := shift
  exact .mk next alike.1

theorem Scene.turns_of_shifts (shifts : ReflTransGen (Scene.Shift rules heard) x y) :
    ReflTransGen (Crew.Turns rules heard) x.crew y.crew := shifts.lift Scene.crew fun _ _ => Scene.Shift.turns

end Scenes

namespace Machine

variable {m m' : Machine β} {rules : Rules} {heard : Wake → Prop}

def crew (m : Machine β) : Crew β := ⟨m.lives, m.session⟩

def Kept (m : Machine β) : Prop := ∃ slots roll, m.Books slots roll

namespace Kept

variable (kept : m.Kept)
include kept

theorem keys : (m.joins.map Prod.fst).Nodup := by
  obtain ⟨_, _, books⟩ := kept
  exact books.keys

theorem session (s : Session) : { m with session := s }.Kept := by
  obtain ⟨slots, roll, books⟩ := kept
  exact ⟨slots, roll, books.transfer rfl rfl rfl rfl rfl books.tickets fun _ _ => Iff.rfl⟩

theorem start (slot : Nat) (code : Prog β) : (m.start slot code).Kept := by
  obtain ⟨slots, roll, books⟩ := kept
  exact ⟨_, roll, books.launch (f := ⟨.root slot, 0, code⟩) rfl⟩

theorem spawn (description : String) (code : Prog Unit) : (m.spawn description code).Kept := by
  obtain ⟨slots, roll, books⟩ := kept
  exact ⟨slots, roll, books.spawn⟩

theorem no_task (ended : m.running = 0) {t : Sigma (Live β)} (alive : t ∈ m.lives) : ¬ t.1.isTask := by
  obtain ⟨_, _, books⟩ := kept
  intro task
  have member : t.1 ∈ goingTo none m.dests := by
    refine mem_goingTo.mpr ⟨Multiset.mem_add.mpr (.inl (Multiset.mem_map_of_mem _ alive)), ?_⟩
    obtain ⟨_ | _ | _, _⟩ := t
    · cases task
    · rfl
    · cases task
  exact Multiset.countP_eq_zero.mp (books.tally.tasks.symm.trans ended) t.1 member task

end Kept

theorem kept_idle (s : Session) : ({ session := s } : Machine β).Kept := ⟨_, _, books_idle s⟩

theorem leads_turn {before after : List (Event β)} {e : Event β} (kept : m.Kept) (queue : m.queue = before ++ e :: after)
    (announces : e.Announces heard m.session) : ({ m with queue := before ++ after }.handle rules e).Kept ∧
      ReflTransGen (Crew.Turns rules heard) m.crew ({ m with queue := before ++ after }.handle rules e).crew := by
  obtain ⟨slots, roll, books⟩ := kept
  let m' : Machine β := { m with queue := before ++ after }.handle rules e
  have handled : Handled rules heard slots roll m ⟨m.session, []⟩ m' ⟨m'.session, e.notes ++ []⟩ :=
    handled_turn books queue announces []
  obtain ⟨roll', books', shifts | ⟨same, _⟩⟩ := handled
  · exact ⟨⟨slots, roll', books'⟩, Scene.turns_of_shifts shifts.to_reflTransGen⟩
  · have same : m'.crew = m.crew := congrArg Scene.crew same
    exact ⟨⟨slots, roll', books'⟩, same ▸ .refl⟩

theorem turns_wake (kept : m.Kept) (ticket : Nat) {reason : Wake} (told : heard reason) :
    (m.wake ticket reason).Kept ∧ ReflGen (Crew.Turns rules heard) m.crew (m.wake ticket reason).crew := by
  obtain ⟨slots, roll, books⟩ := kept
  have woken : (m.wake ticket reason).Books slots roll ∧ ReflGen (Scene.Shift rules heard)
      ⟨roll, m.lives, ⟨m.session, []⟩⟩ ⟨roll, (m.wake ticket reason).lives, ⟨m.session, []⟩⟩ := books.wake _ ticket told
  have session : (m.wake ticket reason).session = m.session := by
    unfold wake
    split <;> rfl
  have now : (m.wake ticket reason).crew = Scene.crew ⟨roll, (m.wake ticket reason).lives, ⟨m.session, []⟩⟩ :=
    congrArg (Crew.mk _) session
  refine ⟨⟨slots, roll, woken.1⟩, ?_⟩
  rw [now]
  rcases (Relation.reflGen_iff _ _ _).mp woken.2 with same | shift
  · rw [same]
    exact .refl
  · exact .single shift.turns

end Machine

def Prog.asks {α : Type} : Prog α → List (Sigma Goal)
  | .call (s := s) g _ => [⟨s, g⟩]
  | .race _ _ tests _ => tests.map (⟨.truth, ·⟩)
  | .contest _ tests _ => tests.map (⟨.truth, ·⟩)
  | .spawn _ g _ => [⟨.unit, g⟩]
  | _ => []

def Live.asks {β : Type} {d : Dest} (s : Session) : Live β d → List (Sigma Goal)
  | .running code => code.asks
  | .gathering _ shape (group :: _) _ => (group s).map (⟨shape, ·⟩)
  | _ => []

def Machine.asks (m : Machine β) : Event β → List (Sigma Goal)
  | .run f => f.code.asks
  | .enlist join =>
    match m.joins.lookup join with
    | some j => (j.live join).2.asks m.session
    | none => []
  | _ => []

variable {before : List (Event β)}

theorem Machine.mem_lives_run {after : List (Event β)} {f : Fiber β} {m : Machine β}
    (queue : m.queue = before ++ .run f :: after) : f.live ∈ m.lives := by
  have alive : f.live ∈ Event.livesOf m.queue := by
    rw [queue, Event.livesOf_append, Event.livesOf_cons]
    exact Multiset.mem_add.mpr (.inr (Multiset.mem_add.mpr (.inl (List.mem_singleton_self _))))
  exact Multiset.mem_add.mpr (.inl (Multiset.mem_add.mpr (.inl alive)))

theorem Machine.mem_asks {after : List (Event β)} {e : Event β} {m : Machine β} (kept : m.Kept)
    (queue : m.queue = before ++ e :: after) {g : Sigma Goal} (asked : g ∈ m.asks e) :
    ∃ t ∈ m.lives, g ∈ t.2.asks m.session := by
  cases e with
  | run f => exact ⟨f.live, mem_lives_run queue, asked⟩
  | enlist join =>
    simp only [Machine.asks] at asked
    split at asked
    · rename_i j found
      refine ⟨j.live join, ?_, asked⟩
      rw [Machine.lives_split found kept.keys]
      exact Multiset.mem_cons_self _ _
    · cases asked
  | _ => cases asked

section Conduct

variable {C : Conduct} {rules : Rules} {heard : Wake → Prop} {known : Nat}

def Live.KeepsFrom (C : Conduct) (known : Nat) {d : Dest} : Live β d → Prop
  | .running code => code.KeepsFrom C known
  | .parked code => ∀ reason, (code reason).KeepsFrom C known
  | .racing _ _ code => ∀ r, (code r).KeepsFrom C known
  | .gathering _ _ groups code => (∀ group ∈ groups, ∀ s, ∀ g ∈ group s, C.Asks g) ∧ ∀ r, (code r).KeepsFrom C known
  | .contesting _ code => C.Contests ∧ ∀ r, (code r).KeepsFrom C known

theorem Live.KeepsFrom.mono {d : Dest} {t : Live β d} {more : Nat} (kept : t.KeepsFrom C known) (le : known ≤ more) :
    t.KeepsFrom C more := by
  cases t with
  | running code => exact Prog.KeepsFrom.mono kept le
  | parked code => exact fun reason => (kept reason).mono le
  | racing join decisive code => exact fun r => (kept r).mono le
  | gathering join s groups code | contesting join code => exact ⟨kept.1, fun r => (kept.2 r).mono le⟩

theorem Prog.KeepsFrom.woken {α : Type} {i : InferIndex} {speculation : Option Nat} {enough : InferVar → Bool}
    {k : Wake → Prog α} (kept : (Prog.park i speculation enough k).KeepsFrom C known) (reason : Wake) :
    (Machine.woken i speculation enough k reason).KeepsFrom C known := by
  cases reason with
  | settled => exact kept.2 .settled
  | changed =>
    intro s le
    refine ⟨.refl, ?_⟩
    dsimp only
    split
    · exact (kept.2 .changed).mono le
    · exact kept.mono le

inductive Live.Comes (C : Conduct) (rules : Rules) (d : Dest) (known : Nat) : Sigma (Live β) → Prop
  | kept {t : Live β d} (keeps : t.KeepsFrom C known) : Comes C rules d known ⟨d, t⟩
  | called {s : Shape} {g : Goal s} {k : Except Failure s.Value → Prog (d.Answer β)} (calls : C.Calls g)
    (next : ∀ r, (k r).KeepsFrom C known) : Comes C rules d known ⟨d, .running ((rules s g).andThen k)⟩
  | asked {s : Shape} {g : Goal s} {join index : Nat} (asks : C.Asks g) :
    Comes C rules d known ⟨.child s join index, .running (rules s g)⟩
  | posted {description : String} {g : Goal .unit} (posts : C.Posts g) :
    Comes C rules d known ⟨.task description, .running (rules .unit g)⟩

theorem Live.comes_asked {s : Shape} {d : Dest} {join first : Nat} {goals : List (Goal s)}
    (asks : ∀ g ∈ goals, C.Asks g) :
    ∀ t ∈ (Live.asked rules join first goals : List (Sigma (Live β))), Live.Comes C rules d known t := by
  intro t member
  obtain ⟨⟨g, index⟩, position, rfl⟩ := List.mem_map.mp member
  obtain ⟨_, _, same⟩ := List.mem_zipIdx position
  exact .asked (asks g (same ▸ List.getElem_mem _))

variable {t : Sigma (Live β)} {new : List (Sigma (Live β))} {roll roll' : Roll} {w w' : Moment}

theorem Live.Next.comes (next : Live.Next rules heard roll w t new roll' w')
    (kept : t.2.KeepsFrom C w.session.inferVars.length) :
    C.Does w.session w'.session ∧ ∀ t' ∈ new, Live.Comes C rules t.1 w'.session.inferVars.length t' := by
  have single {d : Dest} {t' : Live β d} {known : Nat} (kept : t'.KeepsFrom C known) :
      ∀ t ∈ [⟨d, t'⟩], Live.Comes C rules d known t := List.forall_mem_singleton.mpr (.kept kept)
  cases next with
  | finish => exact ⟨.refl, nofun⟩
  | update =>
    obtain ⟨does, rest⟩ := kept w.session (Nat.le_refl _)
    exact ⟨does, single (rest.mono does.known)⟩
  | call => exact ⟨.refl, List.forall_mem_singleton.mpr (.called kept.1 kept.2)⟩
  | rest | rested | note | gather join => exact ⟨.refl, single kept⟩
  | mark n => exact ⟨.refl, single (kept n)⟩
  | park => exact ⟨.refl, single fun reason => Prog.KeepsFrom.woken kept reason⟩
  | wake told | raceEnds ends => exact ⟨.refl, single (kept _)⟩
  | untested | gatherEnds ends | contestEnds ends => exact ⟨.refl, single (kept.2 _)⟩
  | race join => exact ⟨.refl, List.forall_mem_cons.mpr ⟨.kept kept.2, comes_asked kept.1⟩⟩
  | enlist known =>
    refine ⟨.refl, List.forall_mem_cons.mpr ⟨.kept ⟨fun group member => ?_, kept.2⟩, comes_asked ?_⟩⟩
    · exact kept.1 group (List.mem_cons_of_mem _ member)
    · exact kept.1 _ List.mem_cons_self w.session
  | contest join => exact ⟨.refl, List.forall_mem_cons.mpr ⟨.kept ⟨kept.1.1, kept.2⟩, comes_asked kept.1.2⟩⟩
  | spawn => exact ⟨.refl, List.forall_mem_cons.mpr ⟨.kept kept.2, List.forall_mem_singleton.mpr (.posted kept.1)⟩⟩

structure Conduct.Closed (C : Conduct) (rules : Rules) : Prop where
  calls : ∀ ⦃s⦄ (g : Goal s), C.Calls g → (rules s g).Keeps C
  asks : ∀ ⦃s⦄ (g : Goal s), C.Asks g → (rules s g).Keeps C
  posts : ∀ g, C.Posts g → (rules .unit g).Keeps C

theorem Live.Comes.keeps {d : Dest} (comes : Live.Comes C rules d known t) (closed : C.Closed rules) :
    t.2.KeepsFrom C known := by
  cases comes with
  | kept keeps => exact keeps
  | called calls next => exact Prog.KeepsFrom.andThen (closed.calls _ calls _) fun r _ le => (next r).mono le
  | asked asks => exact closed.asks _ asks _
  | posted posts => exact closed.posts _ posts _

theorem Live.keepsFrom_asked {s : Shape} {join first : Nat} {goals : List (Goal s)} (closed : C.Closed rules)
    (asks : ∀ g ∈ goals, C.Asks g) :
    ∀ t ∈ (Live.asked rules join first goals : List (Sigma (Live β))), t.2.KeepsFrom C known :=
  fun t member => (comes_asked (d := t.1) asks t member).keeps closed

theorem Live.Next.keeps (next : Live.Next rules heard roll w t new roll' w') (closed : C.Closed rules)
    (kept : t.2.KeepsFrom C w.session.inferVars.length) :
    C.Does w.session w'.session ∧ ∀ t' ∈ new, t'.2.KeepsFrom C w'.session.inferVars.length :=
  ⟨(next.comes kept).1, fun t' member => ((next.comes kept).2 t' member).keeps closed⟩

end Conduct

end Ownership
