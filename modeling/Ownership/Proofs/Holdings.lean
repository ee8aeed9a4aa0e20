import Ownership.Proofs.Crews
import Ownership.Proofs.Custody

namespace Ownership

open Relation (ReflTransGen)

variable {β : Type}

namespace Custody

variable (K : Custody) (roll : Roll)

def Replies (s : Shape) (join index : Nat) (v : s.Value) (G : Multiset Nat) : Prop :=
  ∃ asked g start, roll.asked join = ⟨s, asked⟩ ∧ asked[index]? = some (g, start) ∧ K.Gives g v G

def post : (d : Dest) → d.Answer β → Multiset Nat → Prop
  | .root _ => fun _ _ => True
  | .task _ => fun _ _ => True
  | .child s join index => K.Replies roll s join index

def Brings (join : Nat) (reply : Reply) (O : Multiset Nat) : Prop :=
  ∀ v, reply.answer = .ok v → ∃ G ≤ O, K.Replies roll reply.shape join reply.index v G

variable {K roll} {roll' : Roll}

theorem Replies.keep {s : Shape} {join index : Nat} {v : s.Value} {G : Multiset Nat}
    (replies : K.Replies roll s join index v G) (keeps : roll.Keeps roll' (some join)) :
    K.Replies roll' s join index v G := by
  obtain ⟨asked, g, start, known, position, given⟩ := replies
  obtain ⟨more, longer⟩ := keeps join rfl s asked known
  refine ⟨asked ++ more, g, start, longer, ?_, given⟩
  rw [List.getElem?_append_left (List.getElem?_eq_some_iff.mp position).1]
  exact position

theorem post_keep {d : Dest} {v : d.Answer β} {G : Multiset Nat} (posted : K.post roll d v G)
    (keeps : roll.Keeps roll' d.join?) : K.post roll' d v G := by
  cases d with
  | root slot | task description => trivial
  | child s join index => exact Replies.keep posted keeps

theorem Brings.keep {join : Nat} {reply : Reply} {O : Multiset Nat} (brings : K.Brings roll join reply O)
    (keeps : roll.Keeps roll' (some join)) : K.Brings roll' join reply O :=
  fun v same => (brings v same).imp fun _ h => ⟨h.1, h.2.keep keeps⟩

end Custody

def Live.Holds (K : Custody) (roll : Roll) : Sigma (Live β) → Multiset Nat → Prop
  | ⟨d, .running code⟩, O => code.Tracks K (K.post roll d) O
  | ⟨d, .parked code⟩, O => ∀ wake, (code wake).Tracks K (K.post roll d) O
  | ⟨d, .racing _ _ code⟩, O => ∀ r, (code r).Tracks K (K.post roll d) O
  | ⟨d, .gathering join s groups code⟩, O => ∃ asked, roll.asked join = ⟨s, asked⟩ ∧ ∃ I F, I + F ≤ O ∧
    Shared (K.Brings roll join) (roll.told join) I ∧
      K.Gathers (fun r => (code r).Tracks K (K.post roll d)) groups (asked.map Prod.fst) F
  | ⟨d, .contesting _ code⟩, O => ∀ r, (code r).Tracks K (K.post roll d) O

section Fibers

variable {K : Custody} {rules : Rules} {heard : Wake → Prop} {roll roll' : Roll} {w w' : Moment} {I O : Multiset Nat}
  {t : Sigma (Live β)} {join : Nat} {s : Shape}

namespace Live.Holds

theorem hear (told : List Reply) (holds : Live.Holds K roll t O) (keeps : roll.Keeps roll' t.1.join?)
    (asked : ∀ join, t.2.join? = some join → roll'.asked join = roll.asked join)
    (heard : ∀ join, t.2.join? = some join → roll'.told join = told ++ roll.told join ∧
      Shared (K.Brings roll join) told I) : Live.Holds K roll' t (I + O) := by
  obtain ⟨d, t⟩ := t
  have goes_on {p : Prog (d.Answer β)} {G : Multiset Nat} (tracks : p.Tracks K (K.post roll d) G) :
      p.Tracks K (K.post roll' d) G := tracks.imp fun _ _ posted => Custody.post_keep posted keeps
  have more {p : Prog (d.Answer β)} (tracks : p.Tracks K (K.post roll d) O) : p.Tracks K (K.post roll' d) (I + O) :=
    (goes_on tracks).mono (Multiset.le_add_left O I)
  cases t with
  | running code => exact more holds
  | parked code => exact fun wake => more (holds wake)
  | racing join decisive code | contesting join code => exact fun r => more (holds r)
  | gathering join s groups code =>
    obtain ⟨goals, known, J, F, parts, kept, gathers⟩ := holds
    obtain ⟨now, brought⟩ := heard join rfl
    refine ⟨goals, (asked join rfl).trans known, I + J, F, ?_, ?_, ?_⟩
    · rw [add_assoc]
      exact add_le_add_right parts I
    · rw [now]
      refine (Shared.append.mpr ⟨I, J, le_rfl, brought, kept⟩).imp fun reply _ _ brings => brings.keep ?_
      exact .of_eq fun _ same => Option.some.inj same ▸ asked join rfl
    · exact gathers.frame (add_zero F).le fun r G G' rest more => (goes_on rest).mono ((add_zero G).ge.trans more)

theorem frame (holds : Live.Holds K roll t O) (keeps : roll.Keeps roll' t.1.join?)
    (same : ∀ join, t.2.join? = some join → roll'.asked join = roll.asked join ∧ roll'.told join = roll.told join) :
    Live.Holds K roll' t O := by
  have heard := holds.hear (I := 0) [] keeps (fun join waits => (same join waits).1) fun join waits =>
    ⟨(same join waits).2, trivial⟩
  rwa [zero_add] at heard

end Live.Holds

theorem brings_of_done {index : Nat} {r : Except Failure s.Value}
    (tracks : (Prog.done r).Tracks K (K.Replies roll s join index) O) : K.Brings roll join ⟨index, r⟩ O := by
  intro v (same : r = .ok v)
  rw [same] at tracks
  exact tracks

/-- An answer goes to whoever waits for it. -/
theorem shared_telling {lives : List (Sigma (Live β))} {index : Nat} (r : Except Failure s.Value)
    (shared : Shared (Live.Holds K roll) lives O) (apart : (lives.filterMap fun t => t.2.join?).Nodup)
    (brings : K.Brings roll join ⟨index, r⟩ I) : Shared (Live.Holds K (roll.telling join index r)) lives (I + O) := by
  have keeps (o : Option Nat) : roll.Keeps (roll.telling join index r) o := .of_eq fun _ _ => rfl
  have frame {t : Sigma (Live β)} {F : Multiset Nat} (elsewhere : t.2.join? ≠ some join) (holds : Live.Holds K roll t F) :
      Live.Holds K (roll.telling join index r) t F :=
    holds.frame (keeps _) fun other waits => ⟨rfl, Roll.told_telling_of_ne r fun same => elsewhere (same ▸ waits)⟩
  induction lives generalizing O with
  | nil => trivial
  | cons t lives ih =>
    obtain ⟨J, F, parts, own, rest⟩ := shared
    by_cases here : t.2.join? = some join
    · simp only [List.filterMap_cons, here, List.nodup_cons] at apart
      refine ⟨I + J, F, ?_, own.hear [⟨index, r⟩] (keeps _) (fun _ _ => rfl) fun other waits => ?_,
        rest.imp fun t' member F holds => frame (fun waits => apart.1 (List.mem_filterMap.mpr ⟨t', member, waits⟩)) holds⟩
      · rw [add_assoc]
        exact add_le_add_right parts I
      · cases here.symm.trans waits
        exact ⟨Roll.told_telling r, I, 0, (add_zero I).le, brings, trivial⟩
    · refine ⟨J, I + F, ?_, frame here own, ih rest ?_⟩
      · rw [add_left_comm]
        exact add_le_add_right parts I
      · exact apart.sublist ((List.sublist_cons_self t lives).filterMap _)

theorem shared_asked (tracked : rules.Tracked K) (before : List (Goal s × Moment)) {goals : List (Goal s)}
    (known : roll.asked join = ⟨s, before ++ goals.map (·, w)⟩) (taken : Shared (fun g => K.Takes g) goals O) :
    Shared (Live.Holds K roll) (Live.asked rules join before.length goals : List (Sigma (Live β))) O := by
  induction goals generalizing before O with
  | nil => trivial
  | cons g goals ih =>
    obtain ⟨I, F, parts, own, rest⟩ := taken
    refine ⟨I, F, parts, (tracked s g I own).imp fun v G given => ⟨_, g, w, known, ?_, given⟩, ?_⟩
    · rw [List.getElem?_append_right (Nat.le_refl _), Nat.sub_self]
      rfl
    · have longer := ih (before ++ [(g, w)]) (by rw [known, List.append_assoc]; rfl) rest
      rwa [List.length_append] at longer

theorem tracks_woken {α : Type} {i : InferIndex} {speculation : Option Nat} {enough : InferVar → Bool} {k : Wake → Prog α}
    {Q : α → Multiset Nat → Prop} (tracks : (Prog.park i speculation enough k).Tracks K Q O) (reason : Wake) :
    (Machine.woken i speculation enough k reason).Tracks K Q O := by
  cases reason with
  | settled => exact tracks .settled
  | changed =>
    intro s safe _ _
    refine ⟨le_rfl, safe, Prog.Tracks.mono ?_ (Multiset.le_add_right O _)⟩
    dsimp only
    split
    · exact tracks .changed
    · exact tracks

/-- What was told as the answers of a gathering brings what their goals give. -/
theorem givesAll_of_told {asked : List (Goal s × Moment)} {vs : List s.Value} (known : roll.asked join = ⟨s, asked⟩)
    (length : vs.length = asked.length) (told : ∀ index v, vs[index]? = some v → roll.Told join s index (.ok v))
    (shared : Shared (K.Brings roll join) (roll.told join) O) : K.GivesAll (asked.map Prod.fst) vs O := by
  classical
  let reply (a : s.Value × Nat) : Reply := ⟨a.2, .ok a.1⟩
  have fewer : (vs.zipIdx.map reply).Subperm (roll.told join) := by
    refine List.subperm_of_subset (.of_map Reply.index ?_) fun r member => ?_
    · rw [List.map_map]
      exact (List.zipIdx_map_snd 0 vs).symm ▸ List.nodup_range'
    · obtain ⟨⟨v, index⟩, position, rfl⟩ := List.mem_map.mp member
      exact told index v (List.mem_zipIdx_iff_getElem?.mp position)
  obtain ⟨replies, same, sub⟩ := fewer
  have mine : Shared (fun a => K.Brings roll join (reply a)) vs.zipIdx O :=
    Shared.map.mp ((shared.sublist sub).perm same)
  have give (first : Nat) (vs : List s.Value) (rest : List (Goal s × Moment)) (O : Multiset Nat)
      (tail : asked.drop first = rest) (mine : Shared (fun a => K.Brings roll join (reply a)) (vs.zipIdx first) O) :
      Shared (fun a => K.Gives a.1 a.2) ((rest.map Prod.fst).zip vs) O := by
    induction vs generalizing first rest O with
    | nil =>
      rw [List.zip_nil_right]
      trivial
    | cons v vs ih =>
      cases rest with
      | nil => trivial
      | cons a rest =>
        obtain ⟨I, F, parts, own, others⟩ := mine
        obtain ⟨G, le, asked', g, start, known', position, given⟩ := own v rfl
        cases known.symm.trans known'
        have here : asked[first]? = some a := by
          rw [← List.head?_drop, tail]
          rfl
        cases here.symm.trans position
        refine ⟨G, F, (add_le_add_left le F).trans parts, given, ih (first + 1) rest F ?_ others⟩
        rw [← List.drop_drop, tail]
        rfl
  exact ⟨by rw [List.length_map, length], give 0 vs asked O rfl mine⟩

/-- A fiber that goes on hands over only what it holds or was given out to it. -/
theorem Live.Next.hands {new : List (Sigma (Live β))} (next : Live.Next rules heard roll w t new roll' w')
    (tracked : rules.Tracked K) (keeps : roll.Keeps roll' t.1.join?) (safe : K.Safe w.session)
    (holds : Live.Holds K roll t O) (nodup : O.Nodup) (first : ∀ n ∈ O, K.first ≤ n) :
    w.session.nextSymbol ≤ w'.session.nextSymbol ∧ K.Safe w'.session ∧
      (new ≠ [] → Shared (Live.Holds K roll') new (O + w.session.numbers w'.session)) := by
  obtain ⟨d, t⟩ := t
  have goes_on {p : Prog (d.Answer β)} {G : Multiset Nat} (tracks : p.Tracks K (K.post roll d) G) :
      p.Tracks K (K.post roll' d) G := tracks.imp fun _ _ posted => Custody.post_keep posted keeps
  have still {new : List (Sigma (Live β))} (shared : Shared (Live.Holds K roll') new O) :
      w.session.nextSymbol ≤ w.session.nextSymbol ∧ K.Safe w.session ∧
        (new ≠ [] → Shared (Live.Holds K roll') new (O + w.session.numbers w.session)) :=
    ⟨le_rfl, safe, fun _ => shared.mono (Multiset.le_add_right _ _)⟩
  have single {t : Live β d} (holds : Live.Holds K roll' ⟨d, t⟩ O) : Shared (Live.Holds K roll') [⟨d, t⟩] O :=
    Shared.single.mpr ⟨O, le_rfl, holds⟩
  have opened {join : Nat} {tests : List (Goal .truth)} {t : Live β d} (known : roll'.asked join = ⟨.truth, tests.map (·, w)⟩)
      (taken : ∀ g ∈ tests, K.Takes g 0) (holds : Live.Holds K roll' ⟨d, t⟩ O) :
      Shared (Live.Holds K roll') (⟨d, t⟩ :: Live.asked rules join 0 tests) O :=
    ⟨O, 0, (add_zero O).le, holds, shared_asked tracked [] known (.of_forall taken)⟩
  cases next with
  | finish => exact ⟨le_rfl, safe, fun some => absurd rfl some⟩
  | update =>
    obtain ⟨later, safe', rest⟩ := holds w.session safe nodup first
    exact ⟨later, safe', fun _ => Shared.single.mpr ⟨_, le_rfl, rest⟩⟩
  | call =>
    obtain ⟨I, F, parts, taken, answered, failed⟩ := holds
    exact still (single (((tracked _ _ I taken).andThen answered failed).mono parts))
  | rest | rested | note => exact still (single holds)
  | mark n => exact still (single (holds n))
  | park => exact still (single fun reason => tracks_woken holds reason)
  | wake told | raceEnds ends | contestEnds ends => exact still (single (holds _))
  | untested => exact still (single (holds.2 _))
  | race join | contest join =>
    exact still (opened (Roll.asked_opening _) holds.1 fun r => goes_on (holds.2 r))
  | gather join =>
    refine still (single ⟨[], Roll.asked_opening _, 0, O, (zero_add O).le, ?_, ?_⟩)
    · rw [Roll.told_opening]
      trivial
    · exact Custody.Gathers.frame holds (add_zero O).le fun r G G' rest more =>
        (goes_on rest).mono ((add_zero G).ge.trans more)
  | @enlist _ join s group groups code asked known =>
    obtain ⟨asked', known', J, F, parts, kept, gathers⟩ := holds
    cases known.symm.trans known'
    obtain ⟨I, F', parts', taken, gathers⟩ := gathers w.session
    refine still ⟨J + F', I, ?_, ⟨_, Roll.asked_asking _, J, F', le_rfl, ?_, ?_⟩,
      shared_asked tracked asked (Roll.asked_asking _) taken⟩
    · rw [add_assoc, add_comm F']
      exact (add_le_add_right parts' J).trans parts
    · exact Shared.imp kept fun reply _ _ brings => brings.keep (Roll.keeps_asking known _ _)
    · rw [List.map_append, List.map_map]
      refine Custody.Gathers.frame ?_ (add_zero F').le fun r G G' rest more =>
        (goes_on rest).mono ((add_zero G).ge.trans more)
      exact (List.map_id (group w.session)).symm ▸ gathers
  | @gatherEnds _ join s code r ends =>
    obtain ⟨asked, known, J, F, parts, kept, answered, failed⟩ := holds
    refine still (single (Prog.Tracks.mono ?_ parts))
    cases r with
    | error e => exact failed e J
    | ok vs =>
      obtain ⟨length, told⟩ := ends
      rw [Roll.count, known] at length
      exact answered vs J (givesAll_of_told known length told kept)
  | spawn =>
    refine still ⟨O, 0, (add_zero O).le, holds.2, 0, 0, le_rfl, ?_, trivial⟩
    exact (tracked .unit _ 0 holds.1).imp fun _ _ _ => trivial

theorem Live.Next.told_of_ne {new : List (Sigma (Live β))} (next : Live.Next rules heard roll w t new roll' w')
    (goes_on : new ≠ []) (grows : roll.Extends join roll') : roll'.told join = roll.told join := by
  have opening {own : Nat} {asked : (s : Shape) × List (Goal s × Moment)} (grows : roll.Extends join (roll.opening own asked)) :
      (roll.opening own asked).told join = roll.told join := by
    by_cases same : join = own
    · subst same
      have none := grows.told
      rw [Roll.told_opening] at none ⊢
      exact (List.subset_nil.mp none).symm
    · exact Roll.told_opening_of_ne _ same
  cases next with
  | finish => exact absurd rfl goes_on
  | race | gather | contest => exact opening grows
  | _ => rfl

end Fibers

/-- Every number that was given out has at most one holder. -/
structure Scene.Guarded (K : Custody) (x : Scene β) : Prop where
  started : K.first ≤ x.moment.session.nextSymbol
  safe : K.Safe x.moment.session
  held : ∃ lives O, Multiset.ofList lives = x.lives ∧ Shared (Live.Holds K x.roll) lives O ∧ O.Nodup ∧
    ∀ n ∈ O, K.first ≤ n ∧ n < x.moment.session.nextSymbol

section Scenes

variable {K : Custody} {rules : Rules} {heard : Wake → Prop} {x y : Scene β}

theorem Scene.Shift.guarded (shift : x.Shift rules heard y) (tracked : rules.Tracked K) (guarded : x.Guarded K) :
    y.Guarded K := by
  obtain @⟨roll, roll', w, w', w'', t, new, rest, next, alike, keeps, waiting, apart⟩ := shift
  obtain ⟨started, safe, lives, O, same, shared, nodup, bounds⟩ := guarded
  obtain ⟨others, rfl⟩ := Quot.exists_rep rest
  change ↑lives = t ::ₘ (others : Multiset _) at same
  obtain ⟨I, F, parts, own, shared⟩ := shared.perm (Multiset.coe_eq_coe.mp (same.trans (Multiset.cons_coe t others)))
  have mine : I ≤ O := (Multiset.le_add_right I F).trans parts
  obtain ⟨later, safe', hands⟩ := next.hands tracked (keeps t (Multiset.mem_cons_self _ _)) safe own
    (Multiset.nodup_of_le mine nodup) fun n member => (bounds n (Multiset.mem_of_le mine member)).1
  obtain ⟨⟨_, _, _, _, last⟩, _⟩ := alike
  have symbols : w''.session.nextSymbol = w'.session.nextSymbol := by rw [last]
  have outcome : w''.session.outcome = w'.session.outcome := by rw [last]
  refine ⟨symbols ▸ started.trans later, fun e kept => safe' e (outcome ▸ kept), new ++ others,
    O + w.session.numbers w'.session, (Multiset.coe_add new others).symm, ?_, ?_, fun n member => ?_⟩
  · have goes_on (some : new ≠ []) : Shared (Live.Holds K roll') (new ++ others) (O + w.session.numbers w'.session) := by
      refine Shared.append.mpr ⟨I + w.session.numbers w'.session, F, ?_, hands some, shared.imp fun t' member _ holds => ?_⟩
      · rw [add_right_comm]
        exact add_le_add_left parts _
      · refine holds.frame (keeps t' (Multiset.mem_cons_of_mem member)) fun join waits => ?_
        have grows := waiting t' member join waits
        exact ⟨grows.asked, next.told_of_ne some grows⟩
    cases next with
    | @finish d r =>
      have le {G : Multiset Nat} (le : G ≤ I + F) : G ≤ O + w.session.numbers w.session :=
        (le.trans parts).trans (Multiset.le_add_right _ _)
      cases d with
      | root slot | task description => exact shared.mono (le (Multiset.le_add_left F I))
      | child s join index =>
        have fewer : joinsOf (others : Multiset _) ≤ joinsOf (⟨.child s join index, .running (.done r)⟩ ::ₘ others) :=
          Multiset.filterMap_le_filterMap _ (Multiset.le_cons_self _ _)
        have apart : (others.filterMap fun t => t.2.join?).Nodup := Multiset.coe_nodup.mp (Multiset.nodup_of_le fewer apart)
        exact (shared_telling r shared apart (brings_of_done own)).mono (le le_rfl)
    | _ => exact goes_on (List.cons_ne_nil _ _)
  · refine Multiset.nodup_add.mpr ⟨nodup, Session.nodup_numbers _ _, ?_⟩
    rw [Multiset.disjoint_left]
    intro n old new
    exact Nat.not_lt.mpr (Session.mem_numbers.mp new).1 (bounds n old).2
  · change K.first ≤ n ∧ n < w''.session.nextSymbol
    rw [symbols]
    rcases Multiset.mem_add.mp member with old | new
    · exact ⟨(bounds n old).1, (bounds n old).2.trans_le later⟩
    · exact ⟨started.trans (Session.mem_numbers.mp new).1, (Session.mem_numbers.mp new).2⟩

theorem Scene.guarded_of_shifts (shifts : ReflTransGen (Scene.Shift rules heard) x y) (tracked : rules.Tracked K)
    (guarded : x.Guarded K) : y.Guarded K := by
  induction shifts with
  | refl => exact guarded
  | tail _ shift ih => exact shift.guarded tracked ih

end Scenes

namespace Machine

variable {K : Custody} {m m' : Machine β} {rules : Rules}

def Guarded (K : Custody) (m : Machine β) : Prop :=
  ∃ slots roll, m.Books slots roll ∧ Scene.Guarded K ⟨roll, m.lives, ⟨m.session, []⟩⟩

theorem guarded_idle {s : Session} (new : s.outcome = none) (started : K.first ≤ s.nextSymbol) :
    ({ session := s } : Machine β).Guarded K := by
  refine ⟨_, _, books_idle s, started, fun e kept => (nomatch new.symm.trans kept), [], 0, rfl, trivial,
    Multiset.nodup_zero, fun n none => ?_⟩
  exact absurd none (Multiset.notMem_zero n)

namespace Guarded

variable (guarded : m.Guarded K)
include guarded

theorem safe : K.Safe m.session := by
  obtain ⟨_, _, _, scene⟩ := guarded
  exact scene.safe

theorem steady {s : Session} (same : m.session.Steady s) : { m with session := s }.Guarded K := by
  obtain ⟨slots, roll, books, started, safe, lives, O, alive, shared, nodup, bounds⟩ := guarded
  refine ⟨slots, roll, books.transfer rfl rfl rfl rfl rfl books.tickets fun _ _ => Iff.rfl, same.1.symm ▸ started,
    fun e kept => safe e (same.2 ▸ kept), lives, O, alive, shared, nodup, fun n member => ?_⟩
  change _ ∧ n < s.nextSymbol
  rw [same.1]
  exact bounds n member

variable (tracked : rules.Tracked K)
include tracked

theorem spawn {g : Goal .unit} (description : String) (taken : K.Takes g 0) :
    (m.spawn description (rules .unit g)).Guarded K := by
  obtain ⟨slots, roll, books, started, safe, lives, O, alive, shared, nodup, bounds⟩ := guarded
  let task : Sigma (Live β) := ⟨.task description, .running (rules .unit g)⟩
  have after : (m.spawn description (rules .unit g)).lives = task ::ₘ m.lives := lives_enqueue m _
  refine ⟨slots, roll, books.spawn, started, safe, task :: lives, O, ?_, ⟨0, O, (zero_add O).le, ?_, shared⟩, nodup, bounds⟩
  · change Multiset.ofList (task :: lives) = (m.spawn description (rules .unit g)).lives
    rw [after, ← Multiset.cons_coe]
    exact congrArg _ alive
  · exact (tracked .unit g 0 taken).imp fun _ _ _ => trivial

theorem turn (step : m.step rules = some m') : m'.Guarded K := by
  unfold Machine.step at step
  split at step
  · cases step
  rename_i e rest queue
  cases step
  obtain ⟨slots, roll, books, scene⟩ := guarded
  let m' : Machine β := { m with queue := rest }.handle rules e
  have first : m.queue = [] ++ e :: rest := queue
  have handled : Handled rules (fun _ => True) slots roll m ⟨m.session, []⟩ m' ⟨m'.session, e.notes ++ []⟩ :=
    handled_turn books first (e.announces_any _) []
  obtain ⟨roll', books', shifts | ⟨same, _⟩⟩ := handled
  · have after := Scene.guarded_of_shifts shifts.to_reflTransGen tracked scene
    exact ⟨slots, roll', books', after.started, after.safe, after.held⟩
  · have after : Scene.Guarded K ⟨roll', m'.lives, ⟨m'.session, e.notes ++ []⟩⟩ := same ▸ scene
    exact ⟨slots, roll', books', after.started, after.safe, after.held⟩

theorem deliver (signals : List Signal) : (signals.foldl Machine.deliver m).Guarded K := by
  obtain ⟨slots, roll, books, scene⟩ := guarded
  let m' := signals.foldl Machine.deliver m
  have delivered : m'.Books slots roll ∧ ReflTransGen (Scene.Shift rules fun _ => True) ⟨roll, m.lives, ⟨m.session, []⟩⟩
      ⟨roll, m'.lives, ⟨m.session, []⟩⟩ := books.deliver _ fun _ _ _ => trivial
  have session : m'.session = m.session := session_deliver
  refine ⟨slots, roll, delivered.1, ?_⟩
  change Scene.Guarded K ⟨roll, m'.lives, ⟨m'.session, []⟩⟩
  rw [session]
  exact Scene.guarded_of_shifts delivered.2 tracked scene

theorem deliverSignals : m.deliverSignals.Guarded K := by
  unfold Machine.deliverSignals
  dsimp only
  split
  · exact guarded
  · exact (guarded.steady (s := { m.session with signals := [] }) ⟨rfl, rfl⟩).deliver tracked _

theorem settleOldest : m.settleOldest.2.Guarded K := by
  have steady := Action.steady_settleOldest m.running m.session
  rw [Action.exec] at steady
  unfold Machine.settleOldest
  split
  · rename_i ticket session settled
    rw [settled] at steady
    exact (guarded.steady steady).deliver tracked [.wake ticket .settled]
  · rename_i e session settled
    rw [settled] at steady
    exact guarded.steady steady

variable (requires : ∀ env lower upper o, K.Takes (.subTys env lower upper o) 0)
include requires

theorem applyDefault (i : InferIndex) (v : InferVar) (fallback : Default) :
    (m.applyDefault rules i v fallback).2.Guarded K := by
  cases fallback with
  | numeric env o =>
    have logged := guarded.steady
      (Action.steady_log env.depth "numeric default" [(Ty.infer i).render, (m.defaultTy v).render] m.session)
    exact logged.spawn tracked _ (requires _ _ _ _)
  | bound target b =>
    exact (guarded.steady (Change.steady (.lower target b) m.session)).deliverSignals tracked

theorem applyFallback (vars : List (InferVar × InferIndex)) : (m.applyFallback rules vars).2.Guarded K := by
  induction vars generalizing m with
  | nil => exact guarded
  | cons entry rest ih =>
    obtain ⟨v, i⟩ := entry
    rw [Machine.applyFallback]
    split
    · exact ih guarded
    · rename_i fallback _
      have cleared := guarded.steady (s := { m.session with
        inferVars := m.session.inferVars.modify i fun v => { v with fallback := none } }) ⟨rfl, rfl⟩
      dsimp only
      split
      · exact ih cleared
      · have logged := cleared.steady (Action.steady_log 0 "applying default for" [v.render i] _)
        exact logged.applyDefault tracked requires i v fallback

/-- However long a machine is driven, no two hold the same number. -/
theorem drive (fuel rounds : Nat) : (m.drive rules fuel rounds).2.Guarded K :=
  drive_keeps (fun _ _ guarded step => guarded.turn tracked step)
    (fun _ guarded => guarded.applyFallback tracked requires _) (fun _ guarded => guarded.settleOldest tracked) guarded fuel
    rounds

end Guarded

end Machine

end Ownership
