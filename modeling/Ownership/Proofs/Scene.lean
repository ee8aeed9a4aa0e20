import Mathlib.Logic.Relation
import Ownership.Proofs.Books

namespace Ownership

variable {β : Type}

def Moment.Alike (w w' : Moment) : Prop := w.session.Alike w'.session ∧ w'.answers = w.answers

theorem Moment.Alike.refl (w : Moment) : w.Alike w := ⟨.refl _, rfl⟩

theorem Contract.Leads.quiet {C : Contract} {w w' w'' : Moment} (leads : C.Leads w w')
    (alike : w'.Alike w'') : C.Leads w w'' := by
  obtain ⟨session, answers⟩ := w''
  obtain ⟨same, rfl⟩ := alike
  exact leads.alike same

def Live.asked {s : Shape} (rules : Rules) (join first : Nat) (goals : List (Goal s)) :
    List (Sigma (Live β)) :=
  (goals.zipIdx first).map fun (g, index) => ⟨.child s join index, .running (rules s g)⟩

def Live.Meets (C : Contract) (A : Asks) (roll : Roll) {d : Dest} :
    Live β d → (Except Failure (d.Answer β) → Moment → Prop) → Moment → Prop
  | .running code, Q, w => code.Meets C A d.Owing Q w
  | .parked code, Q, w => C.Waits ∧ ∀ wake, (code wake).Meets C A d.Owing Q w
  | .racing join decisive code, Q, w => ∃ asked, roll.asked join = ⟨.truth, asked⟩ ∧
    ∀ r w', C.Leads w w' → C.RaceEnds decisive asked r w' → (code r).Meets C A d.Owing Q w'
  | .gathering join s groups code, Q, w => ∃ asked, roll.asked join = ⟨s, asked⟩ ∧
    C.Gathers A (fun r w' => (code r).Meets C A d.Owing Q w') groups asked w
  | .contesting join code, Q, w => C.Waits ∧ ∃ asked, roll.asked join = ⟨.truth, asked⟩ ∧
    ∀ r w', C.Leads w w' → C.ContestEnds asked r w' → (code r).Meets C A d.Owing Q w'

/-- One step of a fiber: what becomes of it and what it starts. One that is woken is told a reason that may be
heard. -/
inductive Live.Next (rules : Rules) (heard : Wake → Prop) (roll : Roll) (w : Moment) :
    Sigma (Live β) → List (Sigma (Live β)) → Roll → Moment → Prop where
  | finish {d : Dest} {r : Except Failure (d.Answer β)} :
    Next rules heard roll w ⟨d, .running (.done r)⟩ [] (roll.hearing d r) w
  | update {d : Dest} {f : Session → Session} {k : Session → Prog (d.Answer β)} :
    Next rules heard roll w ⟨d, .running (.update f k)⟩ [⟨d, .running (k w.session)⟩] roll (w.after f)
  | call {d : Dest} {s : Shape} {g : Goal s} {k : Except Failure s.Value → Prog (d.Answer β)} :
    Next rules heard roll w ⟨d, .running (.call g k)⟩ [⟨d, .running ((rules s g).andThen k)⟩] roll w
  | rest {d : Dest} {turns : Nat} {k : Prog (d.Answer β)} :
    Next rules heard roll w ⟨d, .running (.rest (turns + 1) k)⟩ [⟨d, .running (.rest turns k)⟩] roll w
  | rested {d : Dest} {k : Prog (d.Answer β)} :
    Next rules heard roll w ⟨d, .running (.rest 0 k)⟩ [⟨d, .running k⟩] roll w
  | mark {d : Dest} {k : Nat → Prog (d.Answer β)} (n : Nat) :
    Next rules heard roll w ⟨d, .running (.mark k)⟩ [⟨d, .running (k n)⟩] roll w
  | note {d : Dest} {s : Shape} {g : Goal s} {r : Except Failure s.Value} {k : Prog (d.Answer β)} :
    Next rules heard roll w ⟨d, .running (.note g r k)⟩ [⟨d, .running k⟩] roll (w.noting g r)
  | park {d : Dest} {i : InferIndex} {speculation : Option Nat} {enough : InferVar → Bool}
      {k : Wake → Prog (d.Answer β)} :
    Next rules heard roll w ⟨d, .running (.park i speculation enough k)⟩
      [⟨d, .parked (Machine.woken i speculation enough k)⟩] roll w
  | wake {d : Dest} {code : Wake → Prog (d.Answer β)} {reason : Wake} (told : heard reason) :
    Next rules heard roll w ⟨d, .parked code⟩ [⟨d, .running (code reason)⟩] roll w
  | untested {d : Dest} {decisive passed : Bool} {k : Except Failure Bool → Prog (d.Answer β)} :
    Next rules heard roll w ⟨d, .running (.race decisive passed [] k)⟩ [⟨d, .running (k (.ok !decisive))⟩] roll w
  | race {d : Dest} {decisive passed : Bool} {tests : List (Goal .truth)}
      {k : Except Failure Bool → Prog (d.Answer β)} (join : Nat) :
    Next rules heard roll w ⟨d, .running (.race decisive passed tests k)⟩
      (⟨d, .racing join decisive k⟩ :: Live.asked rules join 0 tests) (roll.opening join ⟨.truth, tests.map (·, w)⟩) w
  | raceEnds {d : Dest} {join : Nat} {decisive : Bool} {code : Except Failure Bool → Prog (d.Answer β)}
      {r : Except Failure Bool} (ends : roll.RaceEnds join decisive r) :
    Next rules heard roll w ⟨d, .racing join decisive code⟩ [⟨d, .running (code r)⟩] roll w
  | gather {d : Dest} {s : Shape} {groups : List (Session → List (Goal s))}
      {k : Except Failure (List s.Value) → Prog (d.Answer β)} (join : Nat) :
    Next rules heard roll w ⟨d, .running (.gather groups k)⟩ [⟨d, .gathering join s groups k⟩] (roll.opening join ⟨s, []⟩) w
  | enlist {d : Dest} {join : Nat} {s : Shape} {group : Session → List (Goal s)}
      {groups : List (Session → List (Goal s))} {code : Except Failure (List s.Value) → Prog (d.Answer β)}
      {asked : List (Goal s × Moment)} (known : roll.asked join = ⟨s, asked⟩) :
    Next rules heard roll w ⟨d, .gathering join s (group :: groups) code⟩
      (⟨d, .gathering join s groups code⟩ :: Live.asked rules join asked.length (group w.session))
      (roll.asking join ⟨s, asked ++ (group w.session).map (·, w)⟩) w
  | gatherEnds {d : Dest} {join : Nat} {s : Shape} {code : Except Failure (List s.Value) → Prog (d.Answer β)}
      {r : Except Failure (List s.Value)} (ends : roll.GatherEnds join s r) :
    Next rules heard roll w ⟨d, .gathering join s [] code⟩ [⟨d, .running (code r)⟩] roll w
  | contest {d : Dest} {search : Nat} {tests : List (Goal .truth)}
      {k : Except Failure (Option Bool) → Prog (d.Answer β)} (join : Nat) :
    Next rules heard roll w ⟨d, .running (.contest search tests k)⟩
      (⟨d, .contesting join k⟩ :: Live.asked rules join 0 tests) (roll.opening join ⟨.truth, tests.map (·, w)⟩) w
  | contestEnds {d : Dest} {join : Nat} {code : Except Failure (Option Bool) → Prog (d.Answer β)}
      {r : Except Failure (Option Bool)} (ends : roll.ContestEnds join r) :
    Next rules heard roll w ⟨d, .contesting join code⟩ [⟨d, .running (code r)⟩] roll w
  | spawn {d : Dest} {description : String} {g : Goal .unit} {k : Prog (d.Answer β)} :
    Next rules heard roll w ⟨d, .running (.spawn description g k)⟩
      [⟨d, .running k⟩, ⟨.task description, .running (rules .unit g)⟩] roll w

structure Scene (β : Type) where
  roll : Roll
  lives : Multiset (Sigma (Live β))
  moment : Moment

def Roll.Keeps (roll roll' : Roll) (join? : Option Nat) : Prop :=
  ∀ join, join? = some join → ∀ s asked, roll.asked join = ⟨s, asked⟩ →
    ∃ more, roll'.asked join = ⟨s, asked ++ more⟩

theorem Roll.Keeps.of_eq {roll roll' : Roll} {join? : Option Nat}
    (same : ∀ join, join? = some join → roll'.asked join = roll.asked join) : roll.Keeps roll' join? :=
  fun join h s asked known => ⟨[], by rw [same join h, known, List.append_nil]⟩

theorem Roll.keeps_asking {roll : Roll} {join : Nat} {s : Shape} {asked : List (Goal s × Moment)}
    (known : roll.asked join = ⟨s, asked⟩) (more : List (Goal s × Moment)) (join? : Option Nat) :
    roll.Keeps (roll.asking join ⟨s, asked ++ more⟩) join? := by
  intro other _ s' asked' known'
  by_cases own : other = join
  · subst own
    cases known.symm.trans known'
    exact ⟨more, Function.update_self ..⟩
  · exact ⟨[], by rw [List.append_nil, ← known']; exact Function.update_of_ne own ..⟩

def joinsOf (lives : Multiset (Sigma (Live β))) : Multiset Nat := lives.filterMap fun t => t.2.join?

/-- One of the fibers goes a step further. -/
inductive Scene.Shift (rules : Rules) (heard : Wake → Prop) : Scene β → Scene β → Prop where
  | mk {roll roll' : Roll} {w w' w'' : Moment} {t : Sigma (Live β)} {new : List (Sigma (Live β))}
    {rest : Multiset (Sigma (Live β))} (next : Live.Next rules heard roll w t new roll' w') (alike : w'.Alike w'')
    (keeps : ∀ t' ∈ t ::ₘ rest, roll.Keeps roll' t'.1.join?)
    (waiting : ∀ t' ∈ rest, ∀ join, t'.2.join? = some join → roll.Extends join roll')
    (apart : (joinsOf (t ::ₘ rest)).Nodup) :
    Shift rules heard ⟨roll, t ::ₘ rest, w⟩ ⟨roll', new + rest, w''⟩

namespace Contract

variable (C : Contract)

def Replies (roll : Roll) (s : Shape) (join index : Nat) (r : Except Failure s.Value) (w : Moment) : Prop :=
  ∃ asked g start, roll.asked join = ⟨s, asked⟩ ∧ asked[index]? = some (g, start) ∧ C.Post g start r w

/-- Whatever was told is as it should be. -/
def Vouches (roll : Roll) (w : Moment) : Prop :=
  ∀ join, ∀ reply ∈ roll.told join, C.Replies roll reply.shape join reply.index reply.answer w

variable {C} {roll roll' : Roll} {w w' : Moment} {s : Shape} {join index : Nat} {r : Except Failure s.Value}

theorem Replies.later (replies : C.Replies roll s join index r w) (later : C.Later w w') :
    C.Replies roll s join index r w' := by
  obtain ⟨asked, g, start, known, position, post⟩ := replies
  exact ⟨asked, g, start, known, position, C.post_later post later⟩

theorem Replies.keeps (replies : C.Replies roll s join index r w) (keeps : roll.Keeps roll' (some join)) :
    C.Replies roll' s join index r w := by
  obtain ⟨asked, g, start, known, position, post⟩ := replies
  obtain ⟨more, longer⟩ := keeps join rfl s asked known
  refine ⟨asked ++ more, g, start, longer, ?_, post⟩
  rw [List.getElem?_append_left (List.getElem?_eq_some_iff.mp position).1]
  exact position

section Vouching

variable (vouches : C.Vouches roll w)
include vouches

theorem Vouches.post {asked : List (Goal s × Moment)} (known : roll.asked join = ⟨s, asked⟩)
    (told : roll.Told join s index r) : ∃ a, asked[index]? = some a ∧ C.Post a.1 a.2 r w := by
  obtain ⟨asked', g, start, known', position, post⟩ := vouches join _ told
  cases known.symm.trans known'
  exact ⟨_, position, post⟩

theorem Vouches.posts {asked : List (Goal s × Moment)} (known : roll.asked join = ⟨s, asked⟩)
    (told : roll.Told join s index r) : ∃ a ∈ asked, C.Post a.1 a.2 r w := by
  obtain ⟨a, position, post⟩ := vouches.post known told
  exact ⟨a, List.mem_of_getElem? position, post⟩

theorem Vouches.raceEnds {asked : List (Goal .truth × Moment)} (known : roll.asked join = ⟨.truth, asked⟩)
    {decisive : Bool} {r : Except Failure Bool} (ends : roll.RaceEnds join decisive r) :
    C.RaceEnds decisive asked r w := by
  cases r with
  | error e => exact ends.elim fun _ told => vouches.posts known told
  | ok b =>
    refine ends.imp (.imp_right fun ⟨_, told⟩ => vouches.posts known told) (.imp_right fun all a member => ?_)
    obtain ⟨index, position⟩ := List.getElem?_of_mem member
    have below : index < roll.count join := by
      rw [Roll.count, known]
      exact (List.getElem?_eq_some_iff.mp position).1
    obtain ⟨a', position', post⟩ := vouches.post known (all index below)
    cases position.symm.trans position'
    exact post

theorem Vouches.contestEnds {asked : List (Goal .truth × Moment)} (known : roll.asked join = ⟨.truth, asked⟩)
    {r : Except Failure (Option Bool)} (ends : roll.ContestEnds join r) : C.ContestEnds asked r w := by
  match r, ends with
  | .ok none, _ => exact trivial
  | .ok (some b), ends => exact vouches.raceEnds known (show roll.RaceEnds join false (.ok b) from ends)
  | .error e, ends => exact vouches.raceEnds known (show roll.RaceEnds join false (.error e) from ends)

theorem Vouches.gatherEnds {asked : List (Goal s × Moment)} (known : roll.asked join = ⟨s, asked⟩)
    {r : Except Failure (List s.Value)} (ends : roll.GatherEnds join s r) : C.GatherEnds asked r w := by
  cases r with
  | error e => exact ends.elim fun _ told => vouches.posts known told
  | ok vs =>
    obtain ⟨length, told⟩ := ends
    have length : asked.length = vs.length := by
      rw [length, Roll.count, known]
    refine List.forall₂_iff_get.mpr ⟨length, fun index first second => ?_⟩
    obtain ⟨a, position, post⟩ := vouches.post known (told index _ (List.getElem?_eq_getElem second))
    rw [List.getElem?_eq_getElem first] at position
    cases position
    exact post

end Vouching

end Contract

structure Aims (C : Contract) (β : Type) where
  root : Nat → Except Failure β → Moment → Prop
  task : Except Failure Unit → Moment → Prop
  root_later : ∀ {slot r w w'}, root slot r w → C.Later w w' → root slot r w'
  task_later : ∀ {r w w'}, task r w → C.Later w w' → task r w'
  task_post : ∀ {g : Goal .unit} {start r w}, C.Post g start r w → task r w

def Aims.post {C : Contract} (aims : Aims C β) (roll : Roll) :
    (d : Dest) → Except Failure (d.Answer β) → Moment → Prop
  | .root slot => aims.root slot
  | .task _ => aims.task
  | .child s join index => fun r w => C.Replies roll s join index r w

def Rules.Verified (rules : Rules) (C : Contract) (A : Asks) : Prop :=
  ∀ s (g : Goal s) w, C.Sound w → A g w → (rules s g).Meets C A (s = .unit) (C.Post g w) w

section Fibers

variable {C : Contract} {A : Asks} {rules : Rules} {roll roll' : Roll} {w w' : Moment} {d : Dest}
variable {t : Live β d} {Q : Except Failure (d.Answer β) → Moment → Prop} {new : List (Sigma (Live β))}

theorem Live.Meets.later (meets : t.Meets C A roll Q w) (later : C.Later w w') : t.Meets C A roll Q w' := by
  have back {v : Moment} (leads : C.Leads w' v) : C.Leads w v :=
    ⟨C.later_trans later leads.1, leads.2⟩
  cases t with
  | running code => exact Prog.Meets.later meets later
  | parked code => exact ⟨meets.1, fun wake => (meets.2 wake).later later⟩
  | racing join decisive code =>
    obtain ⟨asked, known, ends⟩ := meets
    exact ⟨asked, known, fun r v leads => ends r v (back leads)⟩
  | gathering join s groups code =>
    obtain ⟨asked, known, gathers⟩ := meets
    exact ⟨asked, known, gathers.later later⟩
  | contesting join code =>
    obtain ⟨waits, asked, known, ends⟩ := meets
    exact ⟨waits, asked, known, fun r v leads => ends r v (back leads)⟩

theorem Live.Meets.frame {R : Except Failure (d.Answer β) → Moment → Prop}
    (meets : t.Meets C A roll Q w) (grows : ∀ join, t.join? = some join → roll.Extends join roll')
    (ends : ∀ r w', Q r w' → R r w') : t.Meets C A roll' R w := by
  have weaken {p : Prog (d.Answer β)} {v : Moment} (h : p.Meets C A d.Owing Q v) :
      p.Meets C A d.Owing R v := h.mono fun r u _ => ends r u
  cases t with
  | running code => exact weaken meets
  | parked code => exact ⟨meets.1, fun wake => weaken (meets.2 wake)⟩
  | racing join decisive code =>
    obtain ⟨asked, known, rest⟩ := meets
    exact ⟨asked, (grows join rfl).asked.trans known, fun r v leads ended => weaken (rest r v leads ended)⟩
  | gathering join s groups code =>
    obtain ⟨asked, known, gathers⟩ := meets
    exact ⟨asked, (grows join rfl).asked.trans known,
      gathers.imp (fun _ _ _ => id) fun _ _ _ h => weaken h⟩
  | contesting join code =>
    obtain ⟨waits, asked, known, rest⟩ := meets
    exact ⟨waits, asked, (grows join rfl).asked.trans known,
      fun r v leads ended => weaken (rest r v leads ended)⟩

theorem meets_woken {i : InferIndex} {speculation : Option Nat} {enough : InferVar → Bool}
    {k : Wake → Prog (d.Answer β)} (meets : (Prog.park i speculation enough k).Meets C A d.Owing Q w)
    (sound : C.Sound w) (reason : Wake) : (Machine.woken i speculation enough k reason).Meets C A d.Owing Q w := by
  cases reason with
  | settled => exact (meets w (.refl sound)).2 .settled
  | changed =>
    intro v leads
    refine ⟨.refl leads.sound, ?_, fun d owed => .inl owed⟩
    dsimp only
    split
    · exact (meets v leads).2 .changed
    · exact Prog.Meets.later meets leads.1

/-- A fiber that goes a step further keeps the contract. It either ends in its postcondition or still
meets it. -/
theorem Live.Next.goes_on {heard : Wake → Prop} (next : Live.Next rules heard roll w ⟨d, t⟩ new roll' w')
    (verified : rules.Verified C A) (sound : C.Sound w) (vouches : C.Vouches roll w) (meets : t.Meets C A roll Q w) :
    C.Leads w w' ∧ ((∃ r, new = [] ∧ t = .running (.done r) ∧ Q r w') ∨
      ∃ t' started, new = ⟨d, t'⟩ :: started ∧ t'.Meets C A roll' Q w') := by
  have here : C.Leads w w := .refl sound
  cases next with
  | finish => exact ⟨here, .inl ⟨_, rfl, rfl, meets w here⟩⟩
  | update =>
    obtain ⟨next, rest, _⟩ := meets w here
    exact ⟨next, .inr ⟨_, [], rfl, rest⟩⟩
  | call =>
    obtain ⟨allowed, may, rest⟩ := meets w here
    refine ⟨here, .inr ⟨_, [], rfl, Prog.Meets.andThen ?_⟩⟩
    exact (verified _ _ w sound allowed).imp (fun _ _ _ => id) may rest
  | rest | rested => exact ⟨here, .inr ⟨_, [], rfl, meets⟩⟩
  | mark n => exact ⟨here, .inr ⟨_, [], rfl, meets n⟩⟩
  | note => exact ⟨(meets w here).1, .inr ⟨_, [], rfl, (meets w here).2⟩⟩
  | park =>
    refine ⟨here, .inr ⟨_, [], rfl, (meets w here).1, fun wake => ?_⟩⟩
    exact meets_woken meets sound wake
  | wake told => exact ⟨here, .inr ⟨_, [], rfl, meets.2 _⟩⟩
  | untested =>
    refine ⟨here, .inr ⟨_, [], rfl, (meets w here).2 _ w here ?_⟩⟩
    exact .inr ⟨rfl, fun _ member => absurd member List.not_mem_nil⟩
  | race join =>
    exact ⟨here, .inr ⟨_, _, rfl, _, Function.update_self .., (meets w here).2⟩⟩
  | raceEnds ends =>
    obtain ⟨asked, known, rest⟩ := meets
    exact ⟨here, .inr ⟨_, [], rfl, rest _ w here (vouches.raceEnds known ends)⟩⟩
  | gather join => exact ⟨here, .inr ⟨_, [], rfl, _, Function.update_self .., meets⟩⟩
  | enlist known =>
    obtain ⟨asked, known', rest⟩ := meets
    cases known.symm.trans known'
    exact ⟨here, .inr ⟨_, _, rfl, _, Function.update_self .., (rest w here).2⟩⟩
  | gatherEnds ends =>
    obtain ⟨asked, known, rest⟩ := meets
    exact ⟨here, .inr ⟨_, [], rfl, rest _ w here (vouches.gatherEnds known ends)⟩⟩
  | contest join =>
    obtain ⟨⟨waits, _⟩, _, rest⟩ := meets w here
    exact ⟨here, .inr ⟨_, _, rfl, waits, _, Function.update_self .., rest⟩⟩
  | contestEnds ends =>
    obtain ⟨_, asked, known, rest⟩ := meets
    exact ⟨here, .inr ⟨_, [], rfl, rest _ w here (vouches.contestEnds known ends)⟩⟩
  | spawn => exact ⟨here, .inr ⟨_, _, rfl, meets.2⟩⟩

theorem Live.meets_asked {s : Shape} {join : Nat} (before : List (Goal s × Moment))
    {goals : List (Goal s)} (aims : Aims C β) (verified : rules.Verified C A) (sound : C.Sound w)
    (allowed : ∀ g ∈ goals, A g w) (known : roll.asked join = ⟨s, before ++ goals.map (·, w)⟩) :
    ∀ t ∈ (Live.asked rules join before.length goals : List (Sigma (Live β))),
      t.2.Meets C A roll (aims.post roll t.1) w := by
  intro t member
  obtain ⟨⟨g, index⟩, position, rfl⟩ := List.mem_map.mp member
  obtain ⟨first, last, same⟩ := List.mem_zipIdx position
  refine (verified s g w sound (allowed g (same ▸ List.getElem_mem _))).mono fun r v _ post => ?_
  refine ⟨_, g, w, known, ?_, post⟩
  rw [List.getElem?_append_right first, List.getElem?_map, List.getElem?_eq_getElem (by omega),
    ← same]
  rfl

theorem Live.Next.starts {heard : Wake → Prop} (aims : Aims C β)
    (next : Live.Next rules heard roll w ⟨d, t⟩ new roll' w') (verified : rules.Verified C A) (sound : C.Sound w)
    (meets : t.Meets C A roll Q w) : ∀ t' ∈ new.tail, t'.2.Meets C A roll' (aims.post roll' t'.1) w' := by
  have here : C.Leads w w := .refl sound
  have none {P : Sigma (Live β) → Prop} : ∀ t' ∈ ([] : List (Sigma (Live β))), P t' :=
    nofun
  cases next with
  | race join => exact Live.meets_asked [] aims verified sound (meets w here).1 (Function.update_self ..)
  | contest join => exact Live.meets_asked [] aims verified sound (meets w here).2.1 (Function.update_self ..)
  | enlist known =>
    obtain ⟨asked, known', rest⟩ := meets
    cases known.symm.trans known'
    exact Live.meets_asked _ aims verified sound (rest w here).1 (Function.update_self ..)
  | spawn =>
    intro t' member
    rw [List.tail_cons, List.mem_singleton] at member
    subst member
    exact (verified _ _ w sound (meets.1 w here)).imp (fun _ _ _ => id) (fun _ => trivial)
      fun r v _ post => aims.task_post post
  | finish | update | call | rest | rested | mark | note | park | wake | untested | raceEnds | gather | gatherEnds
  | contestEnds => exact none

/-- Only a fiber that ends adds to what was told. -/
theorem Live.Next.vouches {heard : Wake → Prop} (aims : Aims C β)
    (next : Live.Next rules heard roll w ⟨d, t⟩ new roll' w') (sound : C.Sound w) (vouches : C.Vouches roll w)
    (meets : t.Meets C A roll (aims.post roll d) w) : C.Vouches roll' w := by
  have opening (join : Nat) (asked : (s : Shape) × List (Goal s × Moment)) : C.Vouches (roll.opening join asked) w := by
    intro other reply told
    by_cases same : other = join
    · subst same
      rw [Roll.told_opening] at told
      cases told
    · rw [Roll.told_opening_of_ne _ same] at told
      exact (vouches other reply told).keeps (.of_eq fun _ here => Option.some.inj here ▸ Function.update_of_ne same ..)
  cases next with
  | @finish _ r =>
    have post := meets w (.refl sound)
    intro join reply told
    have replies : C.Replies roll reply.shape join reply.index reply.answer w := by
      cases d with
      | root slot | task description => exact vouches join reply told
      | child s other index =>
        by_cases same : join = other
        · subst same
          rcases List.mem_cons.mp ((congrArg (reply ∈ ·) (Roll.told_telling r)).mp told) with rfl | told
          · exact post
          · exact vouches join reply told
        · exact vouches join reply ((congrArg (reply ∈ ·) (Roll.told_telling_of_ne r same)).mp told)
    exact replies.keeps (.of_eq fun _ _ => by rw [Roll.asked_hearing])
  | race join | gather join | contest join => exact opening join _
  | enlist known => exact fun other reply told => (vouches other reply told).keeps (Roll.keeps_asking known _ _)
  | update | call | rest | rested | mark | note | park | wake | untested | raceEnds | gatherEnds | contestEnds | spawn =>
    exact vouches

end Fibers

theorem Aims.post_keeps {C : Contract} (aims : Aims C β) {roll roll' : Roll} {d : Dest}
    (keeps : roll.Keeps roll' d.join?) {r : Except Failure (d.Answer β)} {w : Moment}
    (post : aims.post roll d r w) : aims.post roll' d r w := by
  cases d with
  | root slot | task description => exact post
  | child s join index => exact Contract.Replies.keeps post keeps

structure Scene.Correct {C : Contract} (A : Asks) (aims : Aims C β) (x : Scene β) : Prop where
  sound : C.Sound x.moment
  vouches : C.Vouches x.roll x.moment
  meets : ∀ t ∈ x.lives, t.2.Meets C A x.roll (aims.post x.roll t.1) x.moment

section Shifts

variable {C : Contract} {A : Asks} {rules : Rules} {heard : Wake → Prop} {aims : Aims C β} {x y : Scene β}

theorem Scene.Shift.correct (shift : x.Shift rules heard y) (verified : rules.Verified C A)
    (correct : x.Correct A aims) : C.Leads x.moment y.moment ∧ y.Correct A aims := by
  obtain @⟨roll, roll', w, w', w'', t, new, rest, next, alike, keeps, waiting, _⟩ := shift
  have sound : C.Sound w := correct.sound
  have own := correct.meets t (Multiset.mem_cons_self _ _)
  obtain ⟨leads, continues⟩ := next.goes_on verified sound correct.vouches own
  have started := next.starts aims verified sound own
  have now : C.Leads w w'' := leads.quiet alike
  have last : C.Later w' w'' := (Contract.Leads.quiet (.refl leads.sound) alike).1
  refine ⟨now, now.sound, fun join reply told => ?_, fun t' member => ?_⟩
  · exact (next.vouches aims sound correct.vouches own join reply told).later now.1
  rcases Multiset.mem_add.mp member with fresh | other
  · rcases continues with ⟨r, rfl, _⟩ | ⟨t'', starts, rfl, meets⟩
    · exact absurd fresh (Multiset.notMem_zero _)
    rcases List.mem_cons.mp (Multiset.mem_coe.mp fresh) with rfl | fresh
    · refine (meets.later last).frame (fun _ _ => .refl) fun r v => ?_
      exact aims.post_keeps (keeps t (Multiset.mem_cons_self _ _))
    · exact (started t' fresh).later last
  · refine ((correct.meets t' (Multiset.mem_cons_of_mem other)).later now.1).frame
      (waiting t' other) fun r v => ?_
    exact aims.post_keeps (keeps t' (Multiset.mem_cons_of_mem other))

theorem Scene.Correct.shifts (correct : x.Correct A aims) (verified : rules.Verified C A)
    (shifts : Relation.TransGen (Scene.Shift rules heard) x y) : C.Leads x.moment y.moment ∧ y.Correct A aims := by
  induction shifts with
  | single shift => exact shift.correct verified correct
  | tail _ shift ih =>
    obtain ⟨leads, last⟩ := shift.correct verified ih.2
    exact ⟨ih.1.trans leads, last⟩

theorem Scene.Correct.alike {w : Moment} (correct : x.Correct A aims) (alike : x.moment.Alike w) :
    C.Leads x.moment w ∧ Scene.Correct A aims ⟨x.roll, x.lives, w⟩ := by
  have leads := Contract.Leads.quiet (.refl correct.sound) alike
  exact ⟨leads, leads.sound, fun join reply told => (correct.vouches join reply told).later leads.1,
    fun t member => (correct.meets t member).later leads.1⟩

end Shifts

end Ownership
