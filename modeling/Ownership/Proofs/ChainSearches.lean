import Ownership.Proofs.Commitments

namespace Ownership

open Relation (ReflGen ReflTransGen)

variable {β : Type}

def Machine.accepts (m : Machine β) : Event β → Bool
  | .offer join (.ok (some true)) =>
    match m.joins.lookup join with
    | some (.contest ..) => true
    | _ => false
  | _ => false

theorem Machine.accepts_iff {m : Machine β} {e : Event β} : m.accepts e = true ↔
    ∃ join search state fiber, e = .offer join (.ok (some true)) ∧ m.joins.lookup join = some (.contest search state fiber) := by
  unfold accepts
  split
  · rename_i join
    split
    · rename_i search state fiber found
      exact iff_of_true rfl ⟨join, search, state, fiber, rfl, found⟩
    · rename_i other
      refine iff_of_false (by simp) ?_
      rintro ⟨_, search, state, fiber, same, found⟩
      cases same
      exact other search state fiber found
  · rename_i other
    refine iff_of_false (by simp) ?_
    rintro ⟨join, _, _, _, rfl, _⟩
    exact other join rfl

variable {p : Predicate} {g : Sigma Goal} {pledges : Predicate → Prop}

theorem Goal.Demands.unique {s : Shape} {g : Goal s} {q : Predicate} (first : g.Demands p) (second : g.Demands q) :
    p = q := by
  cases g <;> simp_all [Goal.Demands]

theorem Goal.Inspects.not_demands {s : Shape} {g : Goal s} (inspects : g.Inspects) : ¬ g.Demands p := by
  cases g <;> simp_all [Goal.Demands, Goal.Inspects]

theorem Prog.KeepsFrom.asks {α : Type} {p : Prog α} {known : Nat} (kept : p.KeepsFrom (.pledged pledges) known)
    (asked : g ∈ p.asks) : g.2.Inspects ∨ ∃ p, pledges p ∧ g.2.Demands p := by
  cases p with
  | call g' k =>
    rw [List.mem_singleton.mp asked]
    exact kept.1
  | race decisive passed tests k =>
    obtain ⟨test, member, rfl⟩ := List.mem_map.mp asked
    exact kept.1 test member
  | contest search tests k => exact kept.1.1.elim
  | spawn description g' k => exact kept.1.elim
  | _ => cases asked

theorem Live.KeepsFrom.asks {d : Dest} {t : Live β d} {known : Nat} (kept : t.KeepsFrom (.pledged pledges) known)
    {s : Session} (asked : g ∈ t.asks s) : g.2.Inspects ∨ ∃ p, pledges p ∧ g.2.Demands p := by
  cases t with
  | running code => exact Prog.KeepsFrom.asks kept asked
  | gathering join shape groups code =>
    cases groups with
    | nil => cases asked
    | cons group groups =>
      obtain ⟨goal, member, rfl⟩ := List.mem_map.mp asked
      exact kept.1 group List.mem_cons_self s goal member
  | _ => cases asked

theorem Live.Branching.asks {i k : Nat} {tr : Trial} {stand : Stand} {t : Sigma (Live β)}
    (branching : Branching i k stand t) (committed : stand = .requiring → k ∈ tr.committed) {s : Session}
    (asked : g ∈ t.2.asks s) (demands : g.2.Demands p) : tr.Pledges p := by
  cases branching with
  | running branch =>
    cases branch with
    | contend next =>
      rw [List.mem_singleton.mp asked] at demands
      exact demands.elim
    | contest tested changed answered failed =>
      obtain ⟨test, member, rfl⟩ := List.mem_map.mp asked
      exact absurd demands (tested test member).not_demands
    | _ => cases asked
  | contesting ended => cases asked
  | @gathering join index own groups code ended =>
    cases ended with
    | gather requires fulfilled failed =>
      cases groups with
      | nil => cases asked
      | cons group groups =>
        obtain ⟨goal, member, rfl⟩ := List.mem_map.mp asked
        exact ⟨k, committed rfl, (requires group List.mem_cons_self s goal member).unique demands⟩

def Search.pair : Search := ⟨[⟨[], 2, true, false⟩, ⟨[0], 0, false, false⟩, ⟨[0], 0, false, false⟩], false⟩

theorem Search.spawn_pair : Search.start.spawn 0 2 = .ok (pair, [1, 2]) := rfl

section Call

variable {env : Env} {lower upper : Perm} {o : Obligation} {i : Nat}

def Rules.verdict (env : Env) (lower upper : Perm) (o : Obligation) : Except Failure Bool → Prog Unit
  | .ok true => .done (.ok ())
  | .ok false => .refuse env o (.permMismatch lower.render upper.render)
  | .error e => .done (.error e)

def Rules.attempts (env : Env) (i : Nat) (lower upper : Perm) (o : Obligation) : List (Goal .truth) :=
  [.attempt env i 1 .copy lower upper o, .attempt env i 2 .move lower upper o]

theorem Rules.compatibleChains_eq : compatibleChains env lower upper o =
    .update (fun s => { s with searches := s.searches ++ [.pair] }) fun s =>
      .race true false (attempts env s.searches.length lower upper o) (verdict env lower upper o) := by
  refine congrArg (Prog.update _) (funext fun s => ?_)
  refine congrArg (Prog.race true false _) (funext fun r => ?_)
  match r with
  | .ok true | .ok false | .error e => rfl

theorem Rules.keeps_verdict (r : Except Failure Bool) : (verdict env lower upper o r).Keeps .testing := by
  match r with
  | .ok true => exact fun _ => trivial
  | .ok false => exact Prog.heeds_refuse (C := Conduct.testing.keeping) Conduct.looks_pledged env o rfl
  | .error e => exact fun _ => trivial

/-- How far a call has come, with the trial of its branches. -/
inductive Crew.Phase (env : Env) (lower upper : Perm) (o : Obligation) (i : Nat) (tr : Trial) (crew : Crew Unit) : Prop
  | opening (trial : tr = .start .pair 2) (fresh : crew.session.searches.length = i)
    (lives : crew.lives = {⟨.root 0, .running (Rules.compatibleChains env lower upper o)⟩})
  | asking (trial : tr = .start .pair 2) (search : crew.session.searches[i]? = some .pair)
    (lives : crew.lives =
      {⟨.root 0, .running (.race true false (Rules.attempts env i lower upper o) (Rules.verdict env lower upper o))⟩})
  | acting (cast : crew.Cast i tr)

theorem Live.branching_attempt {k : Nat} (join index : Nat) :
    Live.Branching i k .choosing (⟨.child .truth join index,
      .running (Rules.answer .truth (.attempt env i (k + 1) (Trial.predicate k) lower upper o))⟩ : Sigma (Live Unit)) :=
  .running (Rules.branch_attempt fun _ _ => trivial)

namespace Crew.Phase

variable {tr : Trial} {a b : Crew Unit} {heard : Wake → Prop}

theorem turn (phase : a.Phase env lower upper o i tr) (fair : tr.Fair)
    (requiring : ∀ k : Nat, tr.stands[k]? = some .requiring → k ∈ tr.committed) (turn : a.Turns Rules.answer heard b) :
    ∃ tr', ReflTransGen Trial.Step tr tr' ∧ b.Phase env lower upper o i tr' ∧
      (tr'.committed = [] → b.session.inferVars = a.session.inferVars) := by
  cases phase with
  | acting cast =>
    obtain ⟨tr', steps, cast', still⟩ := cast.turn fair requiring turn
    exact ⟨tr', steps, .acting cast', still⟩
  | opening trial fresh lives =>
    obtain @⟨_, _, w, w', t, new, rest, s'', next, alike⟩ := turn
    obtain ⟨rfl, rfl⟩ := (Multiset.singleton_eq_cons_iff _).mp lives.symm
    rw [Rules.compatibleChains_eq] at next
    cases next with
    | update =>
      subst fresh
      refine ⟨tr, .refl, .asking trial ?_ ?_, fun _ => alike.shares.2⟩
      · change s''.searches[w.session.searches.length]? = _
        rw [alike.shares.1]
        simp
      · rfl
  | asking trial search lives =>
    obtain @⟨_, _, w, w', t, new, rest, s'', next, alike⟩ := turn
    obtain ⟨rfl, rfl⟩ := (Multiset.singleton_eq_cons_iff _).mp lives.symm
    cases next with
    | race join =>
      subst trial
      refine ⟨_, .refl, .acting ⟨?_, ?_⟩, fun _ => alike.shares.2⟩
      · change s''.searches[i]? = _
        rw [alike.shares.1]
        exact search
      · let child (k : Nat) : Sigma (Live Unit) := ⟨.child .truth join k,
          .running (Rules.answer .truth (.attempt env i (k + 1) (Trial.predicate k) lower upper o))⟩
        let root : Sigma (Live Unit) := ⟨.root 0, .racing join true (Rules.verdict env lower upper o)⟩
        refine ⟨fun k => {child k}, {root}, ?_, fun k inside => ⟨.choosing, ?_, .inr ⟨child k, rfl, ?_⟩⟩, fun t member => ?_⟩
        · change Multiset.ofList [root, child 0, child 1] + 0 = {child 0} + {child 1} + {root}
          rw [add_zero, ← Multiset.cons_coe, ← Multiset.singleton_add, add_comm]
          rfl
        · exact List.getElem?_replicate_of_lt inside
        · exact Live.branching_attempt join k
        · rw [Multiset.mem_singleton.mp member]
          exact fun r => (Rules.keeps_verdict r _).pledge fun _ => False.elim

theorem turns {search : Search} {count : Nat} (phase : a.Phase env lower upper o i tr)
    (spawned : (Trial.start search count).Fair) (run : ReflTransGen Trial.Step (.start search count) tr)
    (turns : ReflTransGen (Crew.Turns Rules.answer heard) a b) :
    ∃ tr', ReflTransGen Trial.Step tr tr' ∧ b.Phase env lower upper o i tr' ∧
      (tr'.committed = [] → b.session.inferVars = a.session.inferVars) := by
  induction turns with
  | refl => exact ⟨tr, .refl, phase, fun _ => rfl⟩
  | tail _ turn ih =>
    obtain ⟨tr', steps, phase', still⟩ := ih
    have run' := run.trans steps
    obtain ⟨tr'', steps', phase'', still'⟩ := phase'.turn (Trial.fair_run spawned run') (Trial.requiring_run run') turn
    refine ⟨tr'', steps.trans steps', phase'', fun uncommitted => (still' uncommitted).trans (still ?_)⟩
    exact List.subset_nil.mp (uncommitted ▸ (Trial.grows_run steps').1)

theorem pledged (phase : a.Phase env lower upper o i tr)
    (requiring : ∀ k : Nat, tr.stands[k]? = some .requiring → k ∈ tr.committed) {t : Sigma (Live Unit)}
    (alive : t ∈ a.lives) {s : Session} (asked : g ∈ t.2.asks s) (demands : g.2.Demands p) : tr.Pledges p := by
  cases phase with
  | opening trial fresh lives =>
    rw [lives] at alive
    rw [Multiset.mem_singleton.mp alive, Rules.compatibleChains_eq] at asked
    cases asked
  | asking trial search lives =>
    rw [lives] at alive
    rw [Multiset.mem_singleton.mp alive] at asked
    obtain ⟨attempt, member, rfl⟩ := List.mem_map.mp asked
    rcases List.mem_pair.mp member with rfl | rfl <;> exact demands.elim
  | acting cast =>
    obtain ⟨rest, same⟩ := Multiset.exists_cons_of_mem alive
    have cast' : Crew.Cast i tr ⟨t ::ₘ rest, a.session⟩ := same ▸ cast
    rcases cast'.split with ⟨k, stand, here, branching, _⟩ | ⟨kept, _⟩
    · exact branching.asks (fun same => requiring k (same ▸ here)) asked demands
    · rcases kept.asks asked with inspects | ⟨q, pledged, demands'⟩
      · exact absurd demands inspects.not_demands
      · exact demands'.unique demands ▸ pledged

theorem search {search : Search} (phase : a.Phase env lower upper o i tr)
    (found : a.session.searches[i]? = some search) : a.session.searches[i]? = some tr.search := by
  cases phase with
  | opening trial fresh lives =>
    rw [← fresh, List.getElem?_eq_none (Nat.le_refl _)] at found
    cases found
  | asking trial search lives =>
    rw [trial]
    exact search
  | acting cast => exact cast.search

theorem accept {join : Nat} {d : Dest} {code : Except Failure (Option Bool) → Prog (d.Answer Unit)}
    {rest : Multiset (Sigma (Live Unit))} {s : Session}
    (phase : Crew.Phase env lower upper o i tr ⟨⟨d, .contesting join code⟩ ::ₘ rest, s⟩) :
    ∃ tr', ReflTransGen Trial.Step tr tr' ∧ tr'.accepted ≠ [] ∧
      Crew.Phase env lower upper o i tr' ⟨⟨d, .running (code (.ok (some true)))⟩ ::ₘ rest, s⟩ := by
  cases phase with
  | opening trial fresh lives | asking trial search lives =>
    obtain ⟨same, _⟩ := (Multiset.singleton_eq_cons_iff _).mp lives.symm
    cases same
  | acting cast =>
    rcases cast.split with ⟨k, stand, here, branching, replaced⟩ | ⟨kept, _⟩
    · cases branching with
      | contesting ended =>
        cases ended with
        | contest _ changed answered failed =>
          refine ⟨_, .single (.accept here), by simp, .acting ?_⟩
          exact replaced _ _ _ (Live.Branching.moves cast.search here (.running (answered true)) (.accept here) rfl rfl)
    · exact kept.1.elim

end Crew.Phase

structure Episode where
  asked : List (Sigma Goal)
  accepts : Bool
  before : Session
  after : Session

/-- What others do to a session meanwhile: they leave the given search alone, and take back no search and no
variable. -/
structure Session.Besides (i : Nat) (s s' : Session) : Prop where
  search : s'.searches[i]? = s.searches[i]?
  searches : s.searches.length ≤ s'.searches.length
  known : s.inferVars.length ≤ s'.inferVars.length

/-- The course of one call whose search is the given one: its events are handled in any order, others change the
session meanwhile, and those that wait are woken at any time. -/
inductive Machine.Course (env : Env) (lower upper : Perm) (o : Obligation) (i : Nat) : List Episode → Machine Unit → Prop
  | opens {s : Session} (fresh : s.searches.length = i) :
    Course env lower upper o i [] (({ session := s } : Machine Unit).start 0 (Rules.compatibleChains env lower upper o))
  | turn {history : List Episode} {m : Machine Unit} {before after : List (Event Unit)} {e : Event Unit}
    (course : Course env lower upper o i history m) (queue : m.queue = before ++ e :: after) :
    Course env lower upper o i
      (history ++ [⟨m.asks e, m.accepts e, m.session, ({ m with queue := before ++ after }.handle Rules.answer e).session⟩])
      ({ m with queue := before ++ after }.handle Rules.answer e)
  | besides {history : List Episode} {m : Machine Unit} {s : Session}
    (course : Course env lower upper o i history m) (apart : m.session.Besides i s) :
    Course env lower upper o i history { m with session := s }
  | wake {history : List Episode} {m : Machine Unit} (course : Course env lower upper o i history m)
    (ticket : Nat) (reason : Wake) : Course env lower upper o i history (m.wake ticket reason)

theorem Crew.Phase.besides {tr : Trial} {lives : Multiset (Sigma (Live Unit))} {s s' : Session}
    (phase : Crew.Phase env lower upper o i tr ⟨lives, s⟩) (apart : s.Besides i s') :
    Crew.Phase env lower upper o i tr ⟨lives, s'⟩ := by
  cases phase with
  | opening trial fresh alive =>
    refine .opening trial (Nat.le_antisymm ?_ (Nat.le_trans (Nat.le_of_eq fresh.symm) apart.searches)) alive
    have none : s'.searches[i]? = none := by
      rw [apart.search]
      exact List.getElem?_eq_none (Nat.le_of_eq fresh)
    exact List.getElem?_eq_none_iff.mp none
  | asking trial search alive => exact .asking trial (apart.search.trans search) alive
  | acting cast =>
    obtain ⟨search, own, workers, split, staged, passive⟩ := cast
    exact .acting ⟨apart.search.trans search, own, workers, split, staged, fun t member => (passive t member).mono apart.known⟩

namespace Machine

variable {m : Machine Unit} {before after : List (Event Unit)} {e : Event Unit}

theorem phase_turn {tr : Trial} (kept : m.Kept) (run : ReflTransGen Trial.Step (.start .pair 2) tr)
    (phase : m.crew.Phase env lower upper o i tr) (queue : m.queue = before ++ e :: after) :
    ∃ tr', ReflTransGen Trial.Step tr tr' ∧
      ({ m with queue := before ++ after }.handle Rules.answer e).crew.Phase env lower upper o i tr' ∧
      (m.accepts e = true → tr'.accepted ≠ []) ∧
      (tr'.committed = [] → ({ m with queue := before ++ after }.handle Rules.answer e).session.inferVars =
        m.session.inferVars) := by
  by_cases accepts : m.accepts e = true
  · obtain ⟨join, search, state, fiber, rfl, found⟩ := accepts_iff.mp accepts
    let m' : Machine Unit := { m with queue := before ++ after }
    have decided : m'.handle Rules.answer (.offer join (.ok (some true))) =
        m'.decide join (fiber.resume (.ok (some true))) := by
      simp only [handle, decideContest, m', found]
    have lives : m.lives = ⟨fiber.dest, .contesting join fiber.code⟩ ::ₘ (m'.dropJoin join).lives := by
      have perm : m.queue.Perm (.offer join (.ok (some true)) :: (before ++ after)) := queue ▸ List.perm_middle
      have same : m.lives = m'.lives := (lives_reorder m perm).trans (lives_idle (m := m') rfl)
      rw [same]
      exact lives_split (m := m') found kept.keys
    rw [crew, lives] at phase
    obtain ⟨tr', steps, accepted, phase'⟩ := phase.accept
    refine ⟨tr', steps, ?_, fun _ => accepted, fun _ => ?_⟩
    · change (m'.handle _ _).crew.Phase env lower upper o i tr'
      rw [decided]
      have lives' : (m'.decide join (fiber.resume (.ok (some true)))).lives =
          ⟨fiber.dest, .running (fiber.code (.ok (some true)))⟩ ::ₘ (m'.dropJoin join).lives := lives_enqueue _ _
      rw [crew, lives']
      exact phase'
    · change (m'.handle _ _).session.inferVars = _
      rw [decided]
      rfl
  · obtain ⟨_, turns⟩ : _ ∧ ReflTransGen (Crew.Turns Rules.answer fun _ => True) _ _ :=
      leads_turn kept queue (e.announces_any m.session)
    obtain ⟨tr', steps, phase', still⟩ := phase.turns (Trial.fair_start Search.spawn_pair) run turns
    exact ⟨tr', steps, phase', fun accepted => absurd accepted accepts, still⟩

end Machine

structure Trial.Tells (tr : Trial) (history : List Episode) : Prop where
  asked : ∀ episode ∈ history, ∀ g ∈ episode.asked, ∀ p, g.2.Demands p → tr.Pledges p
  accepted : (∃ episode ∈ history, episode.accepts = true) → tr.accepted ≠ []
  still : tr.committed = [] → ∀ episode ∈ history, episode.after.inferVars = episode.before.inferVars

theorem Machine.Course.trial {history : List Episode} {m : Machine Unit}
    (course : Course env lower upper o i history m) : m.Kept ∧ ∃ tr, ReflTransGen Trial.Step (.start .pair 2) tr ∧
      m.crew.Phase env lower upper o i tr ∧ tr.Tells history := by
  induction course with
  | @opens s fresh =>
    let m : Machine Unit := { session := s }
    have lives : (m.start 0 (Rules.compatibleChains env lower upper o)).lives =
        {⟨.root 0, .running (Rules.compatibleChains env lower upper o)⟩} := lives_enqueue m _
    refine ⟨(kept_idle s).start 0 _, _, .refl, .opening rfl fresh lives, ?_⟩
    exact ⟨fun _ member => absurd member List.not_mem_nil, fun ⟨_, member, _⟩ => absurd member List.not_mem_nil,
      fun _ _ member => absurd member List.not_mem_nil⟩
  | @turn history m before after e course queue ih =>
    obtain ⟨kept, tr, run, phase, tells⟩ := ih
    obtain ⟨tr', steps, phase', accepted, still⟩ := phase_turn kept run phase queue
    refine ⟨(leads_turn kept queue (e.announces_any m.session)).1, tr', run.trans steps, phase', ?_, ?_, ?_⟩
    · intro episode member g asked p demands
      rcases List.mem_append.mp member with old | new
      · exact (tells.asked episode old g asked p demands).run steps
      · rw [List.mem_singleton.mp new] at asked
        obtain ⟨t, alive, asked⟩ := mem_asks kept queue asked
        exact (phase.pledged (Trial.requiring_run run) alive asked demands).run steps
    · rintro ⟨episode, member, accepts⟩
      rcases List.mem_append.mp member with old | new
      · exact fun none => tells.accepted ⟨episode, old, accepts⟩ (List.subset_nil.mp (none ▸ (Trial.grows_run steps).2))
      · rw [List.mem_singleton.mp new] at accepts
        exact accepted accepts
    · intro uncommitted episode member
      rcases List.mem_append.mp member with old | new
      · exact tells.still (List.subset_nil.mp (uncommitted ▸ (Trial.grows_run steps).1)) episode old
      · rw [List.mem_singleton.mp new]
        exact still uncommitted
  | besides course apart ih =>
    obtain ⟨kept, tr, run, phase, tells⟩ := ih
    exact ⟨kept.session _, tr, run, phase.besides apart, tells⟩
  | @wake history m course ticket reason ih =>
    obtain ⟨kept, tr, run, phase, tells⟩ := ih
    have woken : (m.wake ticket reason).Kept ∧ ReflGen (Crew.Turns Rules.answer fun _ => True) m.crew
        (m.wake ticket reason).crew := turns_wake kept ticket trivial
    obtain ⟨tr', steps, phase', still⟩ := phase.turns (Trial.fair_start Search.spawn_pair) run woken.2.to_reflTransGen
    refine ⟨woken.1, tr', run.trans steps, phase', ?_, ?_, ?_⟩
    · exact fun episode member g asked p demands => (tells.asked episode member g asked p demands).run steps
    · exact fun accepts none => tells.accepted accepts (List.subset_nil.mp (none ▸ (Trial.grows_run steps).2))
    · exact fun uncommitted => tells.still (List.subset_nil.mp (uncommitted ▸ (Trial.grows_run steps).1))

def Machine.chronicle : Nat → Machine Unit → List Episode
  | 0, _ => []
  | fuel + 1, m =>
    match m.queue with
    | [] => []
    | e :: rest =>
      let next := { m with queue := rest }.handle Rules.answer e
      ⟨m.asks e, m.accepts e, m.session, next.session⟩ :: chronicle fuel next

theorem Machine.Course.run {history : List Episode} {m : Machine Unit} (course : Course env lower upper o i history m)
    (fuel : Nat) : Course env lower upper o i (history ++ m.chronicle fuel) (m.run Rules.answer fuel) := by
  induction fuel generalizing history m with
  | zero => simpa [chronicle, Machine.run] using course
  | succ fuel ih =>
    unfold chronicle Machine.run step
    split
    · rename_i none
      simpa [none] using course
    · rename_i e rest queue
      have next := ih (course.turn (show m.queue = [] ++ e :: rest from queue))
      simpa [queue] using next

end Call

namespace Machine

/-- A search with any number of branches commits itself to one of them at most. The root counts those that are not
released; no branch starts its requirement once another has concluded the search; and a branch that is required
stays so until it is released itself or the search is concluded. So one call that relates two permissions by their
predicates requires one predicate at most, and if a test is accepted it requires none and records nothing. -/
theorem search_commits_to_one_branch :
    (∀ (count : Nat) (search : Search) (nodes : List Nat) (t : Trial),
      Search.start.spawn 0 count = .ok (search, nodes) → ReflTransGen Trial.Step (.start search count) t →
      nodes = (List.range count).map (1 + ·) ∧ t.stands.length = count ∧
      t.search.liveAt 0 = t.unreleased ∧
      t.committed.length ≤ 1 ∧
      (∀ t', t.Step t' → t.concluded ≠ [] → t'.committed = t.committed) ∧
      ∀ k < count, ∀ t', t.search.isRequired (k + 1) = true → ReflTransGen Trial.Step t t' →
        t'.search.isRequired (k + 1) = true ∨ t'.stands[k]? = some .released ∨ t'.search.concluded = true) ∧
    ∀ (env : Env) (lower upper : Perm) (o : Obligation) (i : Nat) (history : List Episode) (m : Machine Unit),
      Course env lower upper o i history m →
      (∀ search, m.session.searches[i]? = some search →
        ∃ t, ReflTransGen Trial.Step (.start .pair 2) t ∧ t.search = search) ∧
      (∃ p, ∀ episode ∈ history, ∀ g ∈ episode.asked, ∀ q, g.2.Demands q → q = p) ∧
      ((∃ episode ∈ history, episode.accepts = true) → ∀ episode ∈ history,
        (∀ g ∈ episode.asked, ∀ q, ¬ g.2.Demands q) ∧ episode.after.inferVars = episode.before.inferVars) ∧
      ∀ fuel, ∃ more, Course env lower upper o i (history ++ more) (m.run Rules.answer fuel) := by
  refine ⟨fun count search nodes t spawned run => ?_, fun env lower upper o i history m course => ?_⟩
  · have fair := Trial.fair_run (Trial.fair_start spawned) run
    have length : t.stands.length = count := (Trial.length_run run).trans (List.length_replicate ..)
    refine ⟨(congrArg Prod.snd (Except.ok.inj spawned)).symm, length, fair.live, fair.committed_le, ?_, ?_⟩
    · exact fun t' step concluded => step.committed_of_concluded fair concluded
    · exact fun k inside t' required more => Trial.stays_required fair more (length.symm ▸ inside) required
  · obtain ⟨_, tr, run, phase, tells⟩ := course.trial
    have fair := Trial.fair_run (Trial.fair_start Search.spawn_pair) run
    refine ⟨fun search found => ⟨tr, run, ?_⟩, ?_, fun accepts episode member => ?_, fun fuel => ⟨_, course.run fuel⟩⟩
    · exact Option.some.inj ((phase.search found).symm.trans found)
    · rcases fair.committed with none | ⟨k, single, _⟩
      · refine ⟨.copy, fun episode member g asked q demands => ?_⟩
        obtain ⟨k, committed, _⟩ := tells.asked episode member g asked q demands
        rw [none] at committed
        cases committed
      · refine ⟨Trial.predicate k, fun episode member g asked q demands => ?_⟩
        obtain ⟨j, committed, same⟩ := tells.asked episode member g asked q demands
        rw [single] at committed
        rw [← same, List.mem_singleton.mp committed]
    · have uncommitted := (fair.accepted (tells.accepted accepts)).1
      refine ⟨fun g asked q demands => ?_, tells.still uncommitted episode member⟩
      obtain ⟨k, committed, _⟩ := tells.asked episode member g asked q demands
      rw [uncommitted] at committed
      exact List.not_mem_nil committed

section Related

def unused : Session where
  config := {}
  program := .empty
  nextSymbol := 0
  nextReport := 0

def selfRelation : Obligation := ⟨.subtype default (.perm .my) (.perm .my), []⟩

/-- One call relates a permission to itself: the test of its second branch will be accepted. -/
def related : Machine Unit :=
  ({ session := unused } : Machine Unit).start 0 (Rules.compatibleChains (.root []) .my .my selfRelation)

theorem accepts_related : (related.chronicle 60).any Episode.accepts = true := by decide +kernel

theorem course_related :
    Course (.root []) .my .my selfRelation 0 (related.chronicle 60) (related.run Rules.answer 60) := by
  have opened : Course (.root []) .my .my selfRelation 0 [] related := .opens rfl
  exact opened.run 60

theorem exists_committed : ∃ t, ReflTransGen Trial.Step (.start .pair 2) t ∧ t.committed = [1] ∧ t.unreleased = 1 := by
  have tested : ReflTransGen Trial.Step (.start .pair 2) _ := .single (.test (k := 0) rfl rfl)
  have rejected := tested.tail (.reject (k := 0) rfl)
  have released := rejected.tail (.release (k := 0) rfl rfl)
  exact ⟨_, released.tail (.require (k := 1) rfl rfl), rfl, rfl⟩

theorem search_commits_to_one_branch_related :
    Search.start.spawn 0 2 = .ok (.pair, [1, 2]) ∧
    (∃ t, ReflTransGen Trial.Step (.start .pair 2) t ∧ t.committed = [1] ∧ t.search.liveAt 0 = 1) ∧
    Course (.root []) .my .my selfRelation 0 (related.chronicle 60) (related.run Rules.answer 60) ∧
    (related.chronicle 60).any Episode.accepts = true ∧
    ∀ episode ∈ related.chronicle 60, episode.after.inferVars = episode.before.inferVars := by
  obtain ⟨branches, calls⟩ := search_commits_to_one_branch
  obtain ⟨t, run, committed, unreleased⟩ := exists_committed
  obtain ⟨_, _, live, _⟩ := branches 2 _ _ t Search.spawn_pair run
  obtain ⟨_, _, accepted, _⟩ := calls _ _ _ _ _ _ _ course_related
  refine ⟨rfl, ⟨t, run, committed, live.trans unreleased⟩, course_related, accepts_related, fun episode member => ?_⟩
  exact (accepted (List.any_eq_true.mp accepts_related) episode member).2

end Related

end Machine

end Ownership
