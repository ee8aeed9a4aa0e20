import Ownership.Proofs.Expectations
import Ownership.Proofs.Promises
import Ownership.Proofs.WaiterHistories

namespace Ownership

open Relation (ReflGen ReflTransGen)

variable {β : Type}

namespace Crew

variable {a b : Crew β} {heard : Wake → Prop} {i : InferIndex}

def Installs (c : Crew β) (i : InferIndex) : Prop :=
  ∃ t ∈ c.lives, ∃ term, c.session.Takes i term ∧ t.2.Heads False (Session.Takes i term) i

/-- The variable has a lower bound, or is about to get one once the others wait. -/
def Promises (c : Crew β) (i : InferIndex) : Prop :=
  c.session.Bounded i ∨ c.session.default? i ≠ none ∨ c.Installs i

def Attends (c : Crew β) (i : InferIndex) : Prop :=
  c.session.Bounded i ∨ i < c.session.inferVars.length ∧
    ∃ t ∈ c.lives, t.1.isTask = true ∧ t.2.Heads True (fun s => i < s.inferVars.length) i

structure Minds (c : Crew β) : Prop where
  poised : c.session.Poised
  lives : ∀ t ∈ c.lives, t.2.Minds t.1.isTask c.Promises c.session
  given : ∀ i, c.session.default? i ≠ none → c.Attends i

structure Upholds (a b : Crew β) : Prop where
  onward : a.session.Onward b.session
  promises : ∀ i, a.Promises i → b.Promises i
  attends : ∀ i, a.Promises i → a.Attends i → b.Attends i

theorem Upholds.refl (a : Crew β) : a.Upholds a := ⟨.refl _, fun _ => id, fun _ _ => id⟩

theorem Upholds.trans {c : Crew β} (first : a.Upholds b) (second : b.Upholds c) : a.Upholds c :=
  ⟨first.onward.trans second.onward, fun i named => second.promises i (first.promises i named),
    fun i named attends => second.attends i (first.promises i named) (first.attends i named attends)⟩

section Turning

variable (turn : a.Turns Rules.answer heard b)
include turn

theorem Turns.stays {waits : Prop} {good : Session → Prop} {u : Sigma (Live β)} (member : u ∈ a.lives)
    (heads : u.2.Heads waits good i) (fine : good a.session) (inside : ∀ s, good s → i < s.inferVars.length)
    (settled : heard .settled → a.session.Bounded i) :
    b.session.Bounded i ∨ ∃ u' ∈ b.lives, u'.1 = u.1 ∧ u'.2.Heads waits good i := by
  cases turn with
  | @mk _ _ w w' t new rest s'' next alike =>
    rcases Multiset.mem_cons.mp member with rfl | other
    · refine (next.heads heads fine inside settled).imp alike.proceeds.1.toOnward.bounded fun ⟨u', new', rest⟩ => ?_
      exact ⟨u', Multiset.mem_add.mpr (.inl new'), rest⟩
    · exact .inr ⟨u, Multiset.mem_add.mpr (.inr other), rfl, heads⟩

variable (mindful : a.Minds) (told : heard .settled → ∀ i, a.Promises i → a.session.Bounded i)
include mindful told

theorem Turns.defaults : a.session.Onward b.session ∧ b.session.Poised ∧ ∀ i,
    (a.session.default? i ≠ none → b.session.default? i ≠ none) ∧
      (b.session.default? i ≠ none → a.session.default? i ≠ none ∨ b.Attends i) := by
  cases turn with
  | @mk _ _ w w' t new rest s'' next alike =>
    obtain ⟨change, _⟩ := next.minds (mindful.lives t (Multiset.mem_cons_self _ _)) mindful.poised told
    have quiet := alike.proceeds
    rcases change with proceeds | ⟨i, env, o, change, heads⟩
    · have same := proceeds.trans quiet
      refine ⟨same.1.toOnward, same.poised mindful.poised, fun i => ?_⟩
      rw [same.2]
      exact ⟨id, .inl⟩
    · rw [change] at quiet
      obtain ⟨advances, kept, given, _⟩ := Deed.fallback_advances i env o w.session
      have onward := advances.toOnward.trans quiet.1.toOnward
      have poised := advances.poised mindful.poised fun j d has => (given j d has).imp_right fun ⟨_, _, same⟩ => ⟨env, o, same⟩
      refine ⟨onward, quiet.poised poised, fun j => ?_⟩
      rw [quiet.2]
      refine ⟨fun has => by rwa [kept j has], fun has => ?_⟩
      obtain ⟨d, same⟩ := Option.ne_none_iff_exists'.mp has
      rcases given j d same with before | ⟨rfl, inside, _⟩
      · refine .inl ?_
        rw [before]
        exact Option.some_ne_none d
      · obtain ⟨u, there, task, heads⟩ := heads inside
        exact .inr (.inr ⟨onward.inside inside, u, Multiset.mem_add.mpr (.inl there), task, heads⟩)

theorem Turns.upholds : a.Upholds b := by
  obtain ⟨onward, _, defaults⟩ := turn.defaults mindful told
  refine ⟨onward, fun i named => ?_, fun i named attended => ?_⟩
  · rcases id named with bounded | has | ⟨u, member, term, takes, heads⟩
    · exact .inl (onward.bounded bounded)
    · exact .inr (.inl ((defaults i).1 has))
    · refine (turn.stays member heads takes (fun _ => And.left) fun heard => told heard i named).imp_right fun ⟨u', there, _, heads⟩ => ?_
      exact .inr ⟨u', there, term, takes.onward onward, heads⟩
  · rcases attended with bounded | ⟨inside, u, member, task, heads⟩
    · exact .inl (onward.bounded bounded)
    · refine (turn.stays member heads inside (fun _ => id) fun heard => told heard i named).imp_right fun ⟨u', there, same, heads⟩ => ?_
      exact ⟨onward.inside inside, u', there, same ▸ task, heads⟩

/-- One fiber takes a step. It is told to go on without a bound only if every promised variable has one. -/
theorem Turns.minds : b.Minds ∧ a.Upholds b := by
  have upholds := turn.upholds mindful told
  obtain ⟨_, poised, defaults⟩ := turn.defaults mindful told
  refine ⟨⟨poised, ?_, fun i has => ?_⟩, upholds⟩
  · cases turn with
    | @mk _ _ w w' t new rest s'' next alike =>
      intro u member
      obtain ⟨_, comes⟩ := next.minds (mindful.lives t (Multiset.mem_cons_self _ _)) mindful.poised told
      rcases Multiset.mem_add.mp member with here | other
      · refine (comes u here).mono (fun i named => ?_) alike.proceeds.1.toOnward
        rcases named with old | has
        · exact upholds.promises i old
        · refine .inr (.inl ?_)
          rwa [alike.proceeds.2]
      · exact (mindful.lives u (Multiset.mem_cons_of_mem other)).mono upholds.promises upholds.onward
  · rcases (defaults i).2 has with before | attends
    · exact upholds.attends i (.inr (.inl before)) (mindful.given i before)
    · exact attends

end Turning

theorem Minds.join (minds : a.Minds) (stay : ∀ t ∈ a.lives, t ∈ b.lives)
    (new : ∀ t ∈ b.lives, t ∈ a.lives ∨ t.2.Minds t.1.isTask b.Promises b.session)
    (advances : a.session.Advances b.session) (defaults : ∀ i, a.session.default? i ≠ none → b.Promises i)
    (fewer : ∀ i d, b.session.default? i = some d → a.session.default? i = some d) : b.Minds ∧ a.Upholds b := by
  have onward := advances.toOnward
  have promises (i : InferIndex) (named : a.Promises i) : b.Promises i := by
    rcases named with bounded | has | ⟨t, member, term, takes, heads⟩
    · exact .inl (onward.bounded bounded)
    · exact defaults i has
    · exact .inr (.inr ⟨t, stay t member, term, takes.onward onward, heads⟩)
  have attends (i : InferIndex) (attended : a.Attends i) : b.Attends i := by
    rcases attended with bounded | ⟨inside, t, member, task, heads⟩
    · exact .inl (onward.bounded bounded)
    · exact .inr ⟨onward.inside inside, t, stay t member, task, heads⟩
  refine ⟨⟨advances.poised minds.poised fun i d has => .inl (fewer i d has), fun t member => ?_, fun i has => ?_⟩,
    onward, promises, fun i _ => attends i⟩
  · exact (new t member).elim (fun old => (minds.lives t old).mono promises onward) id
  · obtain ⟨d, same⟩ := Option.ne_none_iff_exists'.mp has
    refine attends i (minds.given i ?_)
    rw [fewer i d same]
    exact Option.some_ne_none d

theorem Minds.turns (minds : a.Minds) (turns : ReflTransGen (Turns Rules.answer (· = .changed)) a b) :
    b.Minds ∧ a.Upholds b := by
  induction turns with
  | refl => exact ⟨minds, .refl a⟩
  | tail _ turn ih =>
    obtain ⟨minds', upholds⟩ := turn.minds ih.1 nofun
    exact ⟨minds', ih.2.trans upholds⟩

end Crew

theorem Prog.Minds.wakes {α : Type} {numeric : Prop} {promised : InferIndex → Prop} {s : Session}
    {f : Session → Session} {k : Session → Prog α} (minds : (Prog.update f k).Minds numeric promised s)
    (poised : s.Poised) (silent : s.signals = []) (ticket : Nat) (reason : Wake)
    (member : .wake ticket reason ∈ (f s).signals) : reason = .changed := by
  have old : .wake ticket reason ∈ s.signals ∨ reason = .changed := by
    obtain ⟨does | ⟨_, i, env, o, same, _⟩, _⟩ := minds s (.refl s) poised
    · exact does.wakes ticket reason member
    · rw [same] at member
      exact Deed.wakes _ s ticket reason member
  rw [silent] at old
  exact old.resolve_left List.not_mem_nil

namespace Machine

variable {m m' : Machine β} {i : InferIndex}

structure Minds (m : Machine β) : Prop where
  kept : m.Kept
  silent : m.session.signals = []
  crew : m.crew.Minds

theorem silent_handle (rules : Rules) (e : Event β) (silent : m.session.signals = []) :
    (m.handle rules e).session.signals = [] := by
  cases update : e.isUpdate with
  | false =>
    rcases handle_desk (m := m) rules update with ⟨d, waits, i, speculation, enough, k, rfl⟩ | ⟨summons, _⟩
    · exact silent
    · rw [summons.signals, silent]
      rfl
  | true =>
    unfold Event.isUpdate at update
    split at update
    · simp only [handle, execute, deliverSignals_eq]
    · cases update

theorem Minds.turn (minds : m.Minds) (step : m.step Rules.answer = some m') : m'.Minds ∧ m.crew.Upholds m'.crew := by
  unfold Machine.step at step
  split at step
  · cases step
  · rename_i e rest queue
    cases step
    have first : m.queue = [] ++ e :: rest := queue
    have announces : e.Announces (· = .changed) m.session := by
      cases e with
      | run f =>
        obtain ⟨d, waits, code⟩ := f
        cases code with
        | update f k =>
          have alive : ⟨d, .running (.update f k)⟩ ∈ m.lives := mem_lives_run first
          exact Prog.Minds.wakes (minds.crew.lives _ alive) minds.crew.poised minds.silent
        | _ => trivial
      | _ => trivial
    obtain ⟨kept, turns⟩ := leads_turn minds.kept first announces
    obtain ⟨crew, upholds⟩ := minds.crew.turns turns
    exact ⟨⟨kept, silent_handle _ e minds.silent, crew⟩, upholds⟩

end Machine

structure Session.Sheds (but : InferIndex → Prop) (s s' : Session) : Prop where
  advances : s.Advances s'
  fewer : ∀ j d, s'.default? j = some d → s.default? j = some d
  needless : ∀ j, s.default? j ≠ none → s'.default? j ≠ none ∨ s'.Bounded j ∨ but j
  signals : s'.signals = s.signals

namespace Session

variable {s s' s'' : Session} {but : InferIndex → Prop} {i : InferIndex}

theorem Proceeds.sheds (proceeds : s.Proceeds s') (signals : s'.signals = s.signals) : s.Sheds but s' :=
  ⟨proceeds.1, fun j _ has => (proceeds.2 j).symm.trans has, fun j has => .inl (by rwa [proceeds.2]), signals⟩

theorem sheds_log (depth : Nat) (message : String) (values : List String) :
    s.Sheds but ((Action.log depth message values).exec s).2 := by
  refine (Action.exec_log depth message values s).2.proceeds.sheds ?_
  simp only [Action.log, Action.exec_modify]
  split <;> rfl

theorem Sheds.trans (first : s.Sheds but s') (second : s'.Sheds but s'') : s.Sheds but s'' where
  advances := first.advances.trans second.advances
  fewer j d has := first.fewer j d (second.fewer j d has)
  needless j has := by
    rcases first.needless j has with kept | bounded | excepted
    · exact second.needless j kept
    · exact .inr (.inl (second.advances.bounded bounded))
    · exact .inr (.inr excepted)
  signals := second.signals.trans first.signals

theorem Sheds.weaken {more : InferIndex → Prop} (sheds : s.Sheds but s') (le : ∀ j, but j → more j) : s.Sheds more s' :=
  ⟨sheds.advances, sheds.fewer, fun j has => (sheds.needless j has).imp_right (.imp_right (le j)), sheds.signals⟩

theorem Sheds.missing (sheds : s.Sheds but s') (before : s.default? i = none) : s'.default? i = none := by
  cases has : s'.default? i with
  | none => rfl
  | some d => exact nomatch before.symm.trans (sheds.fewer i d has)

def clear (s : Session) (i : InferIndex) : Session :=
  { s with inferVars := s.inferVars.modify i fun v => { v with fallback := none } }

theorem default?_clear : (s.clear i).default? i = none := by
  simp only [default?, clear, List.getElem?_modify_eq]
  cases s.inferVars[i]? <;> rfl

theorem clear_apart {j : InferIndex} (apart : i ≠ j) : (s.clear i).inferVars[j]? = s.inferVars[j]? := by
  simp [clear, apart]

theorem sheds_clear {v : InferVar} (found : s.inferVars[i]? = some v) (needless : v.lower.isSome = true ∨ but i) :
    s.Sheds but (s.clear i) := by
  have others {j : InferIndex} (apart : i ≠ j) : (s.clear i).default? j = s.default? j :=
    default?_modify rfl fun same => absurd same apart
  have advances : s.Advances (s.clear i) := .modify rfl rfl rfl (fun w _ => w.grows_fallback _) fun _ _ => .inl
  refine ⟨advances, fun j d has => ?_, fun j has => ?_, rfl⟩
  · by_cases same : i = j
    · subst same
      exact nomatch default?_clear.symm.trans has
    · exact (others same).symm.trans has
  · by_cases same : i = j
    · subst same
      exact .inr (needless.imp_left fun bound => advances.bounded ⟨v, found, bound⟩)
    · exact .inl (by rwa [others same])

end Session

theorem Ty.mem_occurrences_of_head {u : Variable} {name : TyName} {args : List Term} :
    {t : Ty} → t.head = .named name args → u ∈ (Ty.named name args).occurrences → u ∈ t.occurrences
  | .perm _ t, head, occurs => List.mem_append_right _ (mem_occurrences_of_head (t := t) head occurs)
  | .named _ _, head, occurs => by
    cases head
    exact occurs

namespace Machine

variable {m m' : Machine β} {i : InferIndex}

theorem defaultTy_named {v : InferVar} (poised : m.session.Poised) (found : m.session.inferVars[i]? = some v) :
    ∃ name args, m.defaultTy v = .named name args ∧ m.session.Sees i (.ty (.named name args)) := by
  unfold Machine.defaultTy
  dsimp only
  generalize chosen : v.uppers.findSome? _ = head
  cases head with
  | none =>
    refine ⟨.primitive m.session.config.defaultIntegerType, [], rfl, fun _ _ u occurs => ?_⟩
    exact absurd (Term.mem_freeVariables.mp occurs) List.not_mem_nil
  | some t =>
    obtain ⟨b, member, named⟩ := List.exists_of_findSome?_eq_some chosen
    have sees := poised.uppers i v found b member
    cases same : b.term with
    | ty u =>
      rw [same] at sees named
      dsimp only at named
      split at named
      · rename_i name args form
        cases named
        refine ⟨name, args, rfl, fun w known x occurs => sees w known x ?_⟩
        exact Term.mem_freeVariables.mpr (Ty.mem_occurrences_of_head form (Term.mem_freeVariables.mp occurs))
      · cases named
    | _ =>
      rw [same] at named
      cases named

theorem defaultTy_of_config (v : InferVar) (same : m'.session.config = m.session.config) :
    m'.defaultTy v = m.defaultTy v := by
  rw [defaultTy, defaultTy, same]

theorem applyFallback_late (rules : Rules) {before : List (InferVar × InferIndex)}
    (after : List (InferVar × InferIndex)) (m : Machine β)
    (listed : ∀ entry ∈ before, m.session.inferVars[entry.2]? = some entry.1) (apart : (before.map Prod.snd).Nodup)
    (late : ∀ entry ∈ before, entry.1.fallback.isSome = true → entry.1.lower.isSome = true) :
    ∃ s, m.session.Sheds (fun _ => False) s ∧ s.config = m.session.config ∧
      (∀ entry ∈ before, s.default? entry.2 = none) ∧
      (∀ j ∉ before.map Prod.snd, s.inferVars[j]? = m.session.inferVars[j]?) ∧
      m.applyFallback rules (before ++ after) = { m with session := s }.applyFallback rules after := by
  induction before generalizing m with
  | nil =>
    exact ⟨m.session, (Session.Proceeds.refl _).sheds rfl, rfl, fun _ member => absurd member List.not_mem_nil,
      fun _ _ => rfl, rfl⟩
  | cons entry before ih =>
    obtain ⟨v, i⟩ := entry
    obtain ⟨found, listed⟩ := List.forall_mem_cons.mp listed
    obtain ⟨here, late⟩ := List.forall_mem_cons.mp late
    obtain ⟨fresh, apart⟩ := List.nodup_cons.mp apart
    rw [List.cons_append, applyFallback]
    cases fallback : v.fallback with
    | none =>
      have none : m.session.default? i = none := by rw [Session.default?, found]; exact fallback
      obtain ⟨s, sheds, config, dropped, others, same⟩ := ih m listed apart late
      exact ⟨s, sheds, config, List.forall_mem_cons.mpr ⟨sheds.missing none, dropped⟩,
        fun j out => others j (List.not_mem_of_not_mem_cons out), same⟩
    | some d =>
      have bound : v.lower.isSome = true := here (by rw [fallback]; rfl)
      have still (entry : InferVar × InferIndex) (member : entry ∈ before) :
          (m.session.clear i).inferVars[entry.2]? = some entry.1 := by
        have there : entry.2 ∈ before.map Prod.snd := List.mem_map_of_mem member
        rw [Session.clear_apart (ne_of_mem_of_not_mem there fresh).symm]
        exact listed entry member
      obtain ⟨s, sheds, config, dropped, others, same⟩ := ih { m with session := m.session.clear i } still apart late
      refine ⟨s, (Session.sheds_clear found (.inl bound)).trans sheds, config, ?_, fun j out => ?_, ?_⟩
      · exact List.forall_mem_cons.mpr ⟨sheds.missing Session.default?_clear, dropped⟩
      · rw [others j (List.not_mem_of_not_mem_cons out)]
        exact Session.clear_apart fun same => out (same ▸ List.mem_cons_self)
      · dsimp only
        rw [if_pos bound]
        exact same

theorem applyFallback_needed (rules : Rules) {v : InferVar} {env : Env} {o : Obligation} (m : Machine β)
    (rest : List (InferVar × InferIndex)) (found : m.session.inferVars[i]? = some v)
    (given : v.fallback = some (.numeric env o)) (free : v.lower = none) :
    ∃ s, m.session.Sheds (· = i) s ∧ m.applyFallback rules ((v, i) :: rest) = (.ok true,
      { m with session := s }.spawn "numeric default" (rules .unit (.subTys env.fork (m.defaultTy v) (.infer i) o))) := by
  let told : Machine β := { m with session := m.session.clear i }.log "applying default for" [v.render i]
  let tells : Action Unit := .log env.depth "numeric default" [(Ty.infer i).render, (told.defaultTy v).render]
  have first : m.session.Sheds (· = i) (m.session.clear i) := Session.sheds_clear found (.inr rfl)
  have sheds : m.session.Sheds (· = i) (tells.exec told.session).2 :=
    (first.trans (Session.sheds_log _ _ _)).trans (Session.sheds_log _ _ _)
  have config : told.session.config = m.session.config := by
    obtain ⟨_, _, _, _, same⟩ := (Action.exec_log 0 "applying default for" [v.render i] (m.session.clear i)).2
    exact (congrArg Session.config same).trans rfl
  refine ⟨_, sheds, ?_⟩
  rw [← defaultTy_of_config v config, applyFallback, given]
  dsimp only
  rw [if_neg (by rw [free]; exact Bool.false_ne_true)]
  rfl

theorem applyFallback_cases (rules : Rules) {vars : List (InferVar × InferIndex)} (m : Machine β)
    (listed : ∀ entry ∈ vars, m.session.inferVars[entry.2]? = some entry.1) (apart : (vars.map Prod.snd).Nodup)
    (numeric : ∀ entry ∈ vars, ∀ d, entry.1.fallback = some d → ∃ env o, d = .numeric env o) :
    (∃ s, m.session.Sheds (fun _ => False) s ∧ (∀ entry ∈ vars, s.default? entry.2 = none) ∧
      m.applyFallback rules vars = (.ok false, { m with session := s })) ∨
    ∃ s before v i after env o, vars = before ++ (v, i) :: after ∧ v.fallback = some (.numeric env o) ∧ v.lower = none ∧
      (∀ entry ∈ before, entry.1.fallback.isSome = true → entry.1.lower.isSome = true) ∧ m.session.Sheds (· = i) s ∧
      m.applyFallback rules vars = (.ok true, { m with session := s }.spawn "numeric default"
        (rules .unit (.subTys env.fork (m.defaultTy v) (.infer i) o))) := by
  let needed (entry : InferVar × InferIndex) : Bool := entry.1.fallback.isSome && entry.1.lower.isNone
  have late (entry : InferVar × InferIndex) (other : ¬ needed entry = true) (has : entry.1.fallback.isSome = true) :
      entry.1.lower.isSome = true := by
    cases lower : entry.1.lower <;> simp_all [needed]
  cases first : vars.find? needed with
  | none =>
    have others := List.find?_eq_none.mp first
    obtain ⟨s, sheds, _, dropped, _, same⟩ :=
      applyFallback_late rules [] m listed apart fun entry member => late entry (others entry member)
    rw [List.append_nil] at same
    exact .inl ⟨s, sheds, dropped, same⟩
  | some entry =>
    obtain ⟨v, i⟩ := entry
    obtain ⟨here, before, after, rfl, others⟩ := List.find?_eq_some_iff_append.mp first
    have late (entry : InferVar × InferIndex) (member : entry ∈ before) :=
      late entry (by simpa using others entry member)
    obtain ⟨d, given⟩ := Option.isSome_iff_exists.mp (Bool.and_eq_true_iff.mp here).1
    have free : v.lower = none := Option.isNone_iff_eq_none.mp (Bool.and_eq_true_iff.mp here).2
    have member : (v, i) ∈ before ++ (v, i) :: after := List.mem_append_right _ List.mem_cons_self
    obtain ⟨env, o, rfl⟩ := numeric _ member d given
    rw [List.map_append, List.map_cons] at apart
    obtain ⟨s, sheds, config, _, kept, same⟩ := applyFallback_late rules ((v, i) :: after) m
      (fun entry member => listed entry (List.mem_append_left _ member)) apart.of_append_left late
    have found : s.inferVars[i]? = some v :=
      (kept i fun there => (List.disjoint_of_nodup_append apart there List.mem_cons_self)).trans (listed _ member)
    obtain ⟨s', sheds', applied⟩ := applyFallback_needed rules { m with session := s } after found given free
    refine .inr ⟨s', before, v, i, after, env, o, rfl, given, free, late, (sheds.weaken fun _ => False.elim).trans sheds', ?_⟩
    rw [same, applied, defaultTy_of_config v config]

theorem Minds.applies (minds : m.Minds) :
    (∃ s, m.session.Sheds (fun _ => False) s ∧ (∀ j, s.default? j = none) ∧
      m.applyFallback Rules.answer m.session.inferVars.zipIdx = (.ok false, { m with session := s })) ∨
    ∃ s i v env o, m.session.inferVars[i]? = some v ∧ v.fallback = some (.numeric env o) ∧ v.lower = none ∧
      (∀ j < i, ∀ w : InferVar, m.session.inferVars[j]? = some w → w.fallback.isSome = true → w.lower.isSome = true) ∧
      m.session.Sheds (· = i) s ∧ m.applyFallback Rules.answer m.session.inferVars.zipIdx =
        (.ok true, { m with session := s }.spawn "numeric default"
          (Rules.answer .unit (.subTys env.fork (m.defaultTy v) (.infer i) o))) := by
  have listed (entry : InferVar × InferIndex) (member : entry ∈ m.session.inferVars.zipIdx) :=
    List.mem_zipIdx_iff_getElem?.mp member
  have apart : (m.session.inferVars.zipIdx.map Prod.snd).Nodup := by
    rw [List.zipIdx_map_snd]
    exact List.nodup_range' ..
  rcases applyFallback_cases Rules.answer m listed apart fun entry member d given =>
    minds.crew.poised.defaults entry.2 d (by rw [Session.default?, Machine.crew, listed entry member]; exact given) with
    ⟨s, sheds, dropped, same⟩ | ⟨s, before, v, i, after, env, o, split, given, free, late, sheds, same⟩
  · refine .inl ⟨s, sheds, fun j => ?_, same⟩
    cases found : m.session.inferVars[j]? with
    | none => exact sheds.missing (by rw [Session.default?, found]; rfl)
    | some v => exact dropped (v, j) (List.mem_zipIdx_iff_getElem?.mpr found)
  · have found : m.session.inferVars[i]? = some v := listed (v, i) (by simp [split])
    have position : before.length = i := by
      have there : m.session.inferVars.zipIdx[before.length]? = some (v, i) := by simp [split]
      rw [List.getElem?_zipIdx] at there
      obtain ⟨_, _, same⟩ := Option.map_eq_some_iff.mp there
      simpa using congrArg Prod.snd same
    refine .inr ⟨s, i, v, env, o, found, given, free, fun j less w known => late (w, j) ?_, sheds, same⟩
    have there : m.session.inferVars.zipIdx[j]? = some (w, j) := by simp [List.getElem?_zipIdx, known]
    rw [split, List.getElem?_append_left (position ▸ less)] at there
    exact List.mem_of_getElem? there

theorem Minds.shed {s : Session} (minds : m.Minds) (sheds : m.session.Sheds (fun _ => False) s) :
    { m with session := s }.Minds ∧ m.crew.Upholds { m with session := s }.crew := by
  have joins : { m with session := s }.crew.Minds ∧ m.crew.Upholds { m with session := s }.crew := by
    refine minds.crew.join (fun _ => id) (fun _ => .inl) sheds.advances (fun i has => ?_) sheds.fewer
    rcases sheds.needless i has with kept | bounded | excepted
    · exact .inr (.inl kept)
    · exact .inl bounded
    · exact excepted.elim
  exact ⟨⟨minds.kept.session s, sheds.signals.trans minds.silent, joins.1⟩, joins.2⟩

theorem Minds.spawn {but : InferIndex → Prop} {s : Session} {description : String} {g : Goal .unit} (minds : m.Minds)
    (sheds : m.session.Sheds but s) (posts : Conduct.dutiful.Posts g)
    (installs : ∀ i, but i → ∃ term, s.Takes i term ∧ (Rules.answer .unit g).Heads False (Session.Takes i term) i) :
    ({ m with session := s }.spawn description (Rules.answer .unit g)).Minds ∧
      m.crew.Upholds ({ m with session := s }.spawn description (Rules.answer .unit g)).crew := by
  let task : Sigma (Live β) := ⟨.task description, .running (Rules.answer .unit g)⟩
  have lives : ({ m with session := s }.spawn description (Rules.answer .unit g)).lives = task ::ₘ m.lives :=
    lives_enqueue { m with session := s } _
  have crew : ({ m with session := s }.spawn description (Rules.answer .unit g)).crew = ⟨task ::ₘ m.lives, s⟩ :=
    congrArg (Crew.mk · s) lives
  have joins : Crew.Minds ⟨task ::ₘ m.lives, s⟩ ∧ m.crew.Upholds ⟨task ::ₘ m.lives, s⟩ := by
    refine minds.crew.join (fun t => Multiset.mem_cons_of_mem) (fun t member => ?_) sheds.advances (fun i has => ?_) sheds.fewer
    · change t ∈ task ::ₘ m.lives at member
      rcases Multiset.mem_cons.mp member with rfl | old
      · exact .inr (Rules.minds_posted posts rfl)
      · exact .inl old
    · rcases sheds.needless i has with kept | bounded | excepted
      · exact .inr (.inl kept)
      · exact .inl bounded
      · obtain ⟨term, takes, heads⟩ := installs i excepted
        exact .inr (.inr ⟨task, Multiset.mem_cons_self task m.lives, term, takes, heads⟩)
  rw [← crew] at joins
  exact ⟨⟨(minds.kept.session s).spawn description _, sheds.signals.trans minds.silent, joins.1⟩, joins.2⟩

theorem promised_idle (idle : m.queue = []) (dropped : ∀ j, m.session.default? j = none) (named : m.crew.Promises i) :
    m.session.Bounded i := by
  rcases named with bounded | has | ⟨t, member, term, _, heads⟩
  · exact bounded
  · exact absurd (dropped i) has
  · have member : t ∈ m.lives := member
    rw [lives, idle] at member
    rcases Multiset.mem_add.mp member with rest | joined
    · rcases Multiset.mem_add.mp rest with queued | parked
      · exact absurd queued (Multiset.notMem_zero _)
      · obtain ⟨entry, _, rfl⟩ := List.mem_map.mp parked
        exact heads.1.elim
    · obtain ⟨⟨n, j⟩, _, rfl⟩ := List.mem_map.mp joined
      cases j <;> exact heads.elim

theorem Minds.settle (minds : m.Minds) (idle : m.queue = []) (dropped : ∀ j, m.session.default? j = none) :
    m.settleOldest.2.Minds ∧ m.crew.Upholds m.settleOldest.2.crew := by
  obtain ⟨s, alike, signals, ⟨e, failed⟩ | ⟨ticket, woken⟩⟩ := m.settleOldest_cases
  · rw [failed]
    exact minds.shed (alike.proceeds.sheds signals)
  · obtain ⟨minds', upholds⟩ := minds.shed (alike.proceeds.sheds signals)
    let quiet : Machine β := { m with session := s }
    have bounded (i : InferIndex) : quiet.crew.Promises i → s.Bounded i :=
      promised_idle (m := quiet) idle fun j => (alike.default? j).trans (dropped j)
    obtain ⟨kept, turns⟩ : _ ∧ ReflGen (Crew.Turns Rules.answer fun _ => True) _ _ := turns_wake minds'.kept ticket trivial
    have silent : (quiet.wake ticket .settled).session.signals = [] := by
      unfold wake
      split <;> exact minds'.silent
    rw [woken]
    rcases (Relation.reflGen_iff _ _ _).mp turns with same | turn
    · refine ⟨⟨kept, silent, ?_⟩, ?_⟩ <;> rw [same]
      · exact minds'.crew
      · exact upholds
    · obtain ⟨crew, more⟩ := turn.minds minds'.crew fun _ => bounded
      exact ⟨⟨kept, silent, crew⟩, upholds.trans more⟩

/-- A step of a machine that is driven: a task comes in, an event is handled or, when nothing can go on, a default is
applied or the oldest waiter settled. -/
inductive Move (m : Machine β) : Machine β → Prop
  | task (description : String) {g : Goal .unit} (posts : Conduct.dutiful.Posts g) :
    Move m (m.spawn description (Rules.answer .unit g))
  | turn {m' : Machine β} (step : m.step Rules.answer = some m') : Move m m'
  | default {m' : Machine β} (idle : m.queue = [])
    (applied : m.applyFallback Rules.answer m.session.inferVars.zipIdx = (.ok true, m')) : Move m m'
  | settle {m' : Machine β} (idle : m.queue = [])
    (needless : m.applyFallback Rules.answer m.session.inferVars.zipIdx = (.ok false, m')) : Move m m'.settleOldest.2

theorem Minds.default (minds : m.Minds)
    (applied : m.applyFallback Rules.answer m.session.inferVars.zipIdx = (.ok true, m')) :
    m'.Minds ∧ m.crew.Upholds m'.crew := by
  rcases minds.applies with ⟨s, _, _, same⟩ | ⟨s, i, v, env, o, found, _, _, _, sheds, same⟩
  · cases same.symm.trans applied
  · cases same.symm.trans applied
    obtain ⟨name, args, form, sees⟩ := defaultTy_named minds.crew.poised found
    rw [form]
    refine minds.spawn sheds (.inl trivial) fun j mine => ?_
    subst mine
    have inside := (List.getElem?_eq_some_iff.mp found).1
    exact ⟨_, Session.Takes.onward ⟨inside, sees⟩ sheds.advances.toOnward, (Rules.heads_subTys _ o name args).andThen _⟩

theorem Minds.move (minds : m.Minds) (move : m.Move m') : m'.Minds ∧ m.crew.Upholds m'.crew := by
  cases move with
  | task description posts => exact minds.spawn ((Session.Proceeds.refl _).sheds rfl) posts fun _ => False.elim
  | turn step => exact minds.turn step
  | default idle applied => exact minds.default applied
  | @settle m₁ idle needless =>
    rcases minds.applies with ⟨s, sheds, dropped, same⟩ | ⟨s, i, v, env, o, _, _, _, _, _, same⟩
    · cases same.symm.trans needless
      obtain ⟨minds', upholds⟩ := minds.shed sheds
      obtain ⟨minds'', more⟩ := minds'.settle idle dropped
      exact ⟨minds'', upholds.trans more⟩
    · cases same.symm.trans needless

theorem Minds.moves (minds : m.Minds) (moves : ReflTransGen Move m m') : m'.Minds ∧ m.crew.Upholds m'.crew := by
  induction moves with
  | refl => exact ⟨minds, .refl _⟩
  | tail _ move ih =>
    obtain ⟨minds', upholds⟩ := ih.1.move move
    exact ⟨minds', ih.2.trans upholds⟩

theorem moves_run (fuel : Nat) (m : Machine β) : ReflTransGen Move m (m.run Rules.answer fuel) :=
  run_keeps (fun _ _ moves step => moves.tail (.turn step)) .refl fuel

theorem Minds.drive (minds : m.Minds) (fuel rounds : Nat) :
    ReflTransGen Move m (m.drive Rules.answer fuel rounds).2 ∧
      ((m.drive Rules.answer fuel rounds).1 = some (.ok ()) →
        (m.drive Rules.answer fuel rounds).2.queue = [] ∧ (m.drive Rules.answer fuel rounds).2.running = 0) := by
  induction rounds generalizing m with
  | zero => exact ⟨.refl, fun ended => by cases ended⟩
  | succ rounds ih =>
    have ran := moves_run fuel m
    have minds' := (minds.moves ran).1
    rw [Machine.drive]
    generalize m.run Rules.answer fuel = m₁ at ran minds'
    split
    · exact ⟨ran, fun ended => by cases ended⟩
    · exact ⟨ran, fun ended => by cases ended⟩
    · rename_i idle _
      split
      · rename_i ended
        exact ⟨ran, fun _ => ⟨idle, ended⟩⟩
      · split
        · rename_i failed
          rcases minds'.applies with ⟨_, _, _, same⟩ | ⟨_, _, _, _, _, _, _, _, _, _, same⟩ <;> cases same.symm.trans failed
        · rename_i m₂ applied
          have move : m₁.Move m₂ := .default idle applied
          obtain ⟨moves, ends⟩ := ih (minds'.move move).1
          exact ⟨(ran.tail move).trans moves, ends⟩
        · rename_i m₂ needless
          have move : m₁.Move m₂.settleOldest.2 := .settle idle needless
          split
          · rename_i failed
            rw [failed] at move
            exact ⟨ran.tail move, fun ended => by cases ended⟩
          · rename_i settled
            rw [settled] at move
            obtain ⟨moves, ends⟩ := ih (minds'.move move).1
            exact ⟨(ran.tail move).trans moves, ends⟩

theorem Minds.ended (minds : m.Minds) (ended : m.running = 0) (attends : m.crew.Attends i) : m.session.Bounded i := by
  rcases attends with bounded | ⟨_, t, alive, task, _⟩
  · exact bounded
  · exact absurd task (minds.kept.no_task ended alive)

def Reaches (m : Machine β) (i : InferIndex) : Prop :=
  i < m.session.inferVars.length ∧ ∃ d waits env t o k rest, t.head = .infer i ∧
    m.queue = .run ⟨d, waits, (Rules.numeric env t o).andThen k⟩ :: rest

theorem Reaches.move (reaches : m.Reaches i) (move : m.Move m') : m'.Reaches i ∨ m'.session.default? i ≠ none := by
  obtain ⟨inside, d, waits, env, t, o, k, rest, head, queue⟩ := reaches
  cases move with
  | @task description g posts =>
    let task : Event β := .run ⟨.task description, 0, Rules.answer .unit g⟩
    exact .inl ⟨inside, d, waits, env, t, o, k, rest ++ [task], head, congrArg (· ++ [task]) queue⟩
  | turn step =>
    unfold Machine.step at step
    rw [queue] at step
    cases step
    obtain ⟨next, code⟩ : ∃ next, (Rules.numeric env t o).andThen k =
        .update (Deed.fallback i (.numeric env o)).apply next := by
      rw [Rules.numeric, head]
      exact ⟨_, rfl⟩
    refine .inr ?_
    simp only [handle, code, execute, deliverSignals_eq]
    exact (Deed.fallback_advances i env o m.session).2.2.2 inside
  | default idle _ | settle idle _ => cases queue.symm.trans idle

theorem Minds.reached (minds : m.Minds) (reaches : m.Reaches i) (moves : ReflTransGen Move m m') (idle : m'.queue = [])
    (ended : m'.running = 0) : m'.session.Bounded i := by
  induction moves using ReflTransGen.head_induction_on with
  | refl =>
    obtain ⟨_, _, _, _, _, _, _, _, _, queue⟩ := reaches
    exact nomatch queue.symm.trans idle
  | head move rest ih =>
    obtain ⟨minds', _⟩ := minds.move move
    rcases reaches.move move with still | given
    · exact ih minds' still
    · obtain ⟨minds'', upholds⟩ := minds'.moves rest
      exact minds''.ended ended (upholds.attends i (.inr (.inl given)) (minds'.crew.given i given))

theorem minds_idle {s : Session} (poised : s.Poised) (free : ∀ i, s.default? i = none) (silent : s.signals = []) :
    ({ session := s } : Machine β).Minds :=
  ⟨kept_idle s, silent, poised, fun t member => absurd member (Multiset.notMem_zero t),
    fun i given => absurd (free i) given⟩

/-- In whatever order tasks come in and are driven, only something that is awaited is ever refused because nothing
constrains a type. Every variable on which a numeric obligation was carried out has a lower bound when driving has come
to its end. The default that is applied is that of the first variable which has one and no lower bound, and no lower
bound is changed. -/
theorem numeric_obligations_get_bounds {s : Session} (poised : s.Poised) (free : ∀ i, s.default? i = none)
    (silent : s.signals = []) {m : Machine β} (course : ReflTransGen Move { session := s } m) :
    (∀ d ∈ m.session.diagnostics, d.BlamesNothing → d.code = some .awaitNonFuture) ∧
      (∀ fuel rounds m', m.drive Rules.answer fuel rounds = (some (.ok ()), m') → ReflTransGen Move m m' ∧
        ∀ m₁ i, ReflTransGen Move { session := s } m₁ → m₁.Reaches i → ReflTransGen Move m₁ m' → m'.session.Bounded i) ∧
      (∀ m', m.applyFallback Rules.answer m.session.inferVars.zipIdx = (.ok true, m') →
        ∃ i v env o, m.session.inferVars[i]? = some v ∧ v.fallback = some (.numeric env o) ∧ v.lower = none ∧
          (∀ j < i, ∀ w : InferVar, m.session.inferVars[j]? = some w → w.fallback.isSome = true → w.lower.isSome = true) ∧
          m'.queue = m.queue ++ [.run ⟨.task "numeric default", 0,
            Rules.answer .unit (.subTys env.fork (m.defaultTy v) (.infer i) o)⟩]) ∧
      ∀ m', ReflTransGen Move m m' → ∀ (i : InferIndex) (v : InferVar) b, m.session.inferVars[i]? = some v → v.lower = some b →
        ∃ v' : InferVar, m'.session.inferVars[i]? = some v' ∧ v'.lower = some b := by
  have start : ({ session := s } : Machine β).Minds := minds_idle poised free silent
  have minds := (start.moves course).1
  refine ⟨minds.crew.poised.excused, fun fuel rounds m' driven => ?_, fun m' applied => ?_,
    fun m' moves i v b found lower => ?_⟩
  · obtain ⟨moves, ends⟩ := minds.drive fuel rounds
    rw [driven] at moves ends
    obtain ⟨idle, ended⟩ := ends rfl
    exact ⟨moves, fun m₁ i before reaches after => (start.moves before).1.reached reaches after idle ended⟩
  · rcases minds.applies with ⟨_, _, _, same⟩ | ⟨_, i, v, env, o, found, given, free, first, _, same⟩
    · cases same.symm.trans applied
    · cases same.symm.trans applied
      exact ⟨i, v, env, o, found, given, free, first, rfl⟩
  · obtain ⟨v', found', grows⟩ := (minds.moves moves).2.onward.grows i v found
    exact ⟨v', found', grows.lower b lower⟩

def count : Goal .unit := .numeric (Env.root []) (.infer 1) ⟨.numeric default (.ty (.infer 1)) none, []⟩

def counting : Machine Unit := ({ session := restless } : Machine Unit).spawn "count" (Rules.answer .unit count)

theorem counting_gets_bound :
    restless.Poised ∧ (∀ i, restless.default? i = none) ∧ counting.Reaches 1 ∧
      ∃ m', counting.drive Rules.answer 50 2 = (some (.ok ()), m') ∧ m'.session.Bounded 1 := by
  have blank (i : InferIndex) (v : InferVar) (found : restless.inferVars[i]? = some v) :
      v = { kind := .type, span := default, home := .root } := List.eq_of_mem_replicate (List.mem_of_getElem? found)
  have free (i : InferIndex) : restless.default? i = none := by
    cases found : restless.inferVars[i]? with
    | none => rw [Session.default?, found]; rfl
    | some v => rw [Session.default?, found, blank i v found]; rfl
  have poised : restless.Poised := by
    refine ⟨fun i v found b member => ?_, fun i d has => ?_, List.forall_mem_nil _⟩
    · rw [blank i v found] at member
      cases member
    · cases (free i).symm.trans has
  have reaches : counting.Reaches 1 := ⟨by decide, .task "count", 0, .root [], .infer 1, _, fun r => .note count r (.done r), [], rfl, rfl⟩
  have course : ReflTransGen Move { session := restless } counting := .single (.task "count" (.inr trivial))
  have ends : (counting.drive Rules.answer 50 2).1.any Except.toBool = true := by decide +kernel
  obtain ⟨_, bounds, _⟩ := numeric_obligations_get_bounds poised free rfl course
  rcases driven : counting.drive Rules.answer 50 2 with ⟨_ | _ | ⟨⟩, m'⟩
  · rw [driven] at ends
    cases ends
  · rw [driven] at ends
    cases ends
  · obtain ⟨moves, bounded⟩ := bounds 50 2 m' driven
    exact ⟨poised, free, reaches, m', rfl, bounded counting 1 course reaches moves⟩

end Machine

end Ownership
