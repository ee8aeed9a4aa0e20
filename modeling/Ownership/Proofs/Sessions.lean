import Ownership.Checker
import Ownership.Proofs.Promises
import Ownership.Proofs.RegimeExpressions
import Ownership.Proofs.ResolvedTerms

namespace Ownership

variable {β : Type} {R : Regime}

open Relation (ReflTransGen)

structure Session.Begins (R : Regime) (s : Session) : Prop where
  inferVars : s.inferVars = []
  types : ∀ v t, s.variableTys.lookup v = some t → t.In (R.lexicon s)
  fields : ∀ f t, s.program.fieldTy f = some t → f.Declares R t
  members : ∀ a name f, s.program.member a name = some (.function f) → f.Fits R
  unused : ∀ v : Variable, s.nextSymbol ≤ v.id → R.Ready s v

theorem Session.Begins.sound {s : Session} (begins : s.Begins R) : R.Sound s where
  vars i v found := by
    rw [begins.inferVars] at found
    cases found
  mirrored := Session.mirrored_of_none begins.inferVars
  types := begins.types
  fields := begins.fields
  members := begins.members
  unused := begins.unused

def Session.blank (first : Nat) : Session where
  config := {}
  program := .empty
  nextSymbol := first
  nextReport := 0

theorem Session.begins_blank {first : Nat} (unused : ∀ v : Variable, first ≤ v.id → R.Ready (blank first) v) :
    (blank first).Begins R where
  inferVars := rfl
  types _ _ known := nomatch known
  fields _ _ known := nomatch known
  members _ _ _ known := nomatch known
  unused := unused

namespace Action

variable {s : Session}

theorem universeOf_openUniversally (env : Env) (vs : List Variable) (clauses : List WhereClause) (v : Variable) :
    (((openUniversally env vs clauses).exec s).2).universeOf v =
      if v ∈ vs then (env.assuming clauses).home else s.universeOf v := by
  have lookup (us : List (Variable × Universe)) (U : Universe) :
      (vs.foldl (fun us v => (v, U) :: us) us).lookup v = if v ∈ vs then some U else us.lookup v := by
    induction vs generalizing us with
    | nil => rfl
    | cons u vs ih =>
      rw [List.foldl_cons, ih, List.lookup_cons]
      by_cases same : v = u
      · simp [same]
      · simp [same, beq_false_of_ne same]
  change ((vs.foldl (fun us v => (v, (env.assuming clauses).home) :: us) s.universes).lookup v).getD .root = _
  rw [lookup]
  split <;> rfl

variable (sound : R.Sound s)
include sound

theorem obeys_openUniversally (env : Env) {vs : List Variable} (clauses : List WhereClause)
    (laid : ∀ v ∈ vs, ∀ U, R.level v = some U → U = (env.assuming clauses).home) :
    (openUniversally env vs clauses).Obeys R
      (fun env' s' => env' = env.assuming clauses ∧ ∀ v ∈ vs, R.Settled s' v) s := by
  have opened (v : Variable) (member : v ∈ vs) : R.Settled ((openUniversally env vs clauses).exec s).2 v := by
    intro U known
    rw [universeOf_openUniversally, if_pos member, laid v member U known]
  have more : R.Later s ((openUniversally env vs clauses).exec s).2 := by
    refine ⟨.of_same rfl, fun _ => id, fun v settled => ?_⟩
    by_cases member : v ∈ vs
    · exact opened v member
    · intro U known
      rw [universeOf_openUniversally, if_neg member, settled U known]
  exact ⟨sound.carry more rfl rfl le_rfl fun v t known => (sound.types v t known).mono more.within, rfl, opened⟩

theorem obeys_dropWaiter (message : String) (waiter : Waiter) :
    (dropWaiter message waiter).Obeys R (fun _ _ => True) s := by
  refine (obeys_modify sound ⟨rfl, rfl, rfl, rfl, rfl⟩).bind fun _ s' leads _ => ?_
  exact (obeys_inferVar leads.2 waiter.infer).bind fun v s'' leads' _ => obeys_log leads'.2 _ _ _

theorem obeys_settleOldest (running : Nat) : (settleOldest running).Obeys R (fun _ _ => True) s := by
  refine (obeys_get sound).bind fun _ s₁ leads _ => ?_
  refine (obeys_forM leads.2 fun waiter _ s' leads' => obeys_dropWaiter leads'.2 _ waiter).bind fun _ s₂ leads _ => ?_
  refine (obeys_get leads.2).bind fun _ s₃ leads _ => ?_
  split
  · exact obeys_throw leads.2 trivial
  · refine (obeys_modify leads.2 ⟨rfl, rfl, rfl, rfl, rfl⟩).bind fun _ s₄ leads _ => ?_
    refine (obeys_get leads.2).bind fun _ s₅ leads _ => ?_
    split
    · exact obeys_throw leads.2 trivial
    · exact (obeys_dropWaiter leads.2 _ _).bind fun _ _ leads _ => obeys_pure leads.2 trivial

end Action

theorem Machine.session_settleOldest (m : Machine β) :
    m.settleOldest.2.session = ((Action.settleOldest m.running).exec m.session).2 := by
  unfold Machine.settleOldest Action.exec
  split
  · rename_i settled
    rw [settled, Machine.wake]
    split <;> rfl
  · rename_i settled
    rw [settled]

theorem Machine.settleOldest_error {m m' : Machine β} {e : Failure} (settled : m.settleOldest = (.error e, m')) :
    ((Action.settleOldest m.running).exec m.session).1 = .error e ∧ m' = { m with session := m'.session } := by
  unfold Machine.settleOldest at settled
  unfold Action.exec
  split at settled
  · cases settled
  · rename_i failed
    cases settled
    rw [failed]
    exact ⟨rfl, rfl⟩

inductive Session.Prepares (R : Regime) (s : Session) : Session → Prop where
  | fresh (env : Env) (kind : Kind) (span : Span) : Prepares R s ((Action.freshInferVar env kind span).exec s).2
  | opens (env : Env) {vs : List Variable} (clauses : List WhereClause)
    (laid : ∀ v ∈ vs, ∀ U, R.level v = some U → U = (env.assuming clauses).home) :
    Prepares R s ((Action.openUniversally env vs clauses).exec s).2
  | declares (v : Variable) {t : Ty} (known : t.In (R.lexicon s)) :
    Prepares R s ((Action.setVariableTy v t).exec s).2
  | names (kind : Kind) (name : Option String) (span : Span) :
    Prepares R s ((Action.newVariable kind name span).exec s).2
  | aside {s' : Session} (akin : s.Akin s') : Prepares R s s'

theorem Session.Prepares.leads {s s' : Session} (prepares : s.Prepares R s') (sound : R.Sound s) : R.Leads s s' := by
  cases prepares with
  | fresh env kind span => exact (Action.obeys_freshInferVar sound env kind span).1
  | opens env clauses laid => exact (Action.obeys_openUniversally sound env clauses laid).1
  | declares v known => exact (Action.obeys_setVariableTy sound v known).1
  | names kind name span => exact (Action.obeys_newVariable sound kind name span).1
  | aside akin => exact sound.akin akin

/-- A step of a session that is driven from outside. -/
inductive Stage.Proceeds (R : Regime) (σ : Stage β) : Stage β → Prop where
  | turn {τ : Stage β} (turn : σ.Turn Rules.answer τ) : Proceeds R σ τ
  | call {g : Goal .unit} (description : String) (fits : g.Fits R σ.machine.session) :
    Proceeds R σ ⟨σ.machine.spawn description (Rules.answer .unit g), σ.answers⟩
  | ask {shape : Shape} {g : Goal shape} (slot : Nat) (heard : shape.Value → β)
    (fits : g.Fits R σ.machine.session) :
    Proceeds R σ ⟨σ.machine.start slot (.call g fun r => .done (r.map heard)), σ.answers⟩
  | settle : Proceeds R σ ⟨σ.machine.settleOldest.2, σ.answers⟩
  | fallback : Proceeds R σ
      ⟨(σ.machine.applyFallback Rules.answer σ.machine.session.inferVars.zipIdx).2, σ.answers⟩
  | prepare {s : Session} (prepares : σ.machine.session.Prepares R s) :
    Proceeds R σ ⟨{ σ.machine with session := s }, σ.answers⟩

def Regime.aims (R : Regime) (β : Type) : Aims R.contract β where
  root _ r _ := EndsIn (fun _ => True) (Failure.Allowed R) r
  task r _ := EndsIn (fun _ => True) (Failure.Allowed R) r
  root_later post _ := post
  task_later post _ := post
  task_post post := post.imp fun _ _ => trivial

namespace Stage

def Under (R : Regime) (σ : Stage β) : Prop :=
  ∃ slots roll, σ.Coherent R.asks (R.aims β) slots roll

theorem under_idle {s : Session} (answers : List Answer) (sound : R.Sound s) :
    (⟨{ session := s }, answers⟩ : Stage β).Under R := ⟨_, _, coherent_idle (R.aims β) sound⟩

namespace Under

variable {σ τ : Stage β} (under : σ.Under R)
include under

theorem sound : R.Sound σ.machine.session := by
  obtain ⟨_, _, coherent⟩ := under
  exact coherent.correct.sound

theorem failures {e : Failure} (failed : e ∈ σ.machine.failures) : e.Allowed R := by
  obtain ⟨_, _, coherent⟩ := under
  exact coherent.failures e failed

theorem results {slot : Nat} {e : Failure} (told : (slot, .error e) ∈ σ.machine.results) : e.Allowed R := by
  obtain ⟨_, _, coherent⟩ := under
  exact coherent.results _ told

theorem turn (turn : σ.Turn Rules.answer τ) : τ.Under R ∧ R.Leads σ.machine.session τ.machine.session := by
  obtain ⟨slots, roll, coherent⟩ := under
  obtain ⟨roll', next, _, leads⟩ := coherent.turn (Rules.verified_regime R) turn
  exact ⟨⟨slots, roll', next⟩, leads⟩

theorem call {g : Goal .unit} (description : String) (fits : g.Fits R σ.machine.session) :
    (⟨σ.machine.spawn description (Rules.answer .unit g), σ.answers⟩ : Stage β).Under R := by
  obtain ⟨slots, roll, coherent⟩ := under
  exact ⟨slots, roll, coherent.spawn (Rules.verified_regime R) description fits⟩

theorem ask {shape : Shape} {g : Goal shape} (slot : Nat) (heard : shape.Value → β)
    (fits : g.Fits R σ.machine.session) :
    (⟨σ.machine.start slot (.call g fun r => .done (r.map heard)), σ.answers⟩ : Stage β).Under R := by
  obtain ⟨slots, roll, coherent⟩ := under
  refine ⟨_, roll, coherent.start fun w leads => ⟨Goal.Fits.later leads.1 fits, fun _ => trivial,
    fun r w' _ post w'' _ => ?_⟩⟩
  cases r with
  | ok v => trivial
  | error e => exact post

theorem advance {s : Session} (leads : R.Leads σ.machine.session s) :
    (⟨{ σ.machine with session := s }, σ.answers⟩ : Stage β).Under R := by
  obtain ⟨slots, roll, coherent⟩ := under
  have later : R.contract.Later σ.moment ⟨s, σ.answers⟩ := leads.1
  refine ⟨slots, roll, ⟨leads.2, fun join reply told => (coherent.correct.vouches join reply told).later later,
    fun t alive => (coherent.correct.meets t alive).later later⟩, ?_,
    coherent.results, coherent.failures⟩
  exact coherent.books.transfer rfl rfl rfl rfl rfl coherent.books.tickets
    fun _ _ => Iff.rfl

theorem settle : (⟨σ.machine.settleOldest.2, σ.answers⟩ : Stage β).Under R ∧
    R.Leads σ.machine.session σ.machine.settleOldest.2.session := by
  obtain ⟨leads, _⟩ := Action.obeys_settleOldest under.sound σ.machine.running
  rw [← Machine.session_settleOldest] at leads
  refine ⟨?_, leads⟩
  rcases settled : σ.machine.settleOldest with ⟨_ | _, m⟩
  · rw [settled] at leads
    rw [(Machine.settleOldest_error settled).2]
    exact under.advance leads
  · obtain ⟨slots, roll, coherent⟩ := under
    -- a regime knows no debts
    have honours : (σ.scene roll).Honours R.contract R.asks := fun _ owed => owed.elim
    exact ⟨slots, roll, (coherent.settle (Rules.verified_regime R) honours settled).1⟩

theorem settle_fails {e : Failure} {m : Machine β} (failed : σ.machine.settleOldest = (.error e, m)) : e.Allowed R := by
  obtain ⟨_, ends⟩ := Action.obeys_settleOldest under.sound σ.machine.running
  rw [(Machine.settleOldest_error failed).1] at ends
  exact ends

omit under in
theorem defaultTy {v : InferVar} (fits : v.Fits R σ.machine.session) :
    (σ.machine.defaultTy v).In (R.lexicon σ.machine.session) := by
  unfold Machine.defaultTy
  dsimp only
  generalize chosen : v.uppers.findSome? _ = found
  cases found with
  | none => exact Ty.in_named.mpr (List.forall_mem_nil _)
  | some t =>
    obtain ⟨b, member, named⟩ := List.exists_of_findSome?_eq_some chosen
    have keeps := (fits.bounds b (List.mem_append_right _ member)).1
    cases same : b.term with
    | ty u =>
      rw [same] at keeps named
      have head := Ty.In.head (t := u) keeps
      dsimp only at named
      split at named
      · rename_i form
        cases named
        rwa [form] at head
      · cases named
    | _ =>
      rw [same] at named
      cases named

theorem applyFallback {vars : List (InferVar × InferIndex)}
    (known : ∀ entry ∈ vars, entry.1.Fits R σ.machine.session ∧
      (R.lexicon σ.machine.session).infer entry.1.kind entry.2) :
    (∃ found, (σ.machine.applyFallback Rules.answer vars).1 = .ok found) ∧
      (⟨(σ.machine.applyFallback Rules.answer vars).2, σ.answers⟩ : Stage β).Under R ∧
      R.Leads σ.machine.session (σ.machine.applyFallback Rules.answer vars).2.session := by
  induction vars generalizing σ with
  | nil => exact ⟨⟨_, rfl⟩, under, .refl under.sound⟩
  | cons entry vars ih =>
    obtain ⟨v, i⟩ := entry
    obtain ⟨⟨fits, listed⟩, others⟩ := List.forall_mem_cons.mp known
    rw [Machine.applyFallback]
    split
    · exact ih under others
    · rename_i d defaults
      obtain ⟨numeric, env, o, rfl⟩ := fits.default d defaults
      let clear : Action Unit := Action.modifyInferVar i fun v => { v with fallback := none }
      have cleared : R.Leads σ.machine.session (clear.exec σ.machine.session).2 := by
        obtain ⟨u, found, _⟩ := listed
        exact under.sound.fallback found ⟨_, .refl _⟩ (by simp) rfl
      have under' := under.advance cleared
      dsimp only
      split
      · -- the default came too late
        obtain ⟨ends, rest, leads⟩ := ih under' fun entry member =>
          ⟨(others entry member).1.later cleared.1, cleared.1.within.infer _ _ (others entry member).2⟩
        exact ⟨ends, rest, cleared.trans leads⟩
      · let m : Machine β := { σ.machine with session := (clear.exec σ.machine.session).2 }.log
          "applying default for" [v.render i]
        let announce := Action.log env.depth "numeric default" [(Ty.infer i).render, (m.defaultTy v).render]
        have first : R.Leads σ.machine.session m.session := cleared.trans (Action.obeys_log cleared.2 ..).1
        have second : R.Leads m.session (announce.exec m.session).2 := (Action.obeys_log first.2 ..).1
        have default : (m.defaultTy v).In (R.lexicon (announce.exec m.session).2) :=
          (defaultTy (σ := ⟨m, σ.answers⟩) (fits.later first.1)).mono second.1.within
        have leads := first.trans second
        have listed : (R.lexicon (announce.exec m.session).2).infer .type i :=
          leads.1.within.infer _ _ (numeric ▸ listed)
        exact ⟨⟨_, rfl⟩, (under.advance leads).call "numeric default" ⟨default, listed⟩, leads⟩

theorem fallback :
    (∃ found, (σ.machine.applyFallback Rules.answer σ.machine.session.inferVars.zipIdx).1 = .ok found) ∧
      (⟨(σ.machine.applyFallback Rules.answer σ.machine.session.inferVars.zipIdx).2, σ.answers⟩ : Stage β).Under R ∧
      R.Leads σ.machine.session
        (σ.machine.applyFallback Rules.answer σ.machine.session.inferVars.zipIdx).2.session := by
  refine under.applyFallback fun entry member => ?_
  have found := List.mem_zipIdx_iff_getElem?.mp member
  exact ⟨under.sound.vars _ _ found, entry.1, found, rfl⟩

theorem proceeds (step : σ.Proceeds R τ) : τ.Under R ∧ R.Leads σ.machine.session τ.machine.session := by
  cases step with
  | turn turn => exact under.turn turn
  | call description fits => exact ⟨under.call description fits, .refl under.sound⟩
  | ask slot heard fits => exact ⟨under.ask slot heard fits, .refl under.sound⟩
  | settle => exact under.settle
  | fallback => exact under.fallback.2
  | prepare prepares =>
    have leads := prepares.leads under.sound
    exact ⟨under.advance leads, leads⟩

theorem run (steps : ReflTransGen (Proceeds R) σ τ) : τ.Under R ∧ R.Leads σ.machine.session τ.machine.session := by
  induction steps with
  | refl => exact ⟨under, .refl under.sound⟩
  | tail _ step ih =>
    obtain ⟨under, leads⟩ := ih.1.proceeds step
    exact ⟨under, ih.2.trans leads⟩

end Under

theorem proceeds_of_turns {σ τ : Stage β} (turns : ReflTransGen (Turn Rules.answer) σ τ) :
    ReflTransGen (Proceeds R) σ τ :=
  ReflTransGen.mono (fun _ _ => Proceeds.turn) σ τ turns

theorem Under.drive {σ : Stage β} (under : σ.Under R) (fuel rounds : Nat) :
    ∃ τ : Stage β, ReflTransGen (Proceeds R) σ τ ∧ (σ.machine.drive Rules.answer fuel rounds).2 = τ.machine ∧
      ∀ e, (σ.machine.drive Rules.answer fuel rounds).1 = some (.error e) → e.Allowed R := by
  induction rounds generalizing σ with
  | zero => exact ⟨σ, .refl, rfl, fun _ failed => by cases failed⟩
  | succ rounds ih =>
    have ran : ReflTransGen (Proceeds R) σ (σ.run Rules.answer fuel) :=
      proceeds_of_turns (turns_run Rules.answer fuel σ)
    obtain ⟨under', _⟩ := under.run ran
    rw [Machine.drive, ← machine_run]
    generalize σ.run Rules.answer fuel = υ at ran under'
    split
    · exact ⟨υ, ran, rfl, fun _ failed => by cases failed⟩
    · rename_i e _ _ failures
      refine ⟨υ, ran, rfl, fun _ failed => ?_⟩
      cases failed
      exact under'.failures (failures ▸ List.mem_cons_self)
    · split
      · exact ⟨υ, ran, rfl, fun _ failed => by cases failed⟩
      · -- the queue is empty, so a default is applied, or else the oldest waiter is settled
        obtain ⟨⟨_, ends⟩, under'', _⟩ := under'.fallback
        have applied := ran.tail .fallback
        split
        · rename_i found
          rw [found] at ends
          cases ends
        · rename_i found
          rw [found] at applied under''
          obtain ⟨τ, steps, same, allowed⟩ := ih under''
          exact ⟨τ, applied.trans steps, same, allowed⟩
        · rename_i found
          rw [found] at applied under''
          have settled := applied.tail .settle
          obtain ⟨under₃, _⟩ := under''.settle
          dsimp only at settled under₃
          split
          · rename_i failed
            rw [failed] at settled
            refine ⟨_, settled, rfl, fun _ same => ?_⟩
            cases same
            exact under''.settle_fails failed
          · rename_i found
            rw [found] at settled under₃
            obtain ⟨τ, steps, same, allowed⟩ := ih under₃
            exact ⟨τ, settled.trans steps, same, allowed⟩

end Stage

theorem Failure.OfResolution.allowed {e : Failure} (h : e.OfResolution) : e.Allowed R := by
  cases e with
  | reported r => trivial
  | violated v =>
    cases v with
    | expected wanted found | unknownInferVar i => trivial
    | _ => exact h.elim

section Prelude

theorem Prelude.fits_literal (R : Regime) : Prelude.literal.Fits R := by
  refine ⟨⟨fun k t known => ?_, trivial, nofun⟩, .inr (.inl rfl)⟩
  have listed : t ∈ [Prelude.pointerTy (.primitive .u8), .primitive .u32] := List.mem_of_getElem? known
  simp only [List.mem_cons, List.not_mem_nil, or_false] at listed
  rcases listed with rfl | rfl
  · exact ⟨trivial, trivial⟩
  · trivial

theorem Prelude.fits_members (R : Regime) : ∀ entry ∈ Prelude.program.members, ∀ member ∈ entry.2,
    ∀ f, member.2 = .function f → f.Fits R := by
  have listed : Prelude.program.members = [(Prelude.string, [("literal", .function Prelude.literal)])] := rfl
  rw [listed]
  intro entry member named listed f same
  rw [List.mem_singleton.mp member] at listed
  rw [List.mem_singleton.mp listed] at same
  cases same
  exact Prelude.fits_literal R

theorem Prelude.fits_items (R : Regime) (s : Session) : ∀ entry ∈ Prelude.items, entry.2.AllFit R s := by
  intro entry member
  simp only [Prelude.items, List.mem_cons, List.not_mem_nil, or_false] at member
  rcases member with rfl | rfl
  · refine Entity.Fits.all (.inr fun v generic => ?_) nofun
    rw [List.mem_singleton.mp generic]
    exact nofun
  · exact Entity.Fits.all (.inr fun v generic => absurd generic List.not_mem_nil) nofun

end Prelude

namespace World

variable {s : Session} {env : Env}

theorem ends_drive {σ : Stage β} (under : σ.Under R) :
    EndsIn (fun _ => True) (Failure.Allowed R) (drive σ.machine).1 := by
  obtain ⟨_, _, _, allowed⟩ := under.drive budget budget
  unfold drive
  split
  · rename_i r m driven
    rw [driven] at allowed
    cases r with
    | ok _ => trivial
    | error e => exact allowed e rfl
  · trivial

theorem ends_runSession (sound : R.Sound s) (fits : env.Fits R s) {expected : Option Ty}
    (wanted : ∀ t, expected = some t → t.In (R.lexicon s)) {body : Source.Expr} (spares : R.Spares body.written) :
    EndsIn (fun _ => True) (Failure.Allowed R) (runSession env body expected s) := by
  let g : Goal .unit := .body env.fork body expected
  have under : (⟨({ session := s } : Machine Empty).spawn "check body" (Rules.answer .unit g), []⟩ :
      Stage Empty).Under R := (Stage.under_idle [] sound).call "check body" ⟨fits.fork, spares, wanted⟩
  have driven := ends_drive under
  unfold runSession
  dsimp only
  split
  · rename_i failed
    rw [failed] at driven
    exact driven
  · split
    · trivial
    · rename_i m _ _ e _
      have resolved := e.ends_resolve env m.session
      rw [Action.exec] at resolved
      split
      · rename_i failed
        rw [failed] at resolved
        exact Failure.OfResolution.allowed resolved
      · trivial

structure Fits (R : Regime) (w : World) : Prop where
  fields : ∀ f t, w.program.fieldTy f = some t → f.Declares R t
  members : ∀ a name f, w.program.member a name = some (.function f) → f.Fits R
  unused : ∀ v : Variable, w.nextSymbol ≤ v.id → R.Ready w.session v
  scope : w.scope.Fits R w.session

theorem Fits.of_entries {w : World} (fields : ∀ entry ∈ w.program.fieldTys, entry.1.Declares R entry.2)
    (members : ∀ entry ∈ w.program.members, ∀ member ∈ entry.2, ∀ f, member.2 = .function f → f.Fits R)
    (unused : ∀ v : Variable, w.nextSymbol ≤ v.id → R.Ready w.session v) (scope : w.scope.Fits R w.session) :
    w.Fits R where
  fields f t known := by
    obtain ⟨entry, found, rfl⟩ := Option.map_eq_some_iff.mp known
    obtain rfl : entry.1 = f := by simpa using List.find?_some found
    exact fields entry (List.mem_of_find?_eq_some found)
  members a name f known := by
    unfold Program.member Program.membersOf at known
    split at known
    · rename_i entry found
      obtain ⟨_, _, split, _⟩ := List.lookup_eq_some_iff.mp known
      exact members entry (List.mem_of_find?_eq_some found) (name, .function f) (by simp [split]) f rfl
    · cases known
  unused := unused
  scope := scope

theorem Fits.begins {w : World} (fits : w.Fits R) : w.session.Begins R where
  inferVars := rfl
  types _ _ known := nomatch known
  fields := fits.fields
  members := fits.members
  unused := fits.unused

theorem ends_checkExpression {w : World} (fits : w.Fits R) {e : Source.Expr} (spares : R.Spares e.written) :
    EndsIn (fun _ => True) (Failure.Allowed R) (w.checkExpression e) := by
  have root : (Env.root w.scope).Fits R w.session := ⟨fits.scope, fun t known => by cases known⟩
  exact ends_runSession fits.begins.sound root (fun t wanted => by cases wanted) spares

/-- The parameters of a function whose body is checked: if one is barred, its name is guarded. -/
structure Bindable (R : Regime) (v : Variable) : Prop where
  free : R.Free v
  guards : R.barred v → ∀ name, v.name = some name → R.guarded name

theorem obeys_bindInputs {inputs : List (Variable × Ty)} (sound : R.Sound s) (fits : env.Fits R s)
    (known : ∀ input ∈ inputs, Bindable R input.1 ∧ ∀ s', input.2.In (R.lexicon s')) :
    (inputs.foldlM functionEnv.bindInput env).Obeys R (fun env' s' => env'.Fits R s') s := by
  induction inputs generalizing env s with
  | nil => exact Action.obeys_pure sound fits
  | cons input inputs ih =>
    obtain ⟨⟨own, types⟩, others⟩ := List.forall_mem_cons.mp known
    have bound : (functionEnv.bindInput env input).Obeys R (fun env' s' => env'.Fits R s') s := by
      unfold functionEnv.bindInput
      split
      · rename_i name named
        exact Action.obeys_withLocal sound fits _ (own.free.admits s).1 (own.guards · name named) (types s)
      · refine (Action.obeys_setVariableTy sound input.1 (types s)).bind fun _ s' leads _ => ?_
        exact Action.obeys_pure leads.2 (fits.later leads.1)
    rw [List.foldlM_cons]
    exact bound.bind fun env' s' leads fits' => ih leads.2 fits' others

section Bodies

variable {w : World} {sig : Signature} (own : ∀ v, v ∈ sig.generics ∨ v ∈ sig.inputs → Bindable R v)
include own

theorem within_body (leased : Variable → Prop) (s : Session) : (sig.terms R leased).Within (R.lexicon s) := by
  have admits {leased : Variable → Prop} (v : Variable) (mentioned : sig.Mentions R leased v) : R.Admits s v := by
    rcases mentioned with generic | ⟨input, _⟩ | ⟨_, other⟩
    · exact (own v (.inl generic)).free.admits s
    · exact (own v (.inr input)).free.admits s
    · exact other.admits s
  exact ⟨fun _ _ => False.elim, admits, fun v (mentioned : sig.Mentions R (fun _ => True) v) =>
    (admits v mentioned).1, id⟩

theorem obeys_functionEnv (declared : sig.Fits R) (f : Function) (sound : R.Sound s) (scope : w.scope.Fits R s) :
    (w.functionEnv f sig).Obeys R (fun env s' => env.Fits R s') s := by
  let named := sig.generics.filterMap fun v => v.name.map fun name => (name, Entity.var v)
  let outer := Env.root (w.scope.withEntries named)
  have laid (v : Variable) (member : v ∈ sig.generics) (U : Universe) (known : R.level v = some U) :
      U = (outer.assuming sig.types.whereClauses).home :=
    absurd ((own v (.inl member)).free.2.symm.trans known) nofun
  refine (Action.obeys_openUniversally sound outer sig.types.whereClauses laid).bind fun env s₁ leads₁ opened => ?_
  have fits : env.Fits R s₁ := by
    rw [opened.1]
    refine ⟨fun group listed entry member => ?_, fun t known => by cases known⟩
    rcases List.mem_cons.mp listed with rfl | outside
    · obtain ⟨v, generic, named⟩ := List.mem_filterMap.mp (List.mem_reverse.mp member)
      obtain ⟨name, known, rfl⟩ := Option.map_eq_some_iff.mp named
      have ⟨free, guards⟩ := own v (.inl generic)
      refine ⟨Entity.Fits.all (e := .var v) (free.admits s₁) nofun, fun u same barred => ?_⟩
      cases same
      exact guards barred name known
    · exact (scope group outside entry member).imp_left (·.later leads₁.1)
  refine (Action.obeys_log leads₁.2 _ _ _).bind fun _ s₂ leads₂ _ => ?_
  refine (obeys_bindInputs leads₂.2 (fits.later leads₂.1) fun input member => ?_).bind fun env' s₃ leads₃ fits' => ?_
  · obtain ⟨input, type⟩ := List.of_mem_zip member
    obtain ⟨k, found⟩ := List.mem_iff_getElem?.mp type
    exact ⟨own _ (.inr input), fun s' => (declared.types.inputTys k _ found).mono (within_body own _ s')⟩
  · refine Action.obeys_pure leads₃.2 ⟨fits'.scope, fun t known => ?_⟩
    cases known
    exact declared.types.outputTy.mono (within_body own _ s₃)

end Bodies

theorem ends_checkFunctionBody {w : World} {f : Function} (fits : w.Fits R) (declared : f.Fits R)
    (own : ∀ sig, f.signature = .ok sig → ∀ v, v ∈ sig.generics ∨ v ∈ sig.inputs → Bindable R v)
    {e : Source.Expr} (spares : R.Spares e.written) :
    EndsIn (fun _ => True) (Failure.Allowed R) (w.checkFunctionBody f e) := by
  unfold Function.Fits at declared
  unfold checkFunctionBody
  split
  · trivial
  · rename_i failed
    rw [failed] at declared
    exact declared
  · rename_i sig found
    rw [found] at declared
    obtain ⟨leads, ends⟩ := obeys_functionEnv (own sig found) declared f fits.begins.sound fits.scope
    rw [Action.exec] at leads ends
    split
    · rename_i failed
      rw [failed] at ends
      exact ends
    · rename_i env session entered
      rw [entered] at leads ends
      refine ends_runSession leads.2 ends (fun t wanted => ?_) spares
      cases wanted
      exact Ty.In.mono (within_body (own sig found) _ session) (Signature.Fits.types declared).outputTy

end World

end Ownership
