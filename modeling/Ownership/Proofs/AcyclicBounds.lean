import Ownership.Proofs.BoundWalks
import Ownership.Proofs.Commitments
import Ownership.Proofs.NumericDefaults
import Ownership.Proofs.TestTermination

namespace Ownership

open Relation (ReflTransGen TransGen)

variable {β : Type}

theorem Conduct.Does.signals {s s' : Session} (does : Conduct.testing.Does s s') : s'.signals = s.signals := by
  refine does.within (R := fun s s' => s'.signals = s.signals) (fun _ => rfl) (fun first second => second.trans first) ?_
  intro d s may
  cases d with
  | log depth message values =>
    have sheds : s.Sheds (fun _ => False) _ := Session.sheds_log depth message values
    exact sheds.signals
  | report d => rfl
  | _ => exact may.elim

theorem Crew.Turns.keeps {C : Conduct} {rules : Rules} {heard : Wake → Prop} {a b : Crew β} (turn : a.Turns rules heard b)
    (closed : C.Closed rules) (kept : ∀ t ∈ a.lives, t.2.KeepsFrom C a.session.inferVars.length) :
    ∀ t ∈ b.lives, t.2.KeepsFrom C b.session.inferVars.length := by
  obtain ⟨next, _, _, _, _, rfl⟩ := turn
  obtain ⟨does, fresh⟩ := next.keeps closed (kept _ (Multiset.mem_cons_self _ _))
  intro t member
  rcases Multiset.mem_add.mp member with new | old
  · exact fresh t new
  · exact (kept t (Multiset.mem_cons_of_mem old)).mono does.known

/-- What goes on are tests, and nobody is to be woken. -/
structure Stage.Testing (σ : Stage β) : Prop where
  kept : σ.machine.Kept
  silent : σ.machine.session.signals = []
  lives : ∀ t ∈ σ.machine.lives, t.2.KeepsFrom .testing σ.machine.session.inferVars.length

namespace Stage.Testing

variable {σ τ : Stage β}

theorem announces (testing : σ.Testing) {e : Event β} (queued : e ∈ σ.machine.queue) :
    e.Announces (fun _ => False) σ.machine.session := by
  cases e with
  | run f =>
    obtain ⟨d, waits, code⟩ := f
    cases code with
    | update f k =>
      obtain ⟨before, after, queue⟩ := List.append_of_mem queued
      intro ticket reason told
      have does := (testing.lives _ (Machine.mem_lives_run queue) _ (Nat.le_refl _)).1
      rw [does.signals, testing.silent] at told
      cases told
    | _ => trivial
  | _ => trivial

theorem turn (testing : σ.Testing) (turn : σ.Turn Rules.answer τ) : τ.Testing := by
  obtain ⟨queue⟩ := turn
  have announces := testing.announces (queue ▸ List.mem_append_right _ List.mem_cons_self)
  obtain ⟨kept, turns⟩ := Machine.leads_turn testing.kept queue announces
  refine ⟨kept, Machine.silent_handle _ _ testing.silent, ?_⟩
  have keeps (c : Crew β) (turns : ReflTransGen (Crew.Turns Rules.answer fun _ => False) σ.machine.crew c) :
      ∀ t ∈ c.lives, t.2.KeepsFrom .testing c.session.inferVars.length := by
    induction turns with
    | refl => exact testing.lives
    | tail _ turn ih => exact turn.keeps Conduct.closed_pledged ih
  exact keeps _ turns

theorem tells : Stage.Tells Rules.answer (fun _ => False) (Stage.Testing (β := β)) :=
  ⟨turn, fun testing _ => testing.announces⟩

theorem alone {s : Session} {sh : Shape} {g : Goal sh} (silent : s.signals = []) (inspects : g.Inspects) :
    Stage.Testing ⟨g.alone s, []⟩ := by
  have lives : (g.alone s).lives = {⟨.root 0, .running (.ask g)⟩} := Machine.lives_enqueue { session := s } _
  refine ⟨(Machine.kept_idle s).start 0 _, silent, fun t member => ?_⟩
  rw [lives] at member
  rw [Multiset.mem_singleton.mp member]
  exact Prog.heeds_asksTest (C := Conduct.keeping _) Conduct.looks_pledged inspects _

end Stage.Testing

namespace Session

variable {s s' : Session} {i : InferIndex} {p : Predicate} {deep : Prop}

/-- The test of an inference variable ends in every order of events if it is not led back to what it looks at. -/
theorem ends_inferHolds (silent : s.signals = []) (looks : p = .copy ∨ p = .move → deep) (plain : deep → s.DeclaresPlain)
    (acc : Acc (s.Consults deep) (.infer i)) (env : Env) :
    Stage.Ends Rules.answer ⟨(Goal.inferHolds env i p).alone s, []⟩ := by
  have tries : s.Tries env deep True (.infer i) := tries_of_acc plain acc (fun _ _ => trivial) _ .refl
  obtain ⟨_, coherent⟩ := coherent_start (tries.1 env p looks).1
  exact coherent.ends_telling Stage.Testing.tells (.alone silent trivial) fun _ _ => id

theorem Acyclic.acc (acyclic : s.Acyclic) (shallow : ¬ deep) (i : InferIndex) : Acc (s.Consults deep) (.infer i) := by
  have free {j : InferIndex} (unbounded : s.lower? j = none) : Acc (s.Consults deep) (.infer j) := by
    refine Acc.intro _ fun _ ⟨t, known, _⟩ => ?_
    rw [term?, unbounded] at known
    cases known
  have bounded (i : InferIndex) : ∀ b, s.lower? i = some b → Acc (s.Consults deep) (.infer i) := by
    induction i using acyclic.wellFounded.induction with
    | h i ih =>
      intro b bound
      refine Acc.intro _ fun n ⟨t, known, named⟩ => ?_
      rw [term?, bound] at known
      cases known
      cases n with
      | var x => exact absurd named.1 shallow
      | infer j =>
        cases next : s.lower? j with
        | none => exact free next
        | some b' => exact ih j ⟨.single ⟨b, bound, named⟩, lt_length_of_lower? next, lt_length_of_lower? bound⟩ b' next
  cases bound : s.lower? i with
  | none => exact free bound
  | some b => exact bounded i b bound

theorem Grows.lower? {b : Bound} (grows : s.Grows s') (bound : s.lower? i = some b) : s'.lower? i = some b := by
  obtain ⟨v, found, lower⟩ := Option.bind_eq_some_iff.mp bound
  obtain ⟨v', found', more⟩ := grows i v found
  exact Option.bind_eq_some_iff.mpr ⟨v', found', more.lower b lower⟩

theorem Acyclic.before (acyclic : s'.Acyclic) (grows : s.Grows s') : s.Acyclic := fun i circle =>
  acyclic i (circle.lift id fun _ _ ⟨b, bound, inside⟩ => ⟨b, grows.lower? bound, inside⟩)

theorem Acyclic.after (acyclic : s.Acyclic) (grows : s.Grows s') (occurs : ∀ i b, s.lower? i = none → s'.lower? i = some b →
    ∀ j ∈ b.term.infers, ¬ ReflTransGen s'.Mentions j i) : s'.Acyclic := by
  intro i circle
  -- Whatever lies on the circle was bounded before, so the circle was there.
  have known {k l : InferIndex} (first : ReflTransGen s'.Mentions i k) (step : s'.Mentions k l)
      (rest : ReflTransGen s'.Mentions l i) : s.Mentions k l := by
    obtain ⟨b, bound, inside⟩ := step
    cases before : s.lower? k with
    | none => exact absurd (rest.trans first) (occurs k b before bound l inside)
    | some b' =>
      cases bound.symm.trans (grows.lower? before)
      exact ⟨b, before, inside⟩
  have back {j : InferIndex} (path : TransGen s'.Mentions i j) (rest : ReflTransGen s'.Mentions j i) :
      TransGen s.Mentions i j := by
    induction path with
    | single step => exact .single (known .refl step rest)
    | tail path step ih => exact .tail (ih (.head step rest)) (known path.to_reflTransGen step rest)
  exact acyclic i (back circle .refl)

end Session

namespace World

/-- The sessions with which the check of an expression and of the body of a function start. -/
inductive Opens (w : World) : Session → Prop
  | expression : Opens w w.session
  | body {f : Function} {sig : Signature} {env : Env} {s : Session} (given : f.signature = .ok sig)
    (entered : (w.functionEnv f sig).run.run w.session = (.ok env, s)) : Opens w s

/-- Nothing was inferred, reported or announced. -/
structure Fresh (s s' : Session) : Prop where
  inferVars : s'.inferVars = s.inferVars
  diagnostics : s'.diagnostics = s.diagnostics
  signals : s'.signals = s.signals

theorem Fresh.trans {s s' s'' : Session} (first : Fresh s s') (second : Fresh s' s'') : Fresh s s'' :=
  ⟨second.1.trans first.1, second.2.trans first.2, second.3.trans first.3⟩

theorem fresh_functionEnv (w : World) (f : Function) (sig : Signature) : (w.functionEnv f sig).Within Fresh := by
  have inputs (env : Env) (inputs : List (Variable × Ty)) : (inputs.foldlM functionEnv.bindInput env).Within Fresh := by
    induction inputs generalizing env with
    | nil => exact fun s => ⟨rfl, rfl, rfl⟩
    | cons input inputs ih =>
      rw [List.foldlM_cons]
      refine .bind @Fresh.trans (fun s => ?_) ih
      unfold functionEnv.bindInput
      split <;> exact ⟨rfl, rfl, rfl⟩
  refine .bind @Fresh.trans (fun s => ⟨rfl, rfl, rfl⟩) fun env => .bind @Fresh.trans (fun s => ?_) fun _ =>
    .bind @Fresh.trans (inputs env _) fun env s => ⟨rfl, rfl, rfl⟩
  simp only [Action.log, Action.exec_modify]
  split <;> exact ⟨rfl, rfl, rfl⟩

variable {w : World} {s : Session}

theorem Opens.fresh (opens : w.Opens s) : Fresh w.session s := by
  cases opens with
  | expression => exact ⟨rfl, rfl, rfl⟩
  | @body f sig _ _ _ entered =>
    have fresh := fresh_functionEnv w f sig w.session
    rwa [Action.exec, entered] at fresh

theorem Opens.minds (opens : w.Opens s) : ({ session := s } : Machine β).Minds := by
  have none (i : InferIndex) : s.inferVars[i]? = none := by
    rw [opens.fresh.inferVars]
    rfl
  have free (i : InferIndex) : s.default? i = Option.none := by rw [Session.default?, none]; rfl
  refine Machine.minds_idle ⟨fun i v found => ?_, fun i d has => ?_, fun d member => ?_⟩ free opens.fresh.signals
  · cases (none i).symm.trans found
  · cases (free i).symm.trans has
  · rw [opens.fresh.diagnostics] at member
    cases member

theorem Opens.acyclic (opens : w.Opens s) : s.Acyclic := by
  intro i circle
  obtain ⟨_, ⟨b, bound, _⟩, _⟩ := TransGen.head'_iff.mp circle
  rw [Session.lower?, opens.fresh.inferVars] at bound
  cases bound

end World

/-- A step that records no bound which leads back to its own variable. -/
def Machine.Checked (m m' : Machine β) : Prop :=
  m.Move m' ∧ ∀ i b, m.session.lower? i = none → m'.session.lower? i = some b →
    ∀ j ∈ b.term.infers, ¬ ReflTransGen m'.session.Mentions j i

theorem Machine.Minds.acyclic_iff {m m' : Machine β} (minds : m.Minds) (acyclic : m.session.Acyclic)
    (course : ReflTransGen Move m m') : m'.session.Acyclic ↔ ReflTransGen Checked m m' := by
  constructor
  · intro acyclic'
    induction course with
    | refl => exact .refl
    | tail before move ih =>
      have next := ((minds.moves before).1.move move).2.onward.grows
      refine (ih (acyclic'.before next)).tail ⟨move, fun i b _ bound j inside back => ?_⟩
      exact acyclic' i (.head' ⟨b, bound, inside⟩ back)
  · intro checked
    induction checked with
    | refl => exact acyclic
    | tail before step ih =>
      have before := before.lift id fun _ _ => And.left
      exact (ih before).after ((minds.moves before).1.move step.1).2.onward.grows step.2

/-- In the course of a check, in whatever order tasks come in, bounds are acyclic exactly if no step recorded one that
leads back to its own variable. The walks that look for a number, a field, a member or a future then all end, and so
does the test of an inference variable, in every order of events; where it looks through leases, no lease may lead
back either. A future that is found hands over to the comparison of its result. -/
theorem World.walks_end_over_acyclic_bounds {w : World} {s : Session} (opens : w.Opens s) {m : Machine Empty}
    (course : ReflTransGen Machine.Move { session := s } m) :
    (∀ fuel rounds, ReflTransGen Machine.Move { session := s } (m.drive Rules.answer fuel rounds).2) ∧
      (m.session.Acyclic ↔ ReflTransGen Machine.Checked { session := s } m) ∧
      (m.session.Acyclic → ∀ env,
        (∀ t o, (Goal.numeric env t o).Rests m.session) ∧
        (∀ t f, (Goal.fieldTy env t f).Rests m.session) ∧
        (∀ t owner name span, (Goal.member env owner t t name span).Rests m.session) ∧
        (∀ t awaited o, (Goal.future env t awaited o).RestsOr (fun _ => Goal.Supplies awaited) m.session) ∧
        ∀ i p, (p = .copy ∨ p = .move → m.session.DeclaresPlain ∧ WellFounded (m.session.Consults True)) →
          Stage.Ends Rules.answer ⟨(Goal.inferHolds env i p).alone m.session, []⟩) := by
  have start : ({ session := s } : Machine Empty).Minds := opens.minds
  have minds := (start.moves course).1
  refine ⟨fun fuel rounds => course.trans (minds.drive fuel rounds).1, start.acyclic_iff opens.acyclic course,
    fun acyclic env => ⟨?_, ?_, ?_, ?_, fun i p leases => ?_⟩⟩
  · exact fun t o => (Rules.rests_numeric env o (acyclic.founded t)).goal
  · exact fun t f => (Rules.rests_fieldTy env f (acyclic.founded t)).goal
  · exact fun t owner name span => (Rules.rests_member env owner name span (acyclic.founded t) (acyclic.founded t)).goal
  · exact fun t awaited o => Prog.Rests.restsOr (Prog.rests_ask (Rules.rests_futureHead env awaited o (acyclic.founded t)
      fun _ _ => rfl))
  · by_cases depends : p = .copy ∨ p = .move
    · obtain ⟨plain, founded⟩ := leases depends
      exact Session.ends_inferHolds minds.silent (fun _ => trivial) (fun _ => plain) (founded.apply _) env
    · exact Session.ends_inferHolds minds.silent (absurd · depends) False.elim (acyclic.acc id i) env

namespace World

def lastSession (w : World) (e : Source.Expr) : Session :=
  (drive (({ session := w.session } : Machine Empty).spawn "check body"
    (Rules.answer .unit (.body (Env.root w.scope).fork e none)))).2.session

def blank : World where
  config := {}
  program := Prelude.program
  scope := []
  nextSymbol := Prelude.firstFreeId
  nextReport := 0

/-- `{ let x; x = x.reference; }` -/
def keepsItself : Source.Expr :=
  .block default (.letVar ⟨"x", default⟩ none (.statement default
    (.assign default (.id default "x") (.permissionOp default .reference (.id default "x"))) .nil))

/-- The type of `x` is bounded by a reference to `x`, without an error. -/
theorem circular_bound : (blank.checkExpression keepsItself).toOption.map (·.hasErrors) = some false ∧
    ¬ (blank.lastSession keepsItself).Acyclic := by
  have recorded : ((blank.lastSession keepsItself).lower? 0).map (·.term) =
      some (.ty (.perm (.shared [.var ⟨8, .place, some "x", default⟩]) (.infer 0))) := by decide +kernel
  obtain ⟨⟨_, o⟩, bound, rfl⟩ := Option.map_eq_some_iff.1 recorded
  exact ⟨by decide +kernel, fun acyclic => acyclic 0 (.single ⟨_, bound, Ty.mem_infers_of_head rfl⟩)⟩

/-- `{ let x; x = true; }` -/
def takesTruth : Source.Expr :=
  .block default (.letVar ⟨"x", default⟩ none (.statement default
    (.assign default (.id default "x") (.literal default (.boolean "true"))) .nil))

def checking : Machine Empty := ({ session := blank.session } : Machine Empty).spawn "check body"
  (Rules.answer .unit (.body (Env.root []).fork takesTruth none))

theorem walks_end_over_acyclic_bounds_truth : ∃ m : Machine Empty, blank.Opens blank.session ∧
    ReflTransGen Machine.Move { session := blank.session } m ∧ m.session.lower? 0 ≠ none ∧
    ∀ env, (∀ o, (Goal.numeric env (.infer 0) o).Rests m.session) ∧
      Stage.Ends Rules.answer ⟨(Goal.inferHolds env 0 .owned).alone m.session, []⟩ := by
  have start : ReflTransGen Machine.Move { session := blank.session } checking := .single (.task _ (.inl trivial))
  obtain ⟨driven, _⟩ := walks_end_over_acyclic_bounds .expression start
  let m : Machine Empty := (checking.drive Rules.answer 200 2).2
  have single : m.session.inferVars.length = 1 := by decide +kernel
  have recorded : (m.session.lower? 0).map (·.term) = some (.ty (.primitive .bool)) := by decide +kernel
  have bounded : m.session.lower? 0 ≠ none := fun none => by rw [none] at recorded; cases recorded
  have acyclic : m.session.Acyclic := by
    intro i circle
    obtain ⟨_, ⟨b, bound, inside⟩, _⟩ := TransGen.head'_iff.mp circle
    obtain rfl : i = 0 := Nat.lt_one_iff.mp (single ▸ Session.lt_length_of_lower? bound)
    rw [bound] at recorded
    rw [show b.term = _ from Option.some.inj recorded] at inside
    cases inside
  obtain ⟨_, _, ends⟩ := walks_end_over_acyclic_bounds .expression (driven 200 2)
  exact ⟨m, .expression, driven 200 2, bounded, fun env => ⟨(ends acyclic env).1 _, (ends acyclic env).2.2.2.2 0 .owned nofun⟩⟩

end World

end Ownership
