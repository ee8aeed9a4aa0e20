import Ownership.Proofs.ConductRules
import Ownership.Proofs.Ledger
import Ownership.Proofs.Waiters

namespace Ownership

namespace Chain

theorem leaves_foldl (c : Chain) (q : Perm) :
    (c.foldl (fun p l => Perm.apply p l.toPerm) q).leaves = q.leaves ++ c.map Lien.toPerm := by
  induction c generalizing q with
  | nil => simp
  | cons l c ih =>
    have leaf : l.toPerm.leaves = [l.toPerm] := by cases l <;> rfl
    rw [List.foldl_cons, ih, Perm.leaves, leaf, List.append_assoc, List.map_cons, List.singleton_append]

theorem foldlM_toPerm (c ls : Chain) (moves : ∀ l ∈ ls, l.isCopy = false) :
    (ls.map Lien.toPerm).foldlM push c = .ok (c ++ ls) := by
  induction ls generalizing c with
  | nil => rw [List.append_nil]; rfl
  | cons l ls ih =>
    have first := moves l List.mem_cons_self
    have pushed : push c l.toPerm = .ok (c ++ [l]) := by
      cases l <;> simp_all [push, Lien.toPerm, Lien.isCopy]
    rw [List.map_cons, List.foldlM_cons, pushed]
    refine (ih (c ++ [l]) fun m member => moves m (List.mem_cons_of_mem _ member)).trans ?_
    rw [List.append_assoc, List.singleton_append]

theorem ofPerm_toPerm {c : Chain} (proper : c.Proper) : ofPerm c.toPerm = .ok c := by
  cases c with
  | nil => rfl
  | cons l c =>
    have leaf : l.toPerm.leaves = [l.toPerm] := by cases l <;> rfl
    have first : push [] l.toPerm = .ok [l] := by cases l <;> rfl
    rw [ofPerm, toPerm, leaves_foldl, leaf, List.singleton_append, List.foldlM_cons, first]
    exact foldlM_toPerm [l] c proper

end Chain

def Conduct.inquiry (owing : Prop) : Conduct where
  May s d := s.Gains (d.apply s) none
  Calls s g := g.Constrains ∧ (s = .unit → owing)
  Asks _ g := g.Constrains
  Posts _ := False
  Contests := True

namespace Manner

open Contract (ledger constraints)

def orderly (owing : Prop) : Manner where
  toConduct := .inquiry owing
  Has p := p.Orderly owing
  has_done := Prog.orderly_done
  has_andThen := Prog.Orderly.andThen
  has_rest _ h := h
  has_mark h w n := h n w
  has_perform within := Prog.orderly_perform fun s =>
    (within s).within (R := (·.Gains · none)) (fun _ => .of_same rfl) .trans fun _ _ => id
  has_wait {_ i f} h _ := by
    refine .inferVar_bind (fun w v _ _ => ?_) fun _ _ => trivial
    rcases h v with has | ⟨_, _, k, parks, has⟩
    · exact has w
    · rw [parks]
      exact fun w' _ => ⟨trivial, fun wake => has wake w'⟩
  has_call calls _ _ _ := ⟨calls.1, calls.2, fun r w _ _ => Prog.orderly_done r w⟩
  has_race _ _ asks _ _ _ := ⟨asks, fun r w _ _ => Prog.orderly_done r w⟩
  has_gather {_ groups} asks w := by
    have gathers (asked) : ledger.Gathers constraints
        (fun r w' => (Prog.done r).Meets ledger constraints owing (fun _ _ => True) w') groups asked w := by
      induction groups generalizing asked w with
      | nil => exact fun r w' _ _ => Prog.orderly_done r w'
      | cons group groups more =>
        obtain ⟨here, later⟩ := List.forall_mem_cons.mp asks
        exact fun w' _ => ⟨here w'.session, more later w' _⟩
    exact gathers []
  has_contest _ _ some asks _ _ _ := ⟨⟨trivial, some⟩, asks, fun r w _ _ => Prog.orderly_done r w⟩
  has_spawn _ posts := posts.elim

variable {owing : Prop}

theorem compares_orderly : (orderly owing).Compares where
  log s depth message values := .of_same (Action.spares_log depth message values s)
  report _ _ _ := .of_same rfl
  calls _ g tests := by cases g <;> first | exact tests.elim | exact ⟨trivial, nofun⟩
  asks _ g tests := by cases g <;> first | exact tests.elim | trivial
  searches s d part := by
    cases d with
    | release i node =>
      refine .of_same ?_
      rw [Deed.apply, Action.session_releaseBranch]
      cases (s.searches[i]?.getD .start).release node <;> rfl
    | _ => first | exact part.elim | exact .of_same rfl
  callsCheck g part := ⟨by cases g <;> first | exact part.elim | trivial, nofun⟩
  asksCheck _ g part := by cases g <;> first | exact part.elim | trivial
  contests := trivial

theorem calls_orderly (may : owing) (g : Goal .unit) (part : g.Compares) : (orderly owing).Calls g :=
  ⟨by cases g <;> first | exact part.elim | trivial, fun _ => may⟩

end Manner

namespace Prog

open Contract (ledger constraints Proper Incurs)

variable {α γ : Type} {owing : Prop} {w : Moment} {P G : Moment → Prop}

def Outcome (F P : Moment → Prop) : Except Failure Unit → Moment → Prop
  | .ok _, w => P w
  | .error _, w => F w

section Failing

variable {C : Contract} {A : Asks} {F : Moment → Prop}
  (fails : ∀ {g : Goal .unit} {start : Moment} {e : Failure} {v : Moment}, C.Post g start (.error e) v → F v)
include fails

theorem outcome_of_post {g : Goal .unit} {start v : Moment} (comes : C.Post g start (.ok ()) v → P v) :
    (r : Except Failure Unit) → C.Post g start r v → Outcome F P r v
  | .ok (), post => comes post
  | .error _, post => fails post

theorem gathers_failed {K : Except Failure (List (Shape.Value .unit)) → Moment → Prop}
    {groups : List (Session → List (Goal .unit))} {asked : List (Goal .unit × Moment)}
    (gathers : C.Gathers A K groups asked w) :
    C.Gathers A (fun r v => K r v ∧ ∀ e, r = .error e → F v) groups asked w := by
  induction groups generalizing asked w with
  | nil =>
    refine fun r v leads ended => ⟨gathers r v leads ended, ?_⟩
    rintro e rfl
    obtain ⟨a, _, post⟩ := ended
    exact fails post
  | cons group groups ih => exact fun w' leads => ⟨(gathers w' leads).1, ih (gathers w' leads).2⟩

theorem meets_eachGroup {groups : List (Session → List (Goal .unit))}
    (gathers : C.Gathers A (fun r v => ∀ us, r = .ok us → P v) groups [] w) :
    (eachGroup groups).Meets C A owing (Outcome F P) w := by
  refine .eachGroup ((gathers_failed fails gathers).imp (fun _ _ _ => id) fun r v _ ends => ?_)
  obtain ⟨comes, failed⟩ := ends
  cases r with
  | ok us => exact comes us rfl
  | error e => exact failed e rfl

theorem meets_eachBesides {goals : List (Goal .unit)} (allowed : ∀ g ∈ goals, ∀ v, C.Leads w v → A g v)
    (comes : ∀ start v, C.Leads w start → C.Leads start v → (∀ g ∈ goals, C.Post g start (.ok ()) v) → P v) :
    (eachBesides goals).Meets C A owing (Outcome F P) w :=
  .eachBesides fun w' leads => ⟨fun g listed => allowed g listed w' leads, fun v later =>
    ⟨comes w' v leads later, fun _ _ _ => fails⟩⟩

end Failing

theorem failed_of_post {g : Goal .unit} {start : Moment} {e : Failure}
    (post : ledger.Post g start (.error e) w) : w.Failed := ⟨⟨g, .error e⟩, post.1, rfl⟩

theorem meets_record {a : Action γ} {f : γ → Prog Unit} {Spec : Session → Except Failure γ → Session → Prop}
    (may : owing) (spec : ∀ s, Spec s (a.exec s).1 (a.exec s).2)
    (error : ∀ s e s', Spec s (.error e) s' → s.Gains s' none)
    (ok : ∀ w' x s', ledger.Leads w w' → Spec w'.session (.ok x) s' → ∃ r? P,
      w'.session.Gains s' r? ∧ Proper s' r? ∧
      (ledger.Leads w' ⟨s', w'.answers⟩ →
        (f x).Meets ledger constraints owing (Outcome Moment.Failed P) ⟨s', w'.answers⟩) ∧ (∀ v, P v → G v) ∧
      ∀ d : Due, ∀ r, r? = some r → Incurs d r → ledger.Owed s' d → ∀ v, P v → d.Settled v) :
    (perform a >>= f).Meets ledger constraints owing (fun r v => ∀ u, r = .ok u → G v) w := by
  refine .perform_bind fun w' leads => ?_
  have done := spec w'.session
  have same : w'.after (fun s => (a.exec s).2) = ⟨(a.exec w'.session).2, w'.answers⟩ := rfl
  rw [same]
  revert done
  generalize a.exec w'.session = result
  rcases result with ⟨_ | x, s'⟩
  · intro failed
    have gains := error _ _ _ failed
    refine ⟨Contract.leads_of_gains gains trivial leads.sound, fun _ _ => nofun, fun d owed => .inl ?_⟩
    exact (Contract.owed_of_gains gains owed).resolve_right nofun
  · intro succeeded
    obtain ⟨r?, P, gains, proper, meets, gives, settles⟩ := ok w' x s' leads succeeded
    have next := Contract.leads_of_gains gains proper leads.sound
    have meets := meets next
    refine ⟨next, meets.mono fun r v _ outcome => ?_, fun d owed => ?_⟩
    · rintro u rfl
      exact gives v outcome
    · rcases Contract.owed_of_gains gains owed with old | ⟨r, new, incurs⟩
      · exact .inl old
      · refine .inr ⟨may, meets.mono fun result v _ outcome => ?_⟩
        cases result with
        | ok u => exact .inr (settles d r new incurs owed v outcome)
        | error e => exact .inl outcome

end Prog

namespace Rules

open Prog
open Manner (orderly compares_orderly calls_orderly)
open Contract (ledger constraints)

variable {owing : Prop} (env : Env) (p : Predicate) (o : Obligation)

section Recording

variable {i j : InferIndex} {t : Term} {w : Moment} (may : owing)

theorem mem_passToSuccessors {s : Session} (has : s.Has (.edge i j)) :
    ∃ k, .subTerms env t (.ofInfer k j) o ∈ passToSuccessors env i t o s := by
  obtain ⟨v, found, listed, _⟩ := has
  have found : s.inferVars[i]? = some v := found
  refine ⟨v.kind, ?_⟩
  rw [passToSuccessors, found]
  exact List.mem_map_of_mem (f := fun j => Goal.subTerms env t (.ofInfer v.kind j) o) listed

theorem mem_passToPredecessors {s : Session} (mirrors : s.Mirrors j i) :
    .addUpperBound env j t o ∈ passToPredecessors env i t o s := by
  obtain ⟨v, found, listed⟩ := mirrors
  rw [passToPredecessors, found]
  exact List.mem_map_of_mem (f := fun j => Goal.addUpperBound env j t o) listed

include may

theorem meets_addLowerBound (isBound : t.IsBound) :
    (addLowerBound env i t o).Meets ledger constraints owing (fun r v => ∀ u, r = .ok u → v.Bounded t i) w := by
  refine meets_record may (recordLower_spec env i t o) (fun _ _ _ spec => spec.1)
    fun w' x s' leads spec => ?_
  match x, spec with
  | .inl b, ⟨same, has⟩ =>
    refine ⟨none, fun v => v.Bounded t i, .of_same (by rw [same]), trivial, fun next => ?_,
      fun _ => id, nofun⟩
    refine .relay fun start first => ⟨trivial, fun _ => may, fun r v later => ?_⟩
    refine outcome_of_post failed_of_post (fun post => ?_) r
    exact ⟨b.term, (next.trans (first.trans later)).1.1 _ has, .inr ⟨_, _, post.1⟩⟩
  | .inr uppers, ⟨_, gains, _, known⟩ =>
    refine ⟨_, fun v => v.session.Has (.lower i t) ∧ (∀ u, s'.Has (.upper i u) → v.Checked t u) ∧
      (∀ j, s'.Has (.edge i j) → v.Reached t j) ∧ ∀ p, s'.Has (.fact i p) → v.Required p t,
      gains, isBound, fun next => ?_, fun v comes => ⟨t, comes.1, .inl rfl⟩, ?_⟩
    · have recorded : s'.Has (.lower i t) := (gains.has _).mpr (.inr rfl)
      refine meets_eachGroup failed_of_post fun w₁ first => ⟨?_, fun w₂ second => ⟨?_, fun w₃ third => ⟨?_, ?_⟩⟩⟩
      · exact List.forall_mem_map.mpr fun _ _ => trivial
      · exact forall_passToSuccessors env i t o (P := Goal.Constrains) (fun _ => trivial) _
      · exact List.forall_mem_singleton.mpr trivial
      rintro _ v last ended us rfl
      have answered := gather_answered ended
      have upTo₂ := first.trans second
      have upTo₃ := upTo₂.trans third
      refine ⟨(upTo₃.trans last).1.1 _ recorded, fun u has => ?_, fun j has => ?_, fun p has => ?_⟩
      · have before : w'.session.Has (.upper i u) := ((gains.has _).mp has).resolve_right nofun
        obtain ⟨b, listed, rfl⟩ := (known u).mp before
        obtain ⟨_, post⟩ := answered (.subTerms env t b.term (b.obligation.becauseOfLowerBound t o), w₁)
          (by simp; exact .inl ⟨b, listed, rfl, rfl⟩)
        exact ⟨_, _, post.1⟩
      · obtain ⟨k, listed⟩ := mem_passToSuccessors env o (t := t) (upTo₂.1.1 _ has)
        obtain ⟨_, post⟩ := answered (.subTerms env t (.ofInfer k j) o, w₂) (by simp [listed])
        exact post.2 () rfl k j rfl isBound
      · obtain ⟨_, post⟩ := answered (.checkFacts env i, w₃) (by simp)
        exact post.2 () rfl t p (upTo₃.1.1 _ recorded) (upTo₃.1.1 _ has)
    · rintro d r ⟨⟩ incurs owed v ⟨_, checked, passed, required⟩
      rcases Contract.incurs_lower incurs with ⟨j, rfl⟩ | ⟨u, rfl⟩ | ⟨p, rfl⟩
      · exact passed j owed.1
      · exact checked u owed.2
      · exact required p owed.2

theorem meets_addUpperBound :
    (addUpperBound env i t o).Meets ledger constraints owing
      (fun r v => ∀ u, r = .ok u → v.session.Has (.upper i t)) w := by
  refine meets_record may (recordUpper_spec env i t o) (fun _ _ _ spec => spec.1)
    fun w' x s' leads spec => ?_
  match x, spec with
  | none, ⟨same, has⟩ =>
    refine ⟨none, fun v => v.session.Has (.upper i t), .of_same (by rw [same]), trivial, fun next => ?_,
      fun _ => id, nofun⟩
    exact .ok fun v later => (next.trans later).1.1 _ has
  | some lower, ⟨_, gains, _, known⟩ =>
    have recorded : s'.Has (.upper i t) := (gains.has _).mpr (.inr rfl)
    refine ⟨_, fun v => v.session.Has (.upper i t) ∧ (∀ l, s'.Has (.lower i l) → v.Checked l t) ∧
      ∀ j, s'.Has (.edge j i) → v.session.Has (.upper j t), gains, trivial, fun next => ?_,
      fun v comes => comes.1, ?_⟩
    · have before {l : Term} (has : s'.Has (.lower i l)) : ∃ b, lower = some b ∧ b.term = l :=
        (known l).mp (((gains.has _).mp has).resolve_right nofun)
      -- edges that were there when the bound was recorded are still there, and known at both ends
      have passed {w₁ w₂ v : Moment} {j : InferIndex} (later : ledger.Leads ⟨s', w'.answers⟩ w₁)
          (answered : ∀ g ∈ passToPredecessors env i t o w₁.session, ledger.Post g w₂ (.ok ()) v)
          (has : s'.Has (.edge j i)) : v.session.Has (.upper j t) := by
        have listed := mem_passToPredecessors env o (t := t) (later.sound.mirrored j i (later.1.1 _ has))
        exact (answered _ listed).2 () rfl
      cases lower with
      | none =>
        refine .get_bind fun w₁ first => ?_
        have allowed := forall_passToPredecessors env i t o (P := Goal.Constrains) fun _ => trivial
        refine meets_eachBesides failed_of_post (fun g listed _ _ => allowed _ g listed) fun start v next later done => ?_
        refine ⟨(first.trans (next.trans later)).1.1 _ recorded, fun l has => ?_, fun j => passed first done⟩
        obtain ⟨_, none, _⟩ := before has
        exact nomatch none
      | some b =>
        refine meets_eachGroup failed_of_post fun w₁ first => ⟨?_, fun w₂ second => ⟨?_, ?_⟩⟩
        · exact List.forall_mem_singleton.mpr trivial
        · exact forall_passToPredecessors env i t o (P := Goal.Constrains) (fun _ => trivial) _
        rintro _ v last ended us rfl
        have answered := gather_answered ended
        refine ⟨((first.trans second).trans last).1.1 _ recorded, fun l has => ?_, fun j has => ?_⟩
        · obtain ⟨_, ⟨⟩, rfl⟩ := before has
          obtain ⟨_, post⟩ := answered (_, w₁) (by simp; exact .inl rfl)
          exact ⟨_, _, post.1⟩
        · have posts : ∀ g ∈ passToPredecessors env i t o w₂.session, ledger.Post g w₂ (.ok ()) v :=
            fun g listed => (answered (g, w₂) (by simp [listed])).elim fun _ post => post
          exact passed (first.trans second) posts has
    · rintro d r ⟨⟩ incurs owed v ⟨_, checked, passed⟩
      rcases Contract.incurs_upper incurs with ⟨j, rfl⟩ | ⟨l, rfl⟩
      · exact passed j owed.1
      · exact checked l owed.1

theorem meets_relate : (relate env i j o).Meets ledger constraints owing (fun _ _ => True) w := by
  refine (meets_record (G := fun _ => True) may (recordEdge_spec i j) (fun _ _ _ spec => spec.1)
    fun w' x s' leads spec => ?_).mono fun _ _ _ _ => trivial
  match x, spec with
  | none, ⟨same, _⟩ =>
    exact ⟨none, fun _ => True, .of_same (by rw [same]), trivial, fun _ => .ok fun _ _ => trivial,
      fun _ => id, nofun⟩
  | some (bound, uppers), ⟨_, gains, mirrors, _, lowerKnown, upperKnown⟩ =>
    refine ⟨_, fun v => (∀ l, s'.Has (.lower i l) → v.Reached l j) ∧
      ∀ u, s'.Has (.upper j u) → v.session.Has (.upper i u), gains, mirrors, fun next => ?_,
      fun _ _ => trivial, ?_⟩
    · refine meets_eachBesides failed_of_post (fun g listed _ _ => ?_) fun start v first later done => ?_
      · rcases List.mem_append.mp listed with listed | listed
        · obtain ⟨b, found, rfl⟩ := List.mem_map.mp listed
          have has : w'.session.Has (.lower i b.term) :=
            (lowerKnown _).mpr ⟨b, Option.mem_toList.mp found, rfl⟩
          exact leads.sound.bounds i b.term has
        · obtain ⟨b, _, rfl⟩ := List.mem_map.mp listed
          trivial
      refine ⟨fun l has => ?_, fun u has => ?_⟩
      · obtain ⟨b, rfl, rfl⟩ := (lowerKnown l).mp (((gains.has _).mp has).resolve_right nofun)
        have post := done (.addLowerBound env j b.term o) (by simp)
        exact ⟨b.term, .inl rfl, post.2 () rfl⟩
      · obtain ⟨b, listed, rfl⟩ := (upperKnown u).mp (((gains.has _).mp has).resolve_right nofun)
        have post := done (.addUpperBound env i b.term b.obligation)
          (List.mem_append_right _ (List.mem_map_of_mem (f := fun b : Bound =>
            Goal.addUpperBound env i b.term b.obligation) listed))
        exact post.2 () rfl
    · rintro d r ⟨⟩ incurs owed v ⟨passed, yielded⟩
      rcases Contract.incurs_edge incurs with ⟨l, rfl⟩ | ⟨u, rfl⟩
      · exact passed l owed.2
      · exact yielded u owed.2

theorem orderly_establishInfer : (establishInfer env i p o).Orderly owing := by
  intro w
  refine (meets_record (G := fun _ => True) may (recordFact_spec env i p o) (fun _ _ _ spec => spec)
    fun w' x s' leads spec => ?_).mono fun _ _ _ _ => trivial
  match x, spec with
  | none, .inl same =>
    exact ⟨none, fun _ => True, .of_same (by rw [same]), trivial, fun _ => .ok fun _ _ => trivial,
      fun _ => id, nofun⟩
  | none, .inr ⟨gains, free⟩ =>
    refine ⟨_, fun _ => True, gains, trivial, fun _ => .ok fun _ _ => trivial, fun _ => id, ?_⟩
    rintro d r ⟨⟩ incurs owed v _
    obtain ⟨l, rfl⟩ := Contract.incurs_fact incurs
    exact (free l (((gains.has _).mp owed.1).resolve_right nofun)).elim
  | some b, ⟨gains, has⟩ =>
    refine ⟨_, fun v => v.Required p b.term, gains, trivial, fun next => ?_, fun _ _ => trivial, ?_⟩
    · exact .ask fun _ _ => ⟨trivial, fun _ => may, fun r _ _ =>
        outcome_of_post failed_of_post (fun post => ⟨_, _, post.1⟩) r⟩
    · rintro d r ⟨⟩ incurs owed v required
      obtain ⟨l, rfl⟩ := Contract.incurs_fact incurs
      obtain rfl := Session.Has.lower_unique has (((gains.has _).mp owed.1).resolve_right nofun)
      exact required

end Recording

theorem demands_orderly (may : owing) : (orderly owing).Demands p where
  toLooks := compares_orderly.toLooks
  callsDemand _ g part := ⟨by cases g <;> first | exact part.elim | trivial, fun _ => may⟩
  asksDemand _ g part := by cases g <;> first | exact part.elim | trivial
  establishInfer env _ o := orderly_establishInfer env p o may

theorem meets_checkFacts {i : InferIndex} {w : Moment} :
    (checkFacts env i).Meets ledger constraints owing (fun r v => ∀ u, r = .ok u → ∀ t p,
      w.session.Has (.lower i t) → w.session.Has (.fact i p) → v.Required p t) w := by
  refine .inferVar_bind (fun w' v leads found => ?_) fun w' leads => nofun
  have lower {t : Term} (has : w.session.Has (.lower i t)) : ∃ b, v.lower = some b ∧ b.term = t :=
    (Session.has_lower_iff found).mp (leads.1.1 _ has)
  split
  · rename_i free
    refine .ok fun v' later _ _ t p has => ?_
    obtain ⟨b, bound, _⟩ := lower has
    exact nomatch free.symm.trans bound
  · rename_i b bound
    refine .each fun w₁ first => ⟨List.forall_mem_map.mpr fun _ _ => trivial, fun v' later =>
      ⟨fun answered _ _ t p has fact => ?_, fun _ _ _ _ => nofun⟩⟩
    obtain ⟨b', bound', rfl⟩ := lower has
    cases bound.symm.trans bound'
    obtain ⟨⟨p, o⟩, listed, rfl⟩ := (Session.has_fact_iff found).mp (leads.1.1 _ fact)
    exact ⟨_, _, (answered _ (List.mem_map_of_mem listed)).1⟩

section Types

variable {lower upper : Ty} {l u : RedTy} {w : Moment}

def Sheds (w : Moment) (t : Ty) (red : RedTy) : Prop :=
  red = t.red ∨ red = ⟨t.head, .my⟩ ∧ t.head.isRigid = true ∧ w.FoundCopy t.head

theorem Sheds.later {t : Ty} {w' : Moment} (sheds : Sheds w t l) (more : w.Extends w') : Sheds w' t l :=
  sheds.imp_right fun ⟨same, rigid, env, found⟩ => ⟨same, rigid, env, more.2 found⟩

theorem bareInfer_of_rigid {h : Head} {q : Perm} (rigid : h.isRigid = true) : (RedTy.mk h q).bareInfer = none := by
  cases h with
  | named | var => rfl
  | _ => exact nomatch rigid

theorem Sheds.of_infer {i : InferIndex} (sheds : Sheds w (.infer i) l) : l.bareInfer = some i := by
  rcases sheds with rfl | ⟨_, rigid, _⟩
  · rfl
  · exact nomatch rigid

theorem Sheds.of_isBound {t : Ty} (sheds : Sheds w t l) (isBound : Term.IsBound (.ty t)) : l.bareInfer = none := by
  rcases sheds with rfl | ⟨rfl, rigid, _⟩
  · exact isBound.2.1
  · exact bareInfer_of_rigid rigid

theorem isBound_head {h : Head} (below : h ≠ .never) (bare : (RedTy.mk h .my).bareInfer = none) :
    Term.IsBound (.ty h.toTy) := by
  have red : h.toTy.red = ⟨h, .my⟩ := by cases h <;> rfl
  refine ⟨?_, by rw [red]; exact bare, fun _ => by rw [Head.head_toTy]⟩
  rw [Head.head_toTy]
  exact below

theorem Sheds.isBound {t : Ty} (sheds : Sheds w t l) (below : t.head ≠ .never)
    (bare : l.bareInfer = none) : Term.IsBound (.ty (reduced l t)) := by
  have head : l.head = t.head := by rcases sheds with rfl | ⟨rfl, _⟩ <;> rfl
  obtain ⟨h, q⟩ := l
  obtain rfl : h = t.head := head
  unfold reduced
  split
  · rename_i plain
    obtain rfl : q = .my := plain
    exact isBound_head below bare
  · rename_i marked
    rcases sheds with same | ⟨same, _⟩
    · rw [same] at bare marked
      exact ⟨below, bare, fun plain => (marked plain).elim⟩
    · exact (marked (congrArg RedTy.perm same)).elim

theorem Sheds.reduces {t : Ty} (sheds : Sheds w t l) (isBound : Term.IsBound (.ty t)) :
    w.Reduces (.ty t) (.ty (reduced l t)) := by
  unfold reduced
  rcases sheds with rfl | ⟨rfl, _, found⟩
  · split
    · rename_i bare
      exact .inl (congrArg Term.ty (isBound.2.2 bare).symm)
    · exact .inl rfl
  · exact .inr ⟨t, rfl, by rw [if_pos rfl], found⟩

theorem meets_withoutCopyPerm {t : Ty} :
    (withoutCopyPerm env t.red).Meets ledger constraints owing (fun r v => ∀ red, r = .ok red → Sheds v t red) w := by
  unfold withoutCopyPerm
  split
  · refine .ok fun v _ => ?_
    rintro _ ⟨⟩
    exact .inl rfl
  rename_i marked
  have rigid : t.red.head.isRigid = true := by simp_all
  refine .bind (Q := fun r v => ∀ found, r = .ok found → found = true → v.FoundCopy t.head) ?_
    (fun found v _ copies => ?_) fun e v _ _ => nofun
  · refine .ask fun w' _ => ⟨trivial, nofun, fun r v _ post => ?_⟩
    rintro found rfl rfl
    exact ⟨env, post.1⟩
  · split
    · rename_i yes
      refine .log_bind (.ok fun v' later => ?_)
      rintro _ ⟨⟩
      obtain ⟨env, noted⟩ := copies found rfl yes
      exact .inr ⟨rfl, rigid, env, later.1.2 noted⟩
    · refine .ok fun v' later => ?_
      rintro _ ⟨⟩
      exact .inl rfl

def Reaches (lower upper : Ty) (v : Moment) : Prop :=
  ∀ i, upper = .infer i → Term.IsBound (.ty lower) → v.Reached (.ty lower) i

variable (may : owing)
include may

theorem meets_subReduced (below : lower.head ≠ .never) (sheds : Sheds w lower l) (shedsUpper : Sheds w upper u) :
    (subReduced env lower upper l u o).Meets ledger constraints owing
      (fun r v => ∀ x, r = .ok x → Reaches lower upper v) w := by
  have known {i : InferIndex} (same : upper = .infer i) : u.bareInfer = some i :=
    (same ▸ shedsUpper).of_infer
  unfold subReduced
  split
  · rename_i i j inferred _
    refine (meets_relate env o may).relayed.mono fun r v _ _ x _ k _ isBound => ?_
    rw [sheds.of_isBound isBound] at inferred
    exact nomatch inferred
  · rename_i j bare variable_
    refine .relay fun w' leads => ⟨sheds.isBound below bare, fun _ => may, fun r v later post => ?_⟩
    rintro x rfl i same isBound
    rw [known same] at variable_
    cases variable_
    exact ⟨_, (sheds.later (leads.trans later).1).reduces isBound, post.2 () rfl⟩
  · rename_i i _ rigid
    refine .relay fun w' leads => ⟨trivial, fun _ => may, fun r v later post => ?_⟩
    rintro x rfl k same isBound
    rw [known same] at rigid
    exact nomatch rigid
  · rename_i _ rigid
    have both : (Prog.awaited (.each [.subPermsOfHeads env l u o, .subHeads env l.head u.head o])).Heeds
      (orderly owing) := Heeds.awaited (heeds_each_pair trivial trivial)
    refine Meets.mono (both w) fun r v _ _ x _ k same _ => ?_
    rw [known same] at rigid
    exact nomatch rigid

theorem meets_subApart :
    (subApart env lower upper o).Meets ledger constraints owing
      (fun r v => ∀ x, r = .ok x → Reaches lower upper v) w := by
  unfold subApart
  split
  · exact fun _ _ => nofun
  · exact fun _ _ => nofun
  · rename_i never _
    exact .ok fun v _ x _ i _ isBound => (isBound.1 never).elim
  · rename_i below _
    refine .bind (meets_withoutCopyPerm env).awaited (fun l v _ sheds => ?_) fun e v _ _ => nofun
    refine .bind (meets_withoutCopyPerm env).awaited (fun u v' later shedsUpper => ?_)
      fun e v _ _ => nofun
    exact meets_subReduced env o may below ((sheds l rfl).later later.1) (shedsUpper u rfl)

theorem meets_subTys : (subTys env lower upper o).Meets ledger constraints owing
    (fun r v => ∀ x, r = .ok x → Reaches lower upper v) w := by
  unfold subTys
  split
  · rename_i same
    refine .ok fun v _ x _ i inferred isBound => ?_
    rw [same, inferred] at isBound
    exact nomatch isBound.2.1
  · exact (Meets.traced (meets_subApart _ o may)).awaited

end Types

section Permissions

variable {lower upper : Perm} {w : Moment}

def PermReaches (lower upper : Perm) (v : Moment) : Prop :=
  ∀ i, upper = .infer i → Term.IsBound (.perm lower) → v.Reached (.perm lower) i

variable (may : owing)
include may

theorem meets_subChains {l u : Chain} (first : Chain.ofPerm lower = .ok l) (second : Chain.ofPerm upper = .ok u) :
    (subChains env l u o).Meets ledger constraints owing (fun r v => ∀ x, r = .ok x → PermReaches lower upper v) w := by
  have known {i : InferIndex} (same : upper = .infer i) : u.bareInfer = some i := by
    subst same
    cases second
    rfl
  have flat (isBound : Term.IsBound (.perm lower)) : l.bareInfer = none ∧ l.toPerm = lower := by
    obtain ⟨c, found, bare, same⟩ := isBound
    obtain rfl : c = l := Except.ok.inj (found.symm.trans first)
    exact ⟨bare, same⟩
  unfold subChains
  split
  · rename_i i j inferred _
    refine (meets_relate env o may).relayed.mono fun r v _ _ x _ k _ isBound => ?_
    rw [(flat isBound).1] at inferred
    exact nomatch inferred
  · rename_i j bare inferred
    have isBound : Term.IsBound (.perm l.toPerm) :=
      ⟨l, Chain.ofPerm_toPerm (Chain.proper_ofPerm first), bare, rfl⟩
    refine .relay fun w' leads => ⟨isBound, fun _ => may, fun r v later post => ?_⟩
    rintro x rfl i same isBound
    rw [known same] at inferred
    cases inferred
    exact ⟨_, .inl rfl, (flat isBound).2 ▸ post.2 () rfl⟩
  · rename_i i _ rigid
    refine .relay fun w' leads => ⟨trivial, fun _ => may, fun r v later post => ?_⟩
    rintro x rfl k same isBound
    rw [known same] at rigid
    exact nomatch rigid
  · rename_i _ rigid
    have rest : Prog.Heeds (orderly owing) (if l.hasInfer || u.hasInfer then
        (compatibleChains env l.toPerm u.toPerm o).relayed
      else if l.sub u then return ()
      else .refuse env o (.permMismatch l.toPerm.render u.toPerm.render)) := by
      split
      · exact (heeds_compatibleChains compares_orderly env o _ _).relayed
      split
      · exact heeds_pure _
      · exact heeds_refuse compares_orderly.toLooks env o rfl
    refine Meets.mono (rest w) fun r v _ _ x _ k same _ => ?_
    rw [known same] at rigid
    exact nomatch rigid

theorem meets_subPerms : (subPerms env lower upper o).Meets ledger constraints owing
    (fun r v => ∀ x, r = .ok x → PermReaches lower upper v) w := by
  unfold subPerms
  split
  · rename_i same
    refine .ok fun v _ x _ i inferred isBound => ?_
    obtain ⟨c, found, bare, _⟩ := isBound
    rw [same, inferred] at found
    cases found
    exact nomatch bare
  · unfold chainOf
    cases first : Chain.ofPerm lower with
    | error r => exact fun _ _ => nofun
    | ok l =>
      cases second : Chain.ofPerm upper with
      | error r => exact fun _ _ => nofun
      | ok u => exact meets_subChains env o may first second

end Permissions

theorem meets_subTerms {l u : Term} {w : Moment} (may : owing) :
    (subTerms env l u o).Meets ledger constraints owing
      (fun r v => ∀ x, r = .ok x → ∀ k i, u = .ofInfer k i → l.IsBound → v.Reached l i) w := by
  unfold subTerms
  split
  · exact fun _ _ => nofun
  · exact fun _ _ => nofun
  · refine .relay fun w' leads => ⟨trivial, fun _ => may, fun r v later post => ?_⟩
    rintro x rfl k i same isBound
    cases k with
    | type =>
      cases same
      exact post.2 () rfl i rfl isBound
    | _ => exact nomatch same
  · refine .relay fun w' leads => ⟨trivial, fun _ => may, fun r v later post => ?_⟩
    rintro x rfl k i same isBound
    cases k with
    | perm =>
      cases same
      exact post.2 () rfl i rfl isBound
    | _ => exact nomatch same
  · split
    · rename_i equal
      refine .ok fun v _ x _ k i same isBound => ?_
      cases k with
      | place =>
        cases same
        exact (isBound i equal).elim
      | _ => exact nomatch same
    · exact meets_refuse env o _ fun _ _ => nofun
  · exact fun _ _ => nofun

theorem meets_rule {s : Shape} (g : Goal s) (w : Moment) (allowed : g.Constrains) :
    (rule s g).Meets ledger constraints (s = .unit) (fun r v => ∀ x, r = .ok x → g.Records w v) w := by
  have plain {s : Shape} {owing : Prop} {p : Prog s.Value} (heeds : p.Heeds (orderly owing)) :
      p.Meets ledger constraints owing (fun r _ => ∀ x, r = .ok x → True) w :=
    Meets.mono (heeds w) fun _ _ _ _ _ _ => trivial
  cases g with
  | attempt env search node p lower upper o =>
    exact plain (heeds_attempt compares_orderly env o search node p lower upper)
  | contend env search node p lower upper o =>
    exact plain (heeds_contend compares_orderly env o search node p lower upper)
  | require env p t o | establish env p t o | establishTy env p t o | establishPerm env p q o
  | establishUnless env p other t o => exact plain (heeds_demand (demands_orderly p rfl) _ rfl)
  | establishCopyPlace env place o => exact plain (heeds_demand (demands_orderly .copy rfl) _ rfl)
  | establishMovePlace env place o => exact plain (heeds_demand (demands_orderly .move rfl) _ rfl)
  | subTerms env lower upper o => exact meets_subTerms env o rfl
  | subTys env lower upper o => exact meets_subTys env o rfl
  | subPerms env lower upper o => exact meets_subPerms env o rfl
  | subPermsOfHeads env lower upper o =>
    exact plain (heeds_subPermsOfHeads compares_orderly env o (calls_orderly rfl) lower upper)
  | subHeads env lower upper o => exact plain (heeds_subHeads compares_orderly env o (calls_orderly rfl) lower upper)
  | equalTys env a b o => exact plain (Heeds.awaited (heeds_each_pair trivial trivial))
  | addLowerBound env i t o => exact meets_addLowerBound env o rfl allowed
  | addUpperBound env i t o => exact meets_addUpperBound env o rfl
  | checkFacts env i => exact meets_checkFacts env
  | _ => first | exact allowed.elim | exact plain (heeds_test compares_orderly.toLooks _ trivial)

theorem verified_ledger : answer.Verified ledger constraints := by
  intro s g w _ allowed
  refine .noted ((meets_rule g w allowed).mono fun r v leads records => ?_) fun post => ledger.post_later post
  have more : v.Extends (v.noting g r) := ⟨fun _ => id, fun _ => List.mem_cons_of_mem _⟩
  exact ⟨⟨more, leads.sound⟩, List.mem_cons_self, fun x same => (records x same).later more⟩

end Rules

namespace Stage

open Contract (ledger constraints)
open Relation (ReflTransGen)

variable {β : Type} {s : Session} {τ : Stage β}

def noAims (C : Contract) : Aims C β where
  root _ _ _ := True
  task _ _ := True
  root_later _ _ := trivial
  task_later _ _ := trivial
  task_post _ := trivial

theorem settled_of_complete (fresh : ∀ r, ¬ s.Has r)
    (run : ReflTransGen (Step Rules.answer Goal.Constrains) ⟨{ session := s }, []⟩ τ)
    (complete : τ.Complete) (succeeded : ¬ τ.moment.Failed) {d : Due}
    (owed : τ.machine.session.Has d.causes.1 ∧ τ.machine.session.Has d.causes.2) : d.Settled τ.moment := by
  have tidy : s.Tidy := ⟨fun _ _ has => (fresh _ has).elim, fun _ _ has => (fresh _ has).elim⟩
  have idle : Coherent constraints (noAims ledger) _ _ ⟨{ session := s }, []⟩ :=
    coherent_idle (β := β) (noAims ledger) tidy
  obtain ⟨roll, _, honours⟩ := idle.steps Rules.verified_ledger (fun _ allowed _ => allowed)
    (fun _ owed => (fresh _ owed.1).elim) run
  exact (paid_of_complete honours complete owed).resolve_left succeeded

/-- No constraint is lost: in a run that brings constraints in at any time and handles events in any
order, and in which no requirement fails, lower bounds have been passed along the edges and upper bounds
against them, every lower bound was checked against the upper bounds and the facts of its variable, and
bounds at the two ends of an edge were compared unless one was passed on as the other. -/
theorem constraints_kept (fresh : ∀ r, ¬ s.Has r)
    (run : ReflTransGen (Step Rules.answer Goal.Constrains) ⟨{ session := s }, []⟩ τ)
    (complete : τ.Complete) (succeeded : ¬ τ.moment.Failed) :
    (∀ i j, τ.machine.session.Has (.edge i j) →
      (∀ t, τ.machine.session.Has (.lower i t) → ∃ u, τ.machine.session.Has (.lower j u)) ∧
      ∀ t, τ.machine.session.Has (.upper j t) → τ.machine.session.Has (.upper i t)) ∧
    (∀ i t, τ.machine.session.Has (.lower i t) →
      (∀ u, τ.machine.session.Has (.upper i u) → τ.moment.Checked t u) ∧
      ∀ p, τ.machine.session.Has (.fact i p) → τ.moment.Required p t) ∧
    ∀ i j t u, τ.machine.session.Has (.edge i j) → τ.machine.session.Has (.lower i t) →
      τ.machine.session.Has (.lower j u) →
      ∃ t', τ.moment.Reduces t t' ∧ (τ.moment.Checked t' u ∨ u = t') := by
  have settled {d : Due} := settled_of_complete (d := d) fresh run complete succeeded
  refine ⟨fun i j edge => ⟨fun t lower => ?_, fun t upper => ?_⟩, fun i t lower => ⟨fun u upper => ?_,
    fun p fact => ?_⟩, fun i j t u edge lower above => ?_⟩
  · obtain ⟨_, _, m, has, _⟩ := settled (d := .pass i j t) ⟨edge, lower⟩
    exact ⟨m, has⟩
  · exact settled (d := .yield i j t) ⟨edge, upper⟩
  · exact settled (d := .check i t u) ⟨lower, upper⟩
  · exact settled (d := .assure i t p) ⟨lower, fact⟩
  · obtain ⟨t', reduces, m, has, related⟩ := settled (d := .pass i j t) ⟨edge, lower⟩
    obtain rfl := has.lower_unique above
    exact ⟨t', reduces, related.symm⟩

section Cycle

def threeVariables : Session where
  config := {}
  program := .empty
  inferVars := List.replicate 3 { kind := .type, span := default, home := .root }
  nextSymbol := 0
  nextReport := 0

theorem fresh_threeVariables (r : Record) : ¬ threeVariables.Has r := by
  rintro ⟨v, found, knows, _⟩
  obtain rfl := List.eq_of_mem_replicate (List.mem_of_getElem? found)
  cases r <;> simp [InferVar.Knows] at knows

/-- Variables in a circle; a bound comes in at one of them, a bound and a fact at others. -/
def circleCalls : List (Goal .unit) :=
  let env : Env := .root []
  let o (i : InferIndex) (t : Ty) : Obligation := ⟨.subtype default (.ty (.infer i)) (.ty t), []⟩
  [.subTys env (.infer 0) (.infer 1) (o 0 (.infer 1)), .require env .copy (.ty (.infer 0)) (o 0 .bool),
    .subTys env (.infer 1) (.infer 2) (o 1 (.infer 2)), .subTys env (.infer 2) .bool (o 2 .bool),
    .subTys env (.infer 2) (.infer 0) (o 2 (.infer 0)), .subTys env .bool (.infer 1) (o 1 .bool)]

def circled : Stage Empty :=
  run Rules.answer 500 (calling Rules.answer "constraint" ⟨{ session := threeVariables }, []⟩ circleCalls)

theorem constraints_kept_circle : (∀ r, ¬ threeVariables.Has r) ∧ circled.Complete ∧
    ¬ circled.moment.Failed ∧ (∃ t, circled.machine.session.Has (.lower 0 t)) ∧
    circled.moment.Required .copy (.ty .bool) := by
  have complete : circled.Complete := by
    refine complete_of_rest ?_ ?_ ?_ <;> rw [← List.isEmpty_iff] <;> decide +kernel
  have succeeded : ¬ circled.moment.Failed := by decide +kernel
  have allowed : ∀ g ∈ circleCalls, g.Constrains := by simp [circleCalls, Goal.Constrains]
  have turns : ReflTransGen (Step Rules.answer Goal.Constrains) _ circled :=
    (steps_calling "constraint" allowed _).trans (steps_of_turns (turns_run Rules.answer 500 _))
  obtain ⟨passed, checked, _⟩ := constraints_kept fresh_threeVariables turns complete succeeded
  refine ⟨fresh_threeVariables, complete, succeeded, ?_, ?_⟩
  · exact (passed 2 0 (by decide +kernel)).1 (.ty .bool) (by decide +kernel)
  · exact (checked 0 (.ty .bool) (by decide +kernel)).2 .copy (by decide +kernel)

end Cycle

section CopyHead

def sharedBool : Term := .ty (.perm (.shared [.var ⟨0, .place, none, default⟩]) .bool)

def ourBool : Term := .ty (.perm .our .bool)

def boundObligation : Obligation := ⟨.subtype default ourBool ourBool, []⟩

def edgeCalls : List (Goal .unit) :=
  [.addLowerBound (.root []) 1 ourBool boundObligation, .subTys (.root []) (.infer 0) (.infer 1) boundObligation]

def boundCalls : List (Goal .unit) := [.addLowerBound (.root []) 0 sharedBool boundObligation]

def edged : Stage Empty :=
  run Rules.answer 200 (calling Rules.answer "constraint" ⟨{ session := threeVariables }, []⟩ edgeCalls)

/-- A bound with a permission comes in at a variable from which an edge leads to a bounded one. -/
def copyHead : Stage Empty := run Rules.answer 200 (calling Rules.answer "constraint" edged boundCalls)

def comparesSharedWithOur : Answer → Bool
  | ⟨.subTerms _ (.ty (.perm (.shared _) _)) (.ty (.perm .our _)) _, _⟩ => true
  | _ => false

/-- The permission of a bound with a Copy head is dropped on its way along an edge, so that the bound
itself is neither compared with the bound at the other end nor equal to it. -/
theorem bound_not_compared :
    ReflTransGen (Step Rules.answer Goal.Constrains) ⟨{ session := threeVariables }, []⟩ copyHead ∧
    copyHead.Complete ∧ ¬ copyHead.moment.Failed ∧ copyHead.machine.session.Has (.edge 0 1) ∧
    copyHead.machine.session.Has (.lower 0 sharedBool) ∧ copyHead.machine.session.Has (.lower 1 ourBool) ∧
    ¬ copyHead.moment.Checked sharedBool ourBool ∧ ourBool ≠ sharedBool := by
  have bounds : ourBool.IsBound ∧ sharedBool.IsBound := ⟨⟨nofun, rfl, nofun⟩, nofun, rfl, nofun⟩
  have steps (σ : Stage Empty) (goals : List (Goal .unit)) (allowed : ∀ g ∈ goals, g.Constrains) :
      ReflTransGen (Step Rules.answer Goal.Constrains) σ
        (run Rules.answer 200 (calling Rules.answer "constraint" σ goals)) :=
    (steps_calling "constraint" allowed σ).trans (steps_of_turns (turns_run Rules.answer 200 _))
  have compared : copyHead.moment.answers.any comparesSharedWithOur = false := by decide +kernel
  have first : ReflTransGen _ _ edged := steps _ edgeCalls (by simpa [edgeCalls, Goal.Constrains] using bounds.1)
  have last : ReflTransGen _ _ copyHead :=
    steps edged boundCalls (by simpa [boundCalls, Goal.Constrains] using bounds.2)
  refine ⟨first.trans last, ?_, ?_, ?_, ?_, ?_, ?_, ?_⟩
  · refine complete_of_rest ?_ ?_ ?_ <;> rw [← List.isEmpty_iff] <;> decide +kernel
  · decide +kernel
  · decide +kernel
  · decide +kernel
  · decide +kernel
  · rintro ⟨env, o, member⟩
    exact Bool.false_ne_true (compared.symm.trans (List.any_eq_true.mpr ⟨_, member, rfl⟩))
  · nofun

end CopyHead

end Stage

end Ownership
