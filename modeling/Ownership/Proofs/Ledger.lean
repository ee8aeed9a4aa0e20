import Ownership.Proofs.Promises
import Ownership.Proofs.Records
import Ownership.Rules

namespace Ownership

/-- The terms that are passed on as lower bounds: no inference variable, nothing that is below
everything, and no permission or link that makes no difference. -/
def Term.IsBound : Term → Prop
  | .ty t => t.head ≠ .never ∧ t.red.bareInfer = none ∧ (t.red.perm = .my → t = t.head.toTy)
  | .perm p => ∃ c, Chain.ofPerm p = .ok c ∧ c.bareInfer = none ∧ c.toPerm = p
  | .place p => ∀ i, p ≠ .infer i
  | .error _ => True

def Answer.fails (a : Answer) : Bool :=
  a.shape = .unit && match a.value with
    | .ok _ => false
    | .error _ => true

namespace Moment

def Failed (w : Moment) : Prop := ∃ a ∈ w.answers, a.fails = true

instance (w : Moment) : Decidable w.Failed :=
  inferInstanceAs (Decidable (∃ a ∈ w.answers, a.fails = true))

def Checked (w : Moment) (l u : Term) : Prop :=
  ∃ env o, (⟨Goal.subTerms env l u o, .ok ()⟩ : Answer) ∈ w.answers

def Required (w : Moment) (p : Predicate) (t : Term) : Prop :=
  ∃ env o, (⟨Goal.require env p t o, .ok ()⟩ : Answer) ∈ w.answers

def FoundCopy (w : Moment) (h : Head) : Prop :=
  ∃ env, (⟨Goal.holds env .copy (.ty h.toTy), .ok true⟩ : Answer) ∈ w.answers

def Reduces (w : Moment) (t u : Term) : Prop :=
  u = t ∨ ∃ ty : Ty, t = .ty ty ∧ u = .ty ty.head.toTy ∧ w.FoundCopy ty.head

def Bounded (w : Moment) (t : Term) (i : InferIndex) : Prop :=
  ∃ m, w.session.Has (.lower i m) ∧ (m = t ∨ w.Checked t m)

def Reached (w : Moment) (t : Term) (i : InferIndex) : Prop := ∃ u, w.Reduces t u ∧ w.Bounded u i

def Extends (w w' : Moment) : Prop :=
  (∀ r, w.session.Has r → w'.session.Has r) ∧ w.answers ⊆ w'.answers

namespace Extends

variable {w w' w'' : Moment} {p : Predicate} {t u : Term} {i : InferIndex}

theorem refl (w : Moment) : w.Extends w := ⟨fun _ => id, fun _ => id⟩

theorem trans (first : w.Extends w') (second : w'.Extends w'') : w.Extends w'' :=
  ⟨fun r has => second.1 r (first.1 r has), fun _ member => second.2 (first.2 member)⟩

variable (more : w.Extends w')
include more

theorem failed : w.Failed → w'.Failed := fun ⟨a, member, fails⟩ => ⟨a, more.2 member, fails⟩

theorem checked : w.Checked t u → w'.Checked t u := fun ⟨env, o, member⟩ => ⟨env, o, more.2 member⟩

theorem required : w.Required p t → w'.Required p t := fun ⟨env, o, member⟩ => ⟨env, o, more.2 member⟩

theorem bounded : w.Bounded t i → w'.Bounded t i :=
  fun ⟨m, has, above⟩ => ⟨m, more.1 _ has, above.imp_right more.checked⟩

theorem reached : w.Reached t i → w'.Reached t i := by
  rintro ⟨u, same | ⟨ty, first, second, env, member⟩, bounded⟩
  · exact ⟨u, .inl same, more.bounded bounded⟩
  · exact ⟨u, .inr ⟨ty, first, second, env, more.2 member⟩, more.bounded bounded⟩

end Extends

end Moment

/-- Two records, one of which has to be heeded because of the other. -/
inductive Due where
  | pass (i j : InferIndex) (t : Term)
  | yield (i j : InferIndex) (t : Term)
  | check (i : InferIndex) (l u : Term)
  | assure (i : InferIndex) (t : Term) (p : Predicate)

namespace Due

def causes : Due → Record × Record
  | pass i j t => (.edge i j, .lower i t)
  | yield i j t => (.edge i j, .upper j t)
  | check i l u => (.lower i l, .upper i u)
  | assure i t p => (.lower i t, .fact i p)

def Settled (w : Moment) : Due → Prop
  | pass _ j t => w.Reached t j
  | yield i _ t => w.session.Has (.upper i t)
  | check _ l u => w.Checked l u
  | assure _ t p => w.Required p t

theorem Settled.later {w w' : Moment} {d : Due} (settled : d.Settled w) (more : w.Extends w') : d.Settled w' := by
  cases d with
  | pass i j t => exact more.reached settled
  | yield i j t => exact more.1 _ settled
  | check i l u => exact more.checked settled
  | assure i t p => exact more.required settled

end Due

structure Session.Tidy (s : Session) : Prop where
  mirrored : ∀ i j, s.Has (.edge i j) → s.Mirrors i j
  bounds : ∀ i t, s.Has (.lower i t) → t.IsBound

def Goal.Records (start w : Moment) {s : Shape} : Goal s → Prop
  | .addLowerBound _ i t _ => w.Bounded t i
  | .addUpperBound _ i t _ => w.session.Has (.upper i t)
  | .subTerms _ l u _ => ∀ k i, u = .ofInfer k i → l.IsBound → w.Reached l i
  | .subTys _ l u _ => ∀ i, u = .infer i → Term.IsBound (.ty l) → w.Reached (.ty l) i
  | .subPerms _ l u _ => ∀ i, u = .infer i → Term.IsBound (.perm l) → w.Reached (.perm l) i
  | .checkFacts _ i => ∀ t p, start.session.Has (.lower i t) → start.session.Has (.fact i p) →
    w.Required p t
  | _ => True

theorem Goal.Records.later {start w w' : Moment} {s : Shape} {g : Goal s} (records : g.Records start w)
    (more : w.Extends w') : g.Records start w' := by
  cases g with
  | addLowerBound => exact more.bounded records
  | addUpperBound => exact more.1 _ records
  | subTerms => exact fun k i same isBound => more.reached (records k i same isBound)
  | subTys | subPerms => exact fun i same isBound => more.reached (records i same isBound)
  | checkFacts => exact fun t p lower fact => more.required (records t p lower fact)
  | _ => trivial

/-- Every record that has to be heeded is, or something has failed. Every goal takes note of its
answer. -/
def Contract.ledger : Contract where
  Sound w := w.session.Tidy
  Later := Moment.Extends
  Post _ g start r w := (⟨g, r⟩ : Answer) ∈ w.answers ∧ ∀ v, r = .ok v → g.Records start w
  Debt := Due
  Owed s d := s.Has d.causes.1 ∧ s.Has d.causes.2
  Paid d w := w.Failed ∨ d.Settled w
  Waits := True
  later_refl := .refl
  later_trans := .trans
  post_later post more := ⟨more.2 post.1, fun v same => (post.2 v same).later more⟩
  paid_later paid more := paid.imp more.failed fun settled => settled.later more
  alike := by
    rintro s _ answers ⟨_, _, _, _, rfl⟩ tidy
    exact ⟨⟨tidy.mirrored, tidy.bounds⟩, fun _ => id, fun _ => id⟩
  owed_alike := by
    rintro s _ d ⟨_, _, _, _, rfl⟩ owed
    exact owed

def Goal.Constrains {s : Shape} : Goal s → Prop
  | .addLowerBound _ _ t _ => t.IsBound
  | .postEqualTys .. => False
  | .numeric .. => False
  | .future .. => False
  | .futureHead .. => False
  | .body .. => False
  | .expr .. => False
  | .argument .. => False
  | .member .. => False
  | _ => True

abbrev Contract.constraints : Asks := fun _ g _ => g.Constrains

namespace Contract

variable {w : Moment} {s : Session}

def Incurs (d : Due) (r : Record) : Prop := d.causes.1 = r ∨ d.causes.2 = r

section Incurring

variable {d : Due} {i j : InferIndex} {t : Term} {p : Predicate}

theorem incurs_lower (incurs : Incurs d (.lower i t)) :
    (∃ j, d = .pass i j t) ∨ (∃ u, d = .check i t u) ∨ ∃ p, d = .assure i t p := by
  cases d <;> simp_all [Incurs, Due.causes]

theorem incurs_upper (incurs : Incurs d (.upper i t)) : (∃ j, d = .yield j i t) ∨ ∃ l, d = .check i l t := by
  cases d <;> simp_all [Incurs, Due.causes]

theorem incurs_edge (incurs : Incurs d (.edge i j)) : (∃ t, d = .pass i j t) ∨ ∃ t, d = .yield i j t := by
  cases d <;> simp_all [Incurs, Due.causes]

theorem incurs_fact (incurs : Incurs d (.fact i p)) : ∃ t, d = .assure i t p := by
  cases d <;> simp_all [Incurs, Due.causes]

end Incurring

def Proper (s : Session) : Option Record → Prop
  | some (.lower _ t) => t.IsBound
  | some (.edge i j) => s.Mirrors i j
  | _ => True

theorem leads_of_gains {r? : Option Record} (gains : w.session.Gains s r?) (proper : Proper s r?)
    (sound : ledger.Sound w) : ledger.Leads w ⟨s, w.answers⟩ := by
  refine ⟨⟨fun r has => (gains.has r).mpr (.inl has), fun _ => id⟩, fun i j has => ?_, fun i t has => ?_⟩
  · rcases (gains.has _).mp has with old | rfl
    · exact gains.mirrors i j (sound.mirrored i j old)
    · exact proper
  · rcases (gains.has _).mp has with old | rfl
    · exact sound.bounds i t old
    · exact proper

theorem owed_of_gains {r? : Option Record} {d : Due} (gains : w.session.Gains s r?)
    (owed : ledger.Owed s d) : ledger.Owed w.session d ∨ ∃ r, r? = some r ∧ Incurs d r := by
  rcases (gains.has _).mp owed.1 with first | new
  · rcases (gains.has _).mp owed.2 with second | new
    · exact .inl ⟨first, second⟩
    · exact .inr ⟨_, new, .inr rfl⟩
  · exact .inr ⟨_, new, .inl rfl⟩

end Contract

namespace Prog

open Contract (ledger constraints)

variable {α γ : Type} {owing : Prop} {p : Prog α}

def Orderly (owing : Prop) (p : Prog α) : Prop :=
  ∀ w, p.Meets ledger constraints owing (fun _ _ => True) w

theorem orderly_done (r : Except Failure α) : (done r).Orderly owing := fun _ _ _ => trivial

theorem Orderly.andThen {f : Except Failure α → Prog γ} (first : p.Orderly owing)
    (next : ∀ r, (f r).Orderly owing) : (p.andThen f).Orderly owing :=
  fun w => Meets.andThen ((first w).mono fun r w' _ _ => next r w')

theorem orderly_perform {a : Action α} (still : a.Within fun s s' => s.Gains s' none) : (perform a).Orderly owing := by
  refine fun w => .perform fun w' leads => ⟨Contract.leads_of_gains (still _) trivial leads.sound,
    fun d owed => ?_, fun _ _ => trivial⟩
  exact (Contract.owed_of_gains (still w'.session) owed).resolve_right nofun

theorem meets_refuse (env : Env) (o : Obligation) (because : Because)
    {Q : Except Failure α → Moment → Prop} {w : Moment} (fails : ∀ e v, Q (.error e) v) :
    (refuse env o because : Prog α).Meets ledger constraints owing Q w := by
  refine .perform fun w' leads => ?_
  obtain ⟨report, trace, refused⟩ := Action.exec_refuse (α := α) env o because w'.session
  have gains : w'.session.Gains ((Action.refuse env o because : Action α).exec w'.session).2 none :=
    .of_same (Action.spares_refuse env o because w'.session)
  refine ⟨Contract.leads_of_gains gains trivial leads.sound, fun d owed => ?_, fun v _ => ?_⟩
  · exact (Contract.owed_of_gains gains owed).resolve_right nofun
  · rw [refused]
    exact fails _ v

end Prog

end Ownership
